import WasmI32.Word

/-!
# LEB128 integers

A 32-bit integer is written in base 128, lowest digit first, one digit to a byte. A byte of 128 or
more says that another one follows. Five digits reach beyond 32 bits, so that the fifth is limited:
its spare bits have to be zero, or copies of the sign in the signed form.

The decoders take the bytes from the integer on, ignore what follows it, and answer with the
number of bytes it takes up. The encoders write the fewest bytes.
-/

namespace WasmI32.Leb128

/-- The longest encoding of a 32-bit integer, in bytes. -/
def maxLength : Nat := 5

/-- Why bytes do not start with the encoding of a 32-bit integer. -/
inductive Fault where
  /-- The bytes end before the last digit. -/
  | truncated
  /-- There are too many digits, or the fifth one has wrong spare bits. -/
  | malformed
  deriving DecidableEq, Repr

/-- Whether another byte follows `b`. -/
def continues (b : UInt8) : Bool := b &&& 0x80 != 0

/-- The seven low bits of a byte, at their place in a word. -/
def bitsAt (shift : Nat) (b : UInt8) : Word := (b &&& 0x7f).toBitVec.setWidth 32 <<< shift

/-- Whether the fifth byte of an unsigned integer is its last and leaves the spare bits zero. -/
def fitsUnsigned (b : UInt8) : Bool := b &&& 0x80 == 0 && b &&& 0x70 == 0

/-- Whether the fifth byte of a signed integer is its last and has spare bits that repeat the
sign. -/
def fitsSigned (b : UInt8) : Bool :=
  let high := b &&& 0x78
  b &&& 0x80 == 0 && (high == 0 || high == 0x78)

/-- Fills a word with the sign of its last byte, from the first bit on that no byte has set. -/
def extendSign (last : UInt8) (consumed : Nat) (result : Word) : Word :=
  if consumed < 32 && last &&& 0x40 != 0 then result ||| BitVec.allOnes 32 <<< consumed else result

/-- Reads at most `left` more bytes, of which the first is the `i`-th of the integer, into the bits
that are still zero in `result`. The fifth byte has to pass `fits`, and `extend` completes the word
behind the last one. -/
def collect (fits : UInt8 → Bool) (extend : UInt8 → Nat → Word → Word) :
    (left i : Nat) → Word → List UInt8 → Except Fault (Word × Nat)
  | 0, _, _, _ => .error .malformed
  | _ + 1, _, _, [] => .error .truncated
  | left + 1, i, result, b :: rest =>
    if i == maxLength - 1 && !fits b then .error .malformed
    else
      let result := result ||| bitsAt (7 * i) b
      if continues b then collect fits extend left (i + 1) result rest
      else .ok (extend b (7 * i + 7) result, i + 1)

/-- The value of an unsigned encoding at the start of `bytes`, and its length. -/
def decodeUnsigned (bytes : List UInt8) : Except Fault (Word × Nat) :=
  collect fitsUnsigned (fun _ _ result => result) maxLength 0 0 bytes

/-- The value of a signed encoding at the start of `bytes`, and its length. -/
def decodeSigned (bytes : List UInt8) : Except Fault (Word × Nat) :=
  collect fitsSigned extendSign maxLength 0 0 bytes

/-- The byte of the lowest digit of `v`, if it is the last one. -/
def lastByte (v : Word) : UInt8 := .ofBitVec ((v &&& 0x7f).setWidth 8)

/-- The byte of the lowest digit of `v`, if another one follows. -/
def innerByte (v : Word) : UInt8 := lastByte v ||| 0x80

/-- Writes an unsigned integer in at most `limit` digits. -/
def unsignedBytes : Nat → Word → List UInt8
  | 0, _ => []
  | limit + 1, v =>
    let high := v >>> 7
    if high = 0 then [lastByte v] else innerByte v :: unsignedBytes limit high

/-- The shortest unsigned encoding. -/
def encodeUnsigned (v : Word) : List UInt8 := unsignedBytes maxLength v

/-- Whether the lowest digit of `v` has a sign that the digits over it, `high`, repeat. -/
def signSettled (v high : Word) : Bool :=
  high == 0 && lastByte v &&& 0x40 == 0 || high == BitVec.allOnes 32 && lastByte v &&& 0x40 != 0

/-- Writes a signed integer in at most `limit` digits. -/
def signedBytes : Nat → Word → List UInt8
  | 0, _ => []
  | limit + 1, v =>
    let high := v.sshiftRight 7
    if signSettled v high then [lastByte v] else innerByte v :: signedBytes limit high

/-- The shortest signed encoding. -/
def encodeSigned (v : Word) : List UInt8 := signedBytes maxLength v

/-- The length of the shortest unsigned encoding, read off the size of the value. -/
def encodedSize (v : Word) : Nat :=
  let n := v.toNat
  if n ≤ 0x7f then 1
  else if n ≤ 0x3fff then 2
  else if n ≤ 0x1fffff then 3
  else if n ≤ 0x0fffffff then 4
  else 5

end WasmI32.Leb128
