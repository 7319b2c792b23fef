import WasmI32.Leb128

/-!
# Windows onto the input

A module is read through windows: runs of bytes that know their place in the whole input, so that
an error found inside a section still names an offset of the file. A read takes bytes from the
front of the window. One that fails leaves the window in the state that the returned result
carries; only `Window.byteVector`, which is two reads, can fail with a changed window.
-/

namespace WasmI32

/-- Why bytes could not be read. Offsets count from the start of the whole input. -/
inductive ReadError where
  /-- The window ends at `offset`, inside what was to be read. -/
  | truncated (offset : Nat)
  /-- The integer that starts at `offset` does not fit 32 bits. -/
  | malformed (offset : Nat)
  deriving DecidableEq, Repr

namespace ReadError

def offset : ReadError → Nat
  | truncated offset => offset
  | malformed offset => offset

def message : ReadError → String
  | truncated offset => s!"LEB128 encoding truncated at offset {offset}"
  | malformed offset => s!"malformed LEB128 encoding at offset {offset}"

end ReadError

/-- The unread bytes of a part of the input. -/
structure Window where
  /-- Where the part starts in the whole input. -/
  start : Nat
  /-- Where the first unread byte is in the whole input. -/
  offset : Nat
  /-- The bytes of the part from `offset` on. -/
  rest : List UInt8
  deriving DecidableEq, Repr

/-- A computation that reads from a window and keeps the window when it fails. -/
abbrev Read (ε α : Type) := EStateM ε Window α

namespace Window

/-- The window that shows all of `bytes`. -/
def ofBytes (bytes : List UInt8) : Window := ⟨0, 0, bytes⟩

/-- How many bytes have been read. -/
def position (w : Window) : Nat := w.offset - w.start

/-- How many bytes are left. -/
def remaining (w : Window) : Nat := w.rest.length

/-- The offset just after the last byte. -/
def stop (w : Window) : Nat := w.offset + w.rest.length

def isEmpty (w : Window) : Bool := w.rest.isEmpty

/-- The window after `n` bytes have been read. -/
def advance (w : Window) (n : Nat) : Window :=
  { w with offset := w.offset + n, rest := w.rest.drop n }

/-- The offset of the next byte. -/
def here {ε : Type} : Read ε Nat := fun w => .ok w.offset w

/-- Reads one byte. -/
def byte : Read ReadError UInt8 := fun w =>
  match w.rest with
  | [] => .error (.truncated w.offset) w
  | b :: rest => .ok b { w with offset := w.offset + 1, rest }

/-- Reads `n` bytes, or none if fewer are left. -/
def bytes (n : Nat) : Read ReadError (List UInt8) := fun w =>
  let taken := w.rest.take n
  if taken.length < n then .error (.truncated w.stop) w
  else .ok taken (w.advance n)

/-- Reads over `n` bytes. -/
def skip (n : Nat) : Read ReadError Unit := do
  let _ ← bytes n

/-- Reads all bytes that are left. -/
def takeRest {ε : Type} : Read ε (List UInt8) := fun w =>
  .ok w.rest { w with offset := w.stop, rest := [] }

/-- Splits the next `n` bytes off as a window of their own and reads over them. -/
def split (n : Nat) : Read ReadError Window := do
  let start ← here
  let taken ← bytes n
  return ⟨start, start, taken⟩

/-- Reads what a LEB128 decoder finds at the front of the window. -/
def integer (decode : List UInt8 → Except Leb128.Fault (Word × Nat)) : Read ReadError Word :=
  fun w =>
    match decode w.rest with
    | .ok (v, n) => .ok v (w.advance n)
    | .error .truncated => .error (.truncated w.stop) w
    | .error .malformed => .error (.malformed w.offset) w

/-- Reads an unsigned integer. -/
def unsigned : Read ReadError Word := integer Leb128.decodeUnsigned

/-- Reads a signed integer. -/
def signed : Read ReadError Word := integer Leb128.decodeSigned

/-- Reads a length and then that many bytes. If the bytes are missing, the length stays read. -/
def byteVector : Read ReadError (List UInt8) := do
  let n ← unsigned
  bytes n.toNat

end Window

/-- Runs `item` `n` times and collects the answers in order. -/
def Read.times {ε α : Type} (item : Read ε α) (n : Nat) : Read ε (Array α) := go n #[]
where
  go : Nat → Array α → Read ε (Array α)
    | 0, answers => pure answers
    | n + 1, answers => do
      let a ← item
      go n (answers.push a)

end WasmI32
