import WasmI32.Limits
import WasmI32.Word

/-!
# Linear memory

A run of zero-filled pages that can only grow, up to a maximum fixed when the memory is made. An
access names an address and a constant offset; the two are added as natural numbers, so an access
never wraps round to the front. Only a caller's own length can be too large for that: see
`Memory.read`. Numbers lie in memory lowest byte first.

The operations that change a memory give back the memory they leave. One that fails leaves it as
it was.
-/

namespace WasmI32

/-- The number of bytes in a page. -/
def pageSize : Nat := 65536

/-- Why a memory operation is refused. -/
inductive MemoryError where
  /-- An access of `width` bytes at `address + offset` does not lie inside `size` bytes. -/
  | outOfBounds (address offset width size : Nat)
  /-- A memory must be allowed at least one page and at most the ceiling. -/
  | invalidMaximum (max ceiling : Nat)
  | initialExceedsMaximum (initial max : Nat)
  | growthExceedsMaximum (current delta max : Nat)
  deriving DecidableEq, Repr

def MemoryError.message : MemoryError → String
  | outOfBounds address offset width size =>
    s!"out of bounds memory access: address {address} + offset {offset} (width {width})"
      ++ s!" exceeds {size} bytes"
  | invalidMaximum max ceiling => s!"maximum of {max} pages is outside 1..={ceiling}"
  | initialExceedsMaximum initial max =>
    s!"initial size {initial} pages exceeds maximum {max} pages"
  | growthExceedsMaximum current delta max =>
    s!"cannot grow {current} pages by {delta}: maximum is {max} pages"

/-- How many bytes a load or store touches. -/
inductive Width where
  | byte
  | half
  | word
  deriving DecidableEq, Repr

/-- The number of bytes. -/
def Width.size : Width → Nat
  | byte => 1
  | half => 2
  | word => 4

/-- A linear memory. -/
structure Memory where
  data : ByteArray
  /-- The number of pages in `data`. -/
  pages : Nat
  maxPages : Nat

namespace Memory

instance : DecidableEq Memory
  | ⟨⟨bytes⟩, pages, maxPages⟩, ⟨⟨bytes'⟩, pages', maxPages'⟩ =>
    decidable_of_iff (bytes = bytes' ∧ pages = pages' ∧ maxPages = maxPages')
      ⟨fun ⟨hb, hp, hm⟩ => by rw [hb, hp, hm], fun h => by cases h; exact ⟨rfl, rfl, rfl⟩⟩

/-- The memory of a module that declares none: it has no page and never grows. -/
def empty : Memory := ⟨.empty, 0, 0⟩

/-- The byte at an address. -/
def byteAt (m : Memory) (address : Nat) : UInt8 :=
  if h : address < m.data.size then m.data[address] else 0

/-- A page of zeros. -/
def zeroPage : ByteArray := ⟨Array.replicate pageSize 0⟩

/-- The bytes of `data` with `n` pages of zeros behind them. -/
def appendPages (data : ByteArray) : Nat → ByteArray
  | 0 => data
  | n + 1 => appendPages (data ++ zeroPage) n

/-- A memory of `initial` zero-filled pages. -/
def create (initial maxPages : Nat) : Except MemoryError Memory :=
  if maxPages < 1 ∨ Limits.pages < maxPages then .error (.invalidMaximum maxPages Limits.pages)
  else if maxPages < initial then .error (.initialExceedsMaximum initial maxPages)
  else .ok ⟨appendPages .empty initial, initial, maxPages⟩

/-- Whether `width` bytes at `address + offset` lie inside the memory. -/
def Holds (m : Memory) (address offset : Word) (width : Nat) : Prop :=
  address.toNat + offset.toNat + width ≤ m.data.size

instance (m : Memory) (address offset : Word) (width : Nat) :
    Decidable (m.Holds address offset width) := Nat.decLe _ _

/-- The error of an access that the memory does not hold. -/
def refusal (m : Memory) (address offset : Word) (width : Nat) : MemoryError :=
  .outOfBounds address.toNat offset.toNat width m.data.size

/-- Whether `delta` more pages stay within the maximum. -/
def CanGrow (m : Memory) (delta : Word) : Prop := m.pages + delta.toNat ≤ m.maxPages

instance (m : Memory) (delta : Word) : Decidable (m.CanGrow delta) := Nat.decLe _ _

/-- The memory with `delta` zero-filled pages behind its last one. -/
def extend (m : Memory) (delta : Nat) : Memory :=
  match m with
  | ⟨data, pages, maxPages⟩ => ⟨appendPages data delta, pages + delta, maxPages⟩

/-- Grows by `delta` pages and answers the number of pages before. -/
def grow (delta : Word) : EStateM MemoryError Memory Nat := fun m =>
  if m.CanGrow delta then .ok m.pages (m.extend delta.toNat)
  else .error (.growthExceedsMaximum m.pages delta.toNat m.maxPages) m

/-- The `width` bytes from `address` on, as a number. -/
def number (m : Memory) (address : Nat) : Nat → Nat
  | 0 => 0
  | width + 1 => (m.byteAt address).toNat + 256 * m.number (address + 1) width

/-- Loads a number of the given width and extends it to a word, by its top bit if `signed`. -/
def load (m : Memory) (address offset : Word) (width : Width) (signed : Bool) :
    Except MemoryError Word :=
  if m.Holds address offset width.size then
    let value := m.number (address.toNat + offset.toNat) width.size
    let bits := 8 * width.size
    .ok (if signed then (BitVec.ofNat bits value).signExtend 32 else BitVec.ofNat 32 value)
  else .error (m.refusal address offset width.size)

/-- Puts `bytes` into `data` from `address` on, as far as `data` goes. -/
def overwrite (data : ByteArray) (address : Nat) : List UInt8 → ByteArray
  | [] => data
  | b :: rest =>
    if h : address < data.size then overwrite (data.set address b h) (address + 1) rest else data

/-- The memory with `bytes` put in from `address` on. -/
def put (m : Memory) (address : Nat) (bytes : List UInt8) : Memory :=
  match m with
  | ⟨data, pages, maxPages⟩ => ⟨overwrite data address bytes, pages, maxPages⟩

/-- The lowest `count` bytes of `value`, lowest first. -/
def lowBytes (value : Word) : Nat → List UInt8
  | 0 => []
  | count + 1 => UInt8.ofBitVec (value.setWidth 8) :: lowBytes (value >>> 8) count

/-- Stores the lowest bytes of a word. -/
def store (address offset : Word) (width : Width) (value : Word) :
    EStateM MemoryError Memory Unit := fun m =>
  if m.Holds address offset width.size then
    .ok () (m.put (address.toNat + offset.toNat) (lowBytes value width.size))
  else .error (m.refusal address offset width.size) m

/-- Writes `bytes` from `address` on. -/
def write (address : Word) (bytes : List UInt8) : EStateM MemoryError Memory Unit := fun m =>
  let width := bytes.length
  if m.Holds address 0 width then .ok () (m.put address.toNat bytes)
  else .error (m.refusal address 0 width) m

/-- Reads `length` bytes from `address` on. The end of the access is a sum of 64 bits: if it
overflows, there is no answer at all. -/
def read (m : Memory) (address : Word) (length : BitVec 64) :
    Option (Except MemoryError (List UInt8)) :=
  let start := address.setWidth 64
  let stop := start + length
  if start.uaddOverflow length then none
  else if m.data.size < stop.toNat then some (.error (m.refusal address 0 length.toNat))
  else some (.ok (m.data.extract start.toNat stop.toNat).data.toList)

end Memory

end WasmI32
