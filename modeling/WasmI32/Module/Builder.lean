import WasmI32.Instruction.Encode
import WasmI32.Memory
import WasmI32.Module.Section
import WasmI32.ValueType

/-!
# Building modules

A `Builder` collects what a module is to hold and writes its binary: sections in the order of
their numbers, custom sections last, and every integer in the fewest bytes. Counts and sizes are
written as 32-bit integers, so they have to stay below `2 ^ 32`. Nothing else is checked: a binary
that breaks a limit of the decoder is written all the same.
-/

namespace WasmI32

/-- A function to be written. -/
structure Builder.Function where
  typeIndex : Word
  localCount : Word
  /-- The bytes of its instructions. -/
  code : List UInt8
  deriving DecidableEq, Repr

/-- A memory to be written. -/
structure Builder.Limits where
  initial : Word
  max : Option Word
  deriving DecidableEq, Repr

/-- Bytes to be put into memory at `address`. -/
structure Builder.Data where
  address : Word
  bytes : List UInt8
  deriving DecidableEq, Repr

/-- A custom section to be written. -/
structure Builder.Custom where
  name : String
  payload : List UInt8
  deriving DecidableEq, Repr

/-- The contents of a module to be written. -/
structure Builder where
  types : Array FunctionType := #[]
  functions : Array Builder.Function := #[]
  memory : Option Builder.Limits := none
  start : Option Word := none
  data : Array Builder.Data := #[]
  custom : Array Builder.Custom := #[]
  deriving DecidableEq, Repr

namespace Builder

/-- Adds a signature, unless it is there already, and answers its index. -/
def addSignature (b : Builder) (type : FunctionType) : Nat × Builder :=
  match b.types.findIdx? (· = type) with
  | some index => (index, b)
  | none => (b.types.size, { b with types := b.types.push type })

/-- Adds a function with the given code and answers its index. -/
def addCode (b : Builder) (typeIndex localCount : Word) (code : List UInt8) : Nat × Builder :=
  (b.functions.size, { b with functions := b.functions.push ⟨typeIndex, localCount, code⟩ })

/-- Adds a function and answers its index. The `end` of its body is put behind `body`. -/
def addFunction (b : Builder) (type : FunctionType) (localCount : Word) (body : List Instruction) :
    Nat × Builder :=
  let (index, b) := b.addSignature type
  b.addCode (BitVec.ofNat 32 index) localCount (Instruction.encodeAll (body ++ [.endMark]))

/-- Sets the memory. -/
def setMemory (b : Builder) (initial : Word) (max : Option Word) : Builder :=
  { b with memory := some ⟨initial, max⟩ }

/-- Sets the start function. -/
def setStart (b : Builder) (index : Word) : Builder := { b with start := some index }

/-- Adds bytes that lie in memory from the start. -/
def addData (b : Builder) (address : Word) (bytes : List UInt8) : Builder :=
  { b with data := b.data.push ⟨address, bytes⟩ }

/-- Adds a custom section. -/
def addCustom (b : Builder) (name : String) (payload : List UInt8) : Builder :=
  { b with custom := b.custom.push ⟨name, payload⟩ }

/-- Writes a count or a size. -/
def encodeCount (n : Nat) : List UInt8 := Leb128.encodeUnsigned (BitVec.ofNat 32 n)

/-- Writes bytes behind their number. -/
def encodeBytes (bytes : List UInt8) : List UInt8 := encodeCount bytes.length ++ bytes

/-- Writes items behind their number. -/
def encodeItems {α : Type} (item : α → List UInt8) (items : Array α) : List UInt8 :=
  encodeCount items.size ++ items.toList.flatMap item

/-- Writes a section: its number, its size and its contents. -/
def encodeSection (id : UInt8) (contents : List UInt8) : List UInt8 := id :: encodeBytes contents

/-- Writes `n` value types `i32` behind their number. -/
def encodeValueTypes (n : Nat) : List UInt8 := encodeBytes (List.replicate n ValueType.i32Byte)

def encodeType (type : FunctionType) : List UInt8 :=
  FunctionType.tag :: (encodeValueTypes type.parameters ++ encodeValueTypes type.results)

def encodeLimits (limits : Limits) : List UInt8 :=
  match limits.max with
  | some max => 0x01 :: (Leb128.encodeUnsigned limits.initial ++ Leb128.encodeUnsigned max)
  | none => 0x00 :: Leb128.encodeUnsigned limits.initial

/-- Writes local declarations: one group at most. -/
def encodeLocals (n : Word) : List UInt8 :=
  if n = 0 then encodeCount 0
  else encodeCount 1 ++ Leb128.encodeUnsigned n ++ [ValueType.i32Byte]

def encodeFunction (f : Function) : List UInt8 := encodeBytes (encodeLocals f.localCount ++ f.code)

/-- Writes a data segment of memory zero, with its address as a constant expression. -/
def encodeData (data : Data) : List UInt8 :=
  Leb128.encodeUnsigned 0 ++ (Instruction.const data.address).encode
    ++ Instruction.endMark.encode ++ encodeBytes data.bytes

def encodeCustom (custom : Custom) : List UInt8 :=
  encodeSection Section.custom (encodeBytes custom.name.toUTF8.data.toList ++ custom.payload)

/-- Writes a section of items, or nothing if there are none. -/
def encodeItemSection {α : Type} (id : UInt8) (item : α → List UInt8) (items : Array α) :
    List UInt8 :=
  if items.isEmpty then [] else encodeSection id (encodeItems item items)

/-- Writes the memory section, if there is a memory. -/
def encodeMemorySection : Option Limits → List UInt8
  | some limits => encodeSection Section.memory (encodeCount 1 ++ encodeLimits limits)
  | none => []

/-- Writes the start section, if there is a start function. -/
def encodeStartSection : Option Word → List UInt8
  | some index => encodeSection Section.start (Leb128.encodeUnsigned index)
  | none => []

/-- The binary of the module. -/
def encode (b : Builder) : List UInt8 :=
  Module.header
    ++ encodeItemSection Section.type encodeType b.types
    ++ encodeItemSection Section.function (Leb128.encodeUnsigned ·.typeIndex) b.functions
    ++ encodeMemorySection b.memory
    ++ encodeStartSection b.start
    ++ encodeItemSection Section.code encodeFunction b.functions
    ++ encodeItemSection Section.data encodeData b.data
    ++ b.custom.toList.flatMap encodeCustom

end Builder

end WasmI32
