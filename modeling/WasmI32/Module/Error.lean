import WasmI32.Memory
import WasmI32.Module.Section
import WasmI32.Text.Hex
import WasmI32.Window

/-!
# Decoding errors

Why bytes are not a module the engine can run. Offsets count from the start of the binary.
-/

namespace WasmI32

/-- The things of which a module may have only so many. -/
inductive Counted where
  | type
  | function
  | parameter
  | functionBody
  | functionBodyByte
  | localSlot
  | dataSegment
  deriving DecidableEq, Repr

def Counted.name : Counted → String
  | type => "type"
  | function => "function"
  | parameter => "parameter"
  | functionBody => "function body"
  | functionBodyByte => "function body byte"
  | localSlot => "local"
  | dataSegment => "data segment"

/-- Why a binary is refused. -/
inductive DecodeError where
  | badHeader
  | sectionOrder (id previous : UInt8) (offset : Nat)
  | unsupportedValueType (name : String) (byte : UInt8) (offset : Nat)
  | invalidValueType (byte : UInt8) (offset : Nat)
  | multipleMemories (count : Nat)
  /-- The offset of a data segment is not a constant. -/
  | dataSegmentOffset (offset : Nat)
  | malformedInteger (offset : Nat)
  | unexpectedEnd (offset : Nat)
  | functionTypeTag (tag : UInt8) (offset : Nat)
  | tooManyResults (count offset : Nat)
  | unknownSection (id : UInt8) (offset : Nat)
  /-- A section's contents end before the section does. -/
  | sectionSize (id : UInt8) (offset declared consumed : Nat)
  | functionCount (functions bodies : Nat)
  | typeIndex (index count : Nat)
  | memoryFlags (flags : UInt8) (offset : Nat)
  | memoryLimits (cause : MemoryError)
  | memoryIndex (index : Nat)
  | dataSegmentBounds (cause : MemoryError)
  | startFunction (index count : Nat)
  | limitExceeded (what : Counted) (count limit : Nat)
  deriving DecidableEq, Repr

namespace DecodeError

def ofRead : ReadError → DecodeError
  | .truncated offset => unexpectedEnd offset
  | .malformed offset => malformedInteger offset

def message : DecodeError → String
  | badHeader => "bad magic number or version in module header"
  | sectionOrder id previous offset =>
    s!"wrong order of sections: {Section.name id} section (0x{Hex.ofByte id}) at offset {offset}"
      ++ s!" follows {Section.name previous} section"
  | unsupportedValueType name byte offset =>
    s!"unsupported value type {name} (0x{Hex.ofByte byte}) at offset {offset}"
  | invalidValueType byte offset => s!"invalid value type 0x{Hex.ofByte byte} at offset {offset}"
  | multipleMemories count => s!"multiple memories declared ({count}); only one is supported"
  | dataSegmentOffset offset =>
    s!"malformed data segment offset expression at offset {offset}: expected i32.const <addr> end"
  | malformedInteger offset => s!"malformed LEB128 integer at offset {offset}"
  | unexpectedEnd offset => s!"unexpected end of input at offset {offset}"
  | functionTypeTag tag offset =>
    s!"invalid function type tag 0x{Hex.ofByte tag} at offset {offset}, expected 0x60"
  | tooManyResults count offset =>
    s!"function type at offset {offset} declares {count} results; at most one is supported"
  | unknownSection id offset => s!"unknown section id {id} at offset {offset}"
  | sectionSize id offset declared consumed =>
    s!"{Section.name id} section at offset {offset} declared {declared} bytes"
      ++ s!" but {consumed} were read"
  | functionCount functions bodies =>
    s!"function and code section lengths differ: {functions} functions, {bodies} bodies"
  | typeIndex index count => s!"type index {index} out of range ({count} types)"
  | memoryFlags flags offset =>
    s!"invalid memory limits flags 0x{Hex.ofByte flags} at offset {offset}"
  | memoryLimits cause => s!"invalid memory limits: {cause.message}"
  | memoryIndex index => s!"data segment targets memory {index}; only memory 0 is supported"
  | dataSegmentBounds cause => s!"data segment does not fit in memory: {cause.message}"
  | startFunction index count => s!"start function index {index} out of range ({count} functions)"
  | limitExceeded what count limit =>
    s!"{what.name} count {count} exceeds implementation limit {limit}"

end DecodeError

instance : MonadLift (Read ReadError) (Read DecodeError) where
  monadLift := EStateM.adaptExcept DecodeError.ofRead

end WasmI32
