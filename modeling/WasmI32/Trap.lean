import WasmI32.Instruction.Decode
import WasmI32.Memory

/-!
# Traps

A trap ends an invocation. `Trap` is its cause; a `TrapReport` adds the instruction at which it
happened.
-/

namespace WasmI32

/-- Why a computation on words has no result. -/
inductive ArithmeticFault where
  | divisionByZero
  | integerOverflow
  deriving DecidableEq, Repr

def ArithmeticFault.message : ArithmeticFault → String
  | divisionByZero => "integer divide by zero"
  | integerOverflow => "integer overflow"

/-- Why running code stops without a result. -/
inductive Trap where
  | unreachable
  | arithmetic (fault : ArithmeticFault)
  | memory (cause : MemoryError)
  /-- Fewer operands than needed lie above the base of the frame. -/
  | stackUnderflow
  /-- A function ends with another number of operands than it has results. -/
  | arityMismatch (expected actual : Nat)
  | invalidOpcode (opcode : UInt8)
  | unexpectedEnd
  | malformedImmediate
  | unsupportedBlockType (byte : UInt8)
  | unknownFunction (index : Nat)
  | localOutOfBounds (index : Nat)
  | argumentCount (expected actual : Nat)
  | branchDepth (label : Nat)
  | unexpectedElse
  | callStackExhausted
  | noStartFunction
  deriving DecidableEq, Repr

namespace Trap

/-- The trap of reaching bytes that are no instruction. -/
def ofInstructionError : InstructionError → Trap
  | .invalidOpcode opcode _ => invalidOpcode opcode
  | .unexpectedEnd _ => unexpectedEnd
  | .malformedImmediate _ => malformedImmediate
  | .unsupportedBlockType byte _ => unsupportedBlockType byte

def message : Trap → String
  | unreachable => "unreachable executed"
  | arithmetic fault => s!"arithmetic error: {fault.message}"
  | memory cause => cause.message
  | stackUnderflow => "stack underflow"
  | arityMismatch expected actual =>
    s!"arity mismatch: expected {expected} result(s), found {actual}"
  | invalidOpcode opcode => s!"invalid opcode 0x{Hex.ofByte opcode}"
  | unexpectedEnd => "unexpected end of bytecode"
  | malformedImmediate => "malformed immediate"
  | unsupportedBlockType byte => s!"unsupported block type 0x{Hex.ofByte byte}"
  | unknownFunction index => s!"unknown function: {index}"
  | localOutOfBounds index => s!"local variable index out of bounds: {index}"
  | argumentCount expected actual => s!"argument count mismatch: expected {expected}, got {actual}"
  | branchDepth label => s!"invalid branch depth: {label}"
  | unexpectedElse => "else without matching if"
  | callStackExhausted => "call stack exhausted"
  | noStartFunction => "module has no start function"

end Trap

/-- A trap and where it happened. -/
structure TrapReport where
  trap : Trap
  /-- The index of the running function. -/
  function : Nat
  /-- The offset of the instruction in the body of that function. -/
  offset : Nat
  /-- The byte at `offset`, if the body has one there. -/
  opcode : Option UInt8
  /-- The number of live frames. -/
  depth : Nat
  deriving DecidableEq, Repr

namespace TrapReport

/-- The report of an invocation that fails before the first instruction. -/
def atEntry (trap : Trap) (function : Nat) : TrapReport := ⟨trap, function, 0, none, 0⟩

def message (r : TrapReport) : String :=
  let opcode :=
    match r.opcode with
    | some b => s!", opcode 0x{Hex.ofByte b}"
    | none => ""
  s!"{r.trap.message} (function {r.function} at offset {r.offset}{opcode}, call depth {r.depth})"

end TrapReport

end WasmI32
