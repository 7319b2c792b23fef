import WasmI32.Proofs.Module.Denotation
import WasmI32.Proofs.Traps

/-!
# What a trap report tells

A report is put together behind the step that traps, when the frame has moved on and a call or a
return may have been tried. It still names the frame that was running, the place where the
instruction stands and the number of frames that were live. The cause is one that the instruction
there can have: `Instruction.Cause` lists them. The code is that of a decoded module, which has at
most one result per function; otherwise nothing is known of it.
-/

namespace WasmI32

/-! ## Computations that fail for known causes -/

section Raises

variable {ε σ α β : Type} {P : ε → Prop}

end Raises

/-! ## The causes that an instruction can have -/

/-- The faults of an operation. -/
inductive BinaryOp.Faults : BinaryOp → ArithmeticFault → Prop
  | divS (fault : ArithmeticFault) : Faults .divS fault
  | divU : Faults .divU .divisionByZero
  | remS : Faults .remS .divisionByZero
  | remU : Faults .remU .divisionByZero

namespace Instruction

/-- Whether an instruction needs operands on the stack. A branch may have results to keep, and a
call may have arguments to pass. -/
def needsOperands : Instruction → Bool
  | enter kind _ => kind = .cond
  | br _ | brIf _ | call _ | drop | localSet _ | localTee _ | load _ _ | store _ _ | memoryGrow
  | unary _ | compare _ | binary _ => true
  | unreachable | nop | elseMark | endMark | ret | localGet _ | memorySize | const _ => false

/-- The causes for which an instruction can trap in a function with so many results. A branch out of
the function is not among those that end it with a wrong number of operands. -/
inductive Cause (results : Nat) : Instruction → Trap → Prop
  | unreachable : Cause results .unreachable .unreachable
  | arithmetic {op : BinaryOp} {fault : ArithmeticFault} (h : op.Faults fault) :
    Cause results (.binary op) (.arithmetic fault)
  | load (op : LoadOp) (arg : MemArg) (address size : Nat) :
    Cause results (.load op arg)
      (.memory (.outOfBounds address arg.offset.toNat op.width.size size))
  | store (width : Width) (arg : MemArg) (address size : Nat) :
    Cause results (.store width arg)
      (.memory (.outOfBounds address arg.offset.toNat width.size size))
  | localGet (index : Word) : Cause results (.localGet index) (.localOutOfBounds index.toNat)
  | localSet (index : Word) : Cause results (.localSet index) (.localOutOfBounds index.toNat)
  | localTee (index : Word) : Cause results (.localTee index) (.localOutOfBounds index.toNat)
  | br (label : Word) : Cause results (.br label) (.branchDepth label.toNat)
  | brIf (label : Word) : Cause results (.brIf label) (.branchDepth label.toNat)
  | elseMark : Cause results .elseMark .unexpectedElse
  | endMark {actual : Nat} (h : actual ≠ results) :
    Cause results .endMark (.arityMismatch results actual)
  | ret {actual : Nat} (h : actual ≠ results) : Cause results .ret (.arityMismatch results actual)
  | unknown (callee : Word) : Cause results (.call callee) (.unknownFunction callee.toNat)
  | exhausted (callee : Word) : Cause results (.call callee) .callStackExhausted
  | underflow {i : Instruction} (h : i.needsOperands = true) : Cause results i .stackUnderflow

end Instruction

namespace Structured.Scope

variable {P : Trap → Prop}

end Structured.Scope

namespace Activation

variable {a a' : Activation} {flow : Flow}

theorem ControlTraps.cause {i : Instruction} {trap : Trap} {stack : OperandStack}
    (h : ControlTraps a i trap stack) (results : Nat) : i.Cause results trap := by
  cases h with
  | enterIf | condition => exact .underflow rfl
  | elseMark => exact .elseMark
  | br h =>
    cases h with
    | depth => exact .br _
    | underflow => exact .underflow rfl
  | brIf _ _ h =>
    cases h with
    | depth => exact .brIf _
    | underflow => exact .underflow rfl

end Activation

/-! ## Bytes that are no instruction -/

namespace Instruction

variable {code : Array UInt8} {ip next : Nat} {i : Instruction} {e : InstructionError}

end Instruction

namespace Machine

open Instruction (decodeAt IsBoundary)

variable {functions : Array Function} {m m' : Machine} {trap : Trap} {frame : Frame}
  {callers : List Frame} {f : Function}

/-! ## Steps that trap -/

end Machine

/-! ## Modules -/

namespace Module

open Format

variable {bytes : List UInt8} {m : Module}

end Module

/-! ## Reports -/

namespace Machine

variable {m m' : Machine}

end Machine

end WasmI32
