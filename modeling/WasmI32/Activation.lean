import WasmI32.Frame
import WasmI32.Numeric

/-!
# Running one instruction

An `Activation` is what one instruction can reach: the running frame, the operand stack and the
linear memory. `Activation.execute` runs an instruction and says by a `Flow` what the call stack has
to do next. It does not look at the state of the frame: whether an instruction is run or skipped is
decided by the machine.
-/

namespace WasmI32

/-- The part of the machine that an instruction can reach. -/
structure Activation where
  frame : Frame
  stack : OperandStack
  memory : Memory
  deriving DecidableEq

/-- A computation on an activation that keeps the activation when it traps. -/
abbrev ActivationM := EStateM Trap Activation

namespace Activation

/-- Runs a computation on the operand stack. -/
@[inline] def onStack {α : Type} (x : StackM α) : ActivationM α := fun a =>
  match a with
  | ⟨frame, stack, memory⟩ =>
    match x stack with
    | .ok v stack => .ok v ⟨frame, stack, memory⟩
    | .error trap stack => .error trap ⟨frame, stack, memory⟩

/-- Runs a computation on the memory. -/
@[inline] def onMemory {α : Type} (x : EStateM MemoryError Memory α) : ActivationM α := fun a =>
  match a with
  | ⟨frame, stack, memory⟩ =>
    match x memory with
    | .ok v memory => .ok v ⟨frame, stack, memory⟩
    | .error cause memory => .error (.memory cause) ⟨frame, stack, memory⟩

/-- Changes the frame. -/
@[inline] def modifyFrame (f : Frame → Frame) : ActivationM Unit := fun a =>
  match a with
  | ⟨frame, stack, memory⟩ => .ok () ⟨f frame, stack, memory⟩

/-- Changes the operand stack. -/
@[inline] def modifyStack (f : OperandStack → OperandStack) : ActivationM Unit := fun a =>
  match a with
  | ⟨frame, stack, memory⟩ => .ok () ⟨frame, f stack, memory⟩

/-! ## Control -/

/-- Opens a construct. -/
def enter (kind : BlockKind) (type : BlockType) : ActivationM Unit := fun a =>
  match a with
  | ⟨frame, stack, memory⟩ => .ok () ⟨frame.enter kind type stack.size, stack, memory⟩

/-- Skips until the innermost construct is closed, or its `else` is reached. -/
def skipInnermost (reason : SkipReason) : ActivationM Unit :=
  modifyFrame fun f => { f with state := .skipping reason f.depth }

/-- Runs `if`: pops the condition and skips the first arm if it is zero. -/
def enterIf (type : BlockType) : ActivationM Unit := do
  let condition ← onStack OperandStack.pop
  enter .cond type
  if condition = 0 then skipInnermost .inactiveIf

/-- Runs `else`, reached at the end of the first arm: the second arm is skipped. -/
def reachElse : ActivationM Unit := fun a =>
  match a.frame.markers with
  | ⟨.cond, _, _, _⟩ :: _ => skipInnermost .takenIf a
  | _ => .error .unexpectedElse a

/-- Runs `end`. Closing the function body returns. -/
def reachEnd : ActivationM Flow := fun a =>
  match a with
  | ⟨frame, stack, memory⟩ =>
    let (flow, frame) := frame.close
    .ok flow ⟨frame, stack, memory⟩

/-- Branches back to the start of a loop. `markers` are the loop's and those around it. -/
def restart (loop : Marker) (markers : List Marker) : ActivationM Flow := do
  modifyStack (·.truncate loop.height)
  modifyFrame fun f => { f with markers, ip := loop.start }
  return .next

/-- Branches out of the construct with `depth` constructs down to it, keeping its results. The
outermost one is the function body, and leaving it returns. -/
def leave (target : Marker) (depth : Nat) : ActivationM Flow := do
  let results ← onStack (OperandStack.popMany target.branchArity)
  modifyStack fun s => (s.truncate target.height).append results
  if depth = 1 then
    modifyFrame fun f => { f with markers := [] }
    return .ret
  else
    modifyFrame fun f => { f with state := .skipping .branch depth }
    return .next

/-- Branches to the construct that `label` constructs lie inside of. -/
def branch (label : Word) : ActivationM Flow := fun a =>
  match a.frame.markers.drop label.toNat with
  | [] => .error (.branchDepth label.toNat) a
  | target :: outer =>
    if target.kind = .loop then restart target (target :: outer) a
    else leave target (outer.length + 1) a

/-- Pops a condition and branches unless it is zero. -/
def branchIf (label : Word) : ActivationM Flow := do
  let condition ← onStack OperandStack.pop
  if condition = 0 then return .next else branch label

/-! ## Locals -/

def localGet (index : Word) : ActivationM Unit := fun a =>
  match a.frame.locals[index.toNat]? with
  | some v => onStack (OperandStack.push v) a
  | none => .error (.localOutOfBounds index.toNat) a

/-- Changes a local. -/
def setLocal (index : Nat) (v : Word) : ActivationM Unit :=
  modifyFrame fun f => { f with locals := f.locals.setIfInBounds index v }

/-- Pops into a local. A local that does not exist is found out before the pop. -/
def localSet (index : Word) : ActivationM Unit := fun a =>
  if a.frame.locals.size ≤ index.toNat then .error (.localOutOfBounds index.toNat) a
  else (do setLocal index.toNat (← onStack OperandStack.pop)) a

/-- Copies the top operand into a local. A missing operand is found out before a missing local. -/
def localTee (index : Word) : ActivationM Unit := do
  let v ← onStack OperandStack.peek
  fun a =>
    if a.frame.locals.size ≤ index.toNat then .error (.localOutOfBounds index.toNat) a
    else setLocal index.toNat v a

/-! ## Memory -/

/-- Replaces an address by the number in memory there. -/
def load (op : LoadOp) (arg : MemArg) : ActivationM Unit := do
  let address ← onStack OperandStack.pop
  fun a =>
    match a.memory.load address arg.offset op.width op.signed with
    | .ok v => onStack (OperandStack.push v) a
    | .error cause => .error (.memory cause) a

/-- Pops a value and an address and stores the value there. -/
def store (width : Width) (arg : MemArg) : ActivationM Unit := do
  let value ← onStack OperandStack.pop
  let address ← onStack OperandStack.pop
  onMemory (Memory.store address arg.offset width value)

def memorySize : ActivationM Unit := fun a =>
  onStack (OperandStack.push (BitVec.ofNat 32 a.memory.pages)) a

/-- Pops a number of pages and pushes the number of pages before growing by it, or minus one if
the memory cannot grow so far. -/
def memoryGrow : ActivationM Unit := do
  let delta ← onStack OperandStack.pop
  fun a =>
    match a with
    | ⟨frame, stack, memory⟩ =>
      match Memory.grow delta memory with
      | .ok pages memory =>
        onStack (OperandStack.push (BitVec.ofNat 32 pages)) ⟨frame, stack, memory⟩
      | .error _ memory =>
        onStack (OperandStack.push (BitVec.allOnes 32)) ⟨frame, stack, memory⟩

/-! ## Instructions -/

/-- Goes on with the next instruction after `x`. -/
@[inline] def andNext (x : ActivationM Unit) : ActivationM Flow := do
  x
  return .next

/-- Runs an instruction. -/
def execute : Instruction → ActivationM Flow
  | .unreachable => throw .unreachable
  | .nop => return .next
  | .enter .cond type => andNext (enterIf type)
  | .enter kind type => andNext (enter kind type)
  | .elseMark => andNext reachElse
  | .endMark => reachEnd
  | .br label => branch label
  | .brIf label => branchIf label
  | .ret => return .ret
  | .call function => return .call function.toNat
  | .drop => andNext do let _ ← onStack OperandStack.pop
  | .localGet index => andNext (localGet index)
  | .localSet index => andNext (localSet index)
  | .localTee index => andNext (localTee index)
  | .load op arg => andNext (load op arg)
  | .store width arg => andNext (store width arg)
  | .memorySize => andNext memorySize
  | .memoryGrow => andNext memoryGrow
  | .const value => andNext (onStack (OperandStack.push value))
  | .unary op => andNext (onStack (OperandStack.unary op))
  | .compare op => andNext (onStack (OperandStack.compare op))
  | .binary op => andNext (onStack (OperandStack.binary op))

end Activation

end WasmI32
