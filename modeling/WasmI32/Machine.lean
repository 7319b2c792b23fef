import WasmI32.Activation

/-!
# The machine

A machine runs the functions of a module: it holds the call stack, the operand stack and the linear
memory. `Machine.step` runs a single instruction, together with the call or return that it asks
for. `Machine.run` takes a number of steps and says whether the invocation is over by then; it
gives no answer to a program that needs more steps.

A step that traps gives back the machine it leaves, so that what a trap changes can be told.
-/

namespace WasmI32

/-- The state between two instructions. -/
structure Machine where
  /-- The live frames, the running one first. -/
  frames : List Frame
  /-- The number of live frames. -/
  depth : Nat
  /-- The number of local slots in all live frames. -/
  liveLocals : Nat
  stack : OperandStack
  memory : Memory
  /-- The instructions run by the current invocation. -/
  steps : Nat
  deriving DecidableEq

/-- A computation on a machine that keeps the machine when it traps. -/
abbrev MachineM := EStateM Trap Machine

namespace Machine

/-- The machine before any invocation. -/
def create (memory : Memory) : Machine where
  frames := []
  depth := 0
  liveLocals := 0
  stack := {}
  memory := memory
  steps := 0

/-! ## Calls and returns -/

/-- The base of the first of `frames`, or zero without one. -/
def baseOf : List Frame → Nat
  | [] => 0
  | frame :: _ => frame.base

/-- Whether a frame of `size` local slots is too much for the call stack. -/
def Exhausted (m : Machine) (size : Nat) : Prop :=
  Limits.callDepth ≤ m.depth ∨ Limits.totalLocals < m.liveLocals + size

instance (m : Machine) (size : Nat) : Decidable (m.Exhausted size) :=
  inferInstanceAs (Decidable (_ ∨ _))

/-- Makes a new activation of a function the running one. -/
def activate (m : Machine) (index : Nat) (f : Function) (args : Array Word) : Machine :=
  match m with
  | ⟨frames, depth, liveLocals, stack, memory, steps⟩ =>
    let base := stack.size
    ⟨Frame.create index f args base :: frames, depth + 1, liveLocals + f.frameSize,
      stack.withFloor base, memory, steps⟩

/-- Calls a function with its arguments from the operand stack. -/
def call (functions : Array Function) (index : Nat) : MachineM Unit := fun m =>
  match functions[index]? with
  | none => .error (.unknownFunction index) m
  | some f =>
    if m.Exhausted f.frameSize then .error .callStackExhausted m
    else
      match m with
      | ⟨frames, depth, liveLocals, stack, memory, steps⟩ =>
        match OperandStack.popMany f.parameterCount stack with
        | .ok args stack =>
          .ok () (activate ⟨frames, depth, liveLocals, stack, memory, steps⟩ index f args)
        | .error trap stack => .error trap ⟨frames, depth, liveLocals, stack, memory, steps⟩

/-- Ends the running frame. Its results, and nothing else, have to lie above its base. -/
def ret : MachineM Unit := fun m =>
  match m with
  | ⟨[], _, _, _, _, _⟩ => .ok () m
  | ⟨frame :: callers, depth, liveLocals, stack, memory, steps⟩ =>
    let actual := stack.size - frame.base
    if actual = frame.resultCount then
      .ok () ⟨callers, depth - 1, liveLocals - frame.locals.size, stack.withFloor (baseOf callers),
        memory, steps⟩
    else
      .error (.arityMismatch frame.resultCount actual)
        ⟨frame :: callers, depth, liveLocals, stack, memory, steps⟩

/-- Does what an instruction asks of the call stack. -/
def follow (functions : Array Function) : Flow → MachineM Unit
  | .next => pure ()
  | .call index => call functions index
  | .ret => ret

/-! ## Steps -/

/-- The instruction at `ip`, and where the next one starts. -/
def fetch (body : Array UInt8) (ip : Nat) : Except Trap (Instruction × Nat) :=
  if body.size ≤ ip then .error .unexpectedEnd
  else
    match Instruction.decodeAt body ip with
    | .ok found => .ok found
    | .error e => .error (.ofInstructionError e)

/-- Runs or skips the next instruction of an activation. -/
def advance (body : Array UInt8) : ActivationM Flow := fun a =>
  match fetch body a.frame.ip with
  | .error trap => .error trap a
  | .ok (instruction, next) =>
    match a with
    | ⟨frame, stack, memory⟩ =>
      let frame := { frame with ip := next }
      if frame.state.isSkipping then
        let (flow, frame) := frame.skip stack.size instruction
        .ok flow ⟨frame, stack, memory⟩
      else Activation.execute instruction ⟨frame, stack, memory⟩

/-- Runs one instruction of the running frame. Without a frame nothing happens. -/
def step (functions : Array Function) : MachineM Unit := fun m =>
  match m with
  | ⟨[], _, _, _, _, _⟩ => .ok () m
  | ⟨frame :: callers, depth, liveLocals, stack, memory, steps⟩ =>
    match functions[frame.function]? with
    | none =>
      .error (.unknownFunction frame.function)
        ⟨frame :: callers, depth, liveLocals, stack, memory, steps + 1⟩
    | some f =>
      match advance f.body ⟨frame, stack, memory⟩ with
      | .ok flow ⟨frame, stack, memory⟩ =>
        follow functions flow ⟨frame :: callers, depth, liveLocals, stack, memory, steps + 1⟩
      | .error trap ⟨frame, stack, memory⟩ =>
        .error trap ⟨frame :: callers, depth, liveLocals, stack, memory, steps + 1⟩

/-- The byte at `offset` in the body of a function. -/
def opcodeAt (functions : Array Function) (index offset : Nat) : Option UInt8 :=
  match functions[index]? with
  | some f => f.body[offset]?
  | none => none

/-- Runs one instruction, which stands at `offset` in the function with index `function`, and
reports a trap there. -/
@[noinline] def stepAt (functions : Array Function) (function offset : Nat) :
    EStateM TrapReport Machine Unit := fun m =>
  match step functions m with
  | .ok _ m => .ok () m
  | .error trap m =>
    .error ⟨trap, function, offset, opcodeAt functions function offset, m.depth⟩ m

/-! ## Invocations -/

/-- What has become of an invocation. -/
inductive Progress where
  /-- It is not over. -/
  | running (m : Machine)
  /-- It has ended with these results. -/
  | finished (results : Array Word) (m : Machine)
  | trapped (report : TrapReport) (m : Machine)
  deriving DecidableEq

/-- Takes the results off the operand stack. -/
def drain (m : Machine) : Progress :=
  match m with
  | ⟨frames, depth, liveLocals, stack, memory, steps⟩ =>
    let (results, stack) := stack.drain
    .finished results ⟨frames, depth, liveLocals, stack, memory, steps⟩

/-- Runs at most `fuel` instructions. -/
def run (functions : Array Function) : Nat → Machine → Progress
  | 0, m => .running m
  | fuel + 1, m =>
    match m.frames with
    | [] => m.drain
    | frame :: _ =>
      match stepAt functions frame.function frame.ip m with
      | .ok _ m => run functions fuel m
      | .error report m => .trapped report m

/-- Starts an invocation: whatever an earlier one has left, memory apart, is dropped. -/
def enter (functions : Array Function) (index : Nat) (args : Array Word) : MachineM Unit := fun m =>
  let m := create m.memory
  match functions[index]? with
  | none => .error (.unknownFunction index) m
  | some f =>
    if args.size ≠ f.parameterCount then
      .error (.argumentCount f.parameterCount args.size) m
    else
      match m with
      | ⟨frames, depth, liveLocals, stack, memory, steps⟩ =>
        call functions index ⟨frames, depth, liveLocals, stack.append args, memory, steps⟩

/-- Begins an invocation. -/
def start (functions : Array Function) (index : Nat) (args : Array Word) (m : Machine) : Progress :=
  match enter functions index args m with
  | .ok _ m => .running m
  | .error trap m => .trapped (.atEntry trap index) m

/-- Runs at most `fuel` instructions of an invocation that is not over. -/
def Progress.resume (functions : Array Function) (fuel : Nat) : Progress → Progress
  | running m => m.run functions fuel
  | p => p

/-- Invokes a function and runs at most `fuel` instructions. -/
def invoke (functions : Array Function) (index : Nat) (args : Array Word) (fuel : Nat)
    (m : Machine) : Progress :=
  (m.start functions index args).resume functions fuel

end Machine

namespace Module

/-- The machine that runs the functions of a module. -/
def machine (m : Module) : Machine := Machine.create m.memory

/-- Begins an invocation of the start function. -/
def startMain (m : Module) (args : Array Word) (machine : Machine) : Machine.Progress :=
  match m.start with
  | some index => machine.start m.functions index args
  | none => .trapped (.atEntry .noStartFunction 0) machine

end Module

end WasmI32
