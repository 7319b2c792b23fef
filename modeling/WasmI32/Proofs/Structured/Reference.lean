import WasmI32.Activation
import WasmI32.Proofs.Run
import WasmI32.Proofs.Structured.Code

/-!
# A reference interpreter for structured code

The interpreter walks a tree. It knows no place in the code, no open constructs and no skipping: a
branch unwinds the walk by as many constructs as its label says. Its operands are a list, and a call
says itself how many of them are out of reach. Running is bounded by a number, and `none` means that
the bound is too small, never a partial answer.
-/

namespace WasmI32.Structured

/-- What code can reach: the locals of its function, the memory, and the operands of the whole
invocation, the top one last. The lowest `base` of them belong to the callers. -/
structure Scope where
  locals : Array Word
  operands : List Word
  base : Nat
  memory : Memory
  deriving DecidableEq

namespace Scope

def push (v : Word) : EStateM Trap Scope Unit := fun s =>
  .ok () { s with operands := s.operands ++ [v] }

/-- The top operand, unless it belongs to a caller. -/
def peek : EStateM Trap Scope Word := fun s =>
  match (s.operands.drop s.base).getLast? with
  | some v => .ok v s
  | none => .error .stackUnderflow s

/-- Takes the top operand off, unless it belongs to a caller. -/
def pop : EStateM Trap Scope Word := fun s =>
  match (s.operands.drop s.base).getLast? with
  | some v => .ok v { s with operands := s.operands.dropLast }
  | none => .error .stackUnderflow s

/-- Takes the top `n` operands off, unless some of them belong to a caller. -/
def popMany (n : Nat) : EStateM Trap Scope (List Word) := fun s =>
  if s.operands.length < s.base + n then .error .stackUnderflow s
  else
    let rest := s.operands.length - n
    .ok (s.operands.drop rest) { s with operands := s.operands.take rest }

/-- Changes a local, which has to exist. -/
def setLocal (index : Nat) (v : Word) : EStateM Trap Scope Unit := fun s =>
  .ok () { s with locals := s.locals.setIfInBounds index v }

/-- What an instruction does that transfers no control. -/
def effect : Instruction → EStateM Trap Scope Unit
  | .unreachable => throw .unreachable
  | .nop => pure ()
  | .drop => do let _ ← pop
  | .localGet index => fun s =>
    match s.locals[index.toNat]? with
    | some v => push v s
    | none => .error (.localOutOfBounds index.toNat) s
  | .localSet index => fun s =>
    if s.locals.size ≤ index.toNat then .error (.localOutOfBounds index.toNat) s
    else (pop >>= setLocal index.toNat) s
  | .localTee index => do
    let v ← peek
    fun s =>
      if s.locals.size ≤ index.toNat then .error (.localOutOfBounds index.toNat) s
      else setLocal index.toNat v s
  | .load op arg => do
    let address ← pop
    fun s =>
      match s.memory.load address arg.offset op.width op.signed with
      | .ok v => push v s
      | .error cause => .error (.memory cause) s
  | .store width arg => do
    let value ← pop
    let address ← pop
    fun s =>
      match Memory.store address arg.offset width value s.memory with
      | .ok _ memory => .ok () { s with memory }
      | .error cause memory => .error (.memory cause) { s with memory }
  | .memorySize => fun s => push (BitVec.ofNat 32 s.memory.pages) s
  | .memoryGrow => do
    let delta ← pop
    fun s =>
      match Memory.grow delta s.memory with
      | .ok pages memory => push (BitVec.ofNat 32 pages) { s with memory }
      | .error _ memory => push (BitVec.allOnes 32) { s with memory }
  | .const value => push value
  | .unary op => do
    let v ← pop
    push (op.apply v)
  | .compare op => do
    let b ← pop
    let a ← pop
    push (Word.ofBool (op.holds a b))
  | .binary op => do
    let b ← pop
    let a ← pop
    match op.apply a b with
    | .ok v => push v
    | .error fault => throw (.arithmetic fault)
  | .enter _ _ | .elseMark | .endMark | .br _ | .brIf _ | .ret | .call _ => pure ()

/-- The scope with its lowest `height` operands only, and in any case those of the callers. -/
def cut (s : Scope) (height : Nat) : Scope :=
  { s with operands := s.operands.take (max height s.base) }

/-- Keeps the top `arity` operands and cuts the others back to `height`. -/
def keep (arity height : Nat) : EStateM Trap Scope Unit := do
  let results ← popMany arity
  modify fun s => { s with operands := (s.cut height).operands ++ results }

end Scope

/-! ## Leaving code -/

/-- How code is left, if it does not trap. -/
inductive Exit where
  /-- At its end. -/
  | fall
  /-- By a branch that has `label` more constructs to leave; `named` is the label it started
  with. -/
  | branch (label named : Nat)
  | ret
  deriving DecidableEq

/-- What becomes of code: the way it is left, or a trap. -/
abbrev Walk := EStateM.Result Trap Scope Exit

/-- Goes on with `next` if code was left at its end. -/
def andThen (walk : Option Walk) (next : Scope → Option Walk) : Option Walk :=
  match walk with
  | some (.ok .fall s) => next s
  | other => other

/-- A branch that goes on outwards has one construct less to leave. -/
def lower : Walk → Walk
  | .ok (.branch (label + 1) named) s => .ok (.branch label named) s
  | walk => walk

/-- Leaves a `block` or an `if` that was entered at `height`. -/
def leave (type : BlockType) (height : Nat) : Walk → Walk
  | .ok (.branch 0 _) s =>
    match Scope.keep type.arity height s with
    | .ok _ s => .ok .fall s
    | .error trap s => .error trap s
  | walk => lower walk

/-- Runs the body of a `loop` that was entered at `height`, at most a given number of times. -/
def rounds (body : Scope → Option Walk) (height : Nat) : Nat → Scope → Option Walk
  | 0, _ => none
  | k + 1, s =>
    match body s with
    | some (.ok (.branch 0 _) s) => rounds body height k (s.cut height)
    | some walk => some (lower walk)
    | none => none

/-! ## Calls -/

/-- The call stack that an activation has below it, itself included. -/
structure Calls where
  depth : Nat
  /-- The local slots of all its frames. -/
  live : Nat
  deriving DecidableEq

/-- Runs code in an activation. -/
abbrev Runner := Calls → Code → Scope → Option Walk

/-- Ends a function: exactly its results have to lie above `base`. -/
def checkArity (f : Function) (base : Nat) (s : Scope) : EStateM.Result Trap Scope Unit :=
  let actual := s.operands.length - base
  if actual = f.resultCount then .ok () s
  else .error (.arityMismatch f.resultCount actual) s

/-- Ends the function whose body was left like this. A branch to the body is a return that keeps
one operand if the function has a result; a label beyond the body is a trap. -/
def finish (f : Function) (base : Nat) : Walk → EStateM.Result Trap Scope Unit
  | .ok .fall s => checkArity f base s
  | .ok .ret s => checkArity f base s
  | .ok (.branch 0 _) s =>
    match Scope.keep (if f.resultCount = 0 then 0 else 1) base s with
    | .ok _ s => checkArity f base s
    | .error trap s => .error trap s
  | .ok (.branch (_ + 1) named) s => .error (.branchDepth named) s
  | .error trap s => .error trap s

/-- Whether the call stack has no room for a frame of `size` local slots. -/
def Calls.full (calls : Calls) (size : Nat) : Bool :=
  Limits.callDepth ≤ calls.depth || Limits.totalLocals < calls.live + size

/-- The call stack of a call. -/
def Calls.into (calls : Calls) (f : Function) : Calls :=
  ⟨calls.depth + 1, calls.live + f.frameSize⟩

/-- The scope that a function finds: its arguments, its own locals with zero in them, and `below`,
operands that all belong to its callers. -/
def entry (f : Function) (args below : List Word) (memory : Memory) : Scope where
  locals := args.toArray ++ Array.replicate f.localCount 0
  operands := below
  base := below.length
  memory := memory

/-- Calls a function with its arguments from the operands. The caller has its own locals and its
own base when the call is over. -/
def call (program : Array Procedure) (run : Runner) (calls : Calls) (index : Nat) (s : Scope) :
    Option Walk :=
  match program[index]? with
  | none => some (.error (.unknownFunction index) s)
  | some p =>
    if calls.full p.function.frameSize then some (.error .callStackExhausted s)
    else
      match Scope.popMany p.function.parameterCount s with
      | .error trap s => some (.error trap s)
      | .ok args ⟨locals, below, base, memory⟩ =>
        match run (calls.into p.function) p.code (entry p.function args below memory) with
        | none => none
        | some walk =>
          match finish p.function below.length walk with
          | .ok _ after => some (.ok .fall ⟨locals, after.operands, base, after.memory⟩)
          | .error trap after => some (.error trap after)

/-! ## Walking -/

/-- Runs an instruction that stands alone. -/
def instruction (program : Array Procedure) (run : Runner) (calls : Calls) :
    Instruction → Scope → Option Walk
  | .br label, s => some (.ok (.branch label.toNat label.toNat) s)
  | .brIf label, s =>
    match Scope.pop s with
    | .ok condition s =>
      some (.ok (if condition = 0 then .fall else .branch label.toNat label.toNat) s)
    | .error trap s => some (.error trap s)
  | .ret, s => some (.ok .ret s)
  | .call function, s => call program run calls function.toNat s
  | i, s =>
    match Scope.effect i s with
    | .ok _ s => some (.ok .fall s)
    | .error trap s => some (.error trap s)

/-- Pops a condition and runs one of two arms. -/
def choose (type : BlockType) (first second : Scope → Option Walk) (s : Scope) : Option Walk :=
  match Scope.pop s with
  | .ok condition s =>
    (if condition = 0 then second s else first s).map (leave type s.operands.length)
  | .error trap s => some (.error trap s)

/-- Runs the first part of code and then the rest, given how to run smaller parts. -/
def walk (program : Array Procedure) (run : Runner) (bound : Nat) : Runner
  | _, .done, s => some (.ok .fall s)
  | calls, .plain i next, s => andThen (instruction program run calls i.val s) (run calls next)
  | calls, .construct .block type body next, s =>
    andThen ((run calls body s).map (leave type s.operands.length)) (run calls next)
  | calls, .construct .loop _ body next, s =>
    andThen (rounds (run calls body) s.operands.length bound s) (run calls next)
  | calls, .construct .cond type body next, s =>
    andThen (choose type (run calls body) (fun s => some (.ok .fall s)) s) (run calls next)
  | calls, .ifElse type first second next, s =>
    andThen (choose type (run calls first) (run calls second) s) (run calls next)

/-- Runs code, no deeper than a bound. -/
def eval (program : Array Procedure) : Nat → Runner
  | 0 => fun _ _ _ => none
  | bound + 1 => walk program (eval program bound) bound

/-- Invokes a function on a memory. -/
def invoke (program : Array Procedure) (index : Nat) (args : Array Word) (memory : Memory)
    (bound : Nat) : Option Machine.Outcome :=
  match program[index]? with
  | none => some (.trap (.unknownFunction index) memory)
  | some p =>
    if args.size ≠ p.function.parameterCount then
      some (.trap (.argumentCount p.function.parameterCount args.size) memory)
    else
      match call program (eval program bound) ⟨0, 0⟩ index ⟨#[], args.toList, 0, memory⟩ with
      | none => none
      | some (.ok _ s) => some (.results s.operands.toArray s.memory)
      | some (.error trap s) => some (.trap trap s.memory)

end WasmI32.Structured
