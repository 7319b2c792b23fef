import WasmI32.Trap

/-!
# The operand stack

All frames share one stack. Its floor is the base of the running frame: operands below the floor
belong to the callers and cannot be popped. Operands that an instruction has popped stay popped
when it traps afterwards.
-/

namespace WasmI32

/-- Operands, with the top one last, and the number of those that are out of reach. -/
structure OperandStack where
  values : Array Word := #[]
  floor : Nat := 0
  deriving DecidableEq, Repr

/-- A computation on the operand stack that keeps the stack when it traps. -/
abbrev StackM := EStateM Trap OperandStack

namespace OperandStack

def size (s : OperandStack) : Nat := s.values.size

def isEmpty (s : OperandStack) : Bool := s.values.isEmpty

/-- The stack with `vs` on it, the last one on top. -/
def append (s : OperandStack) (vs : Array Word) : OperandStack :=
  { s with values := s.values ++ vs }

/-- The stack with another floor, which may lie above its top. -/
def withFloor (s : OperandStack) (floor : Nat) : OperandStack := { s with floor }

/-- The stack cut down to `height` operands, but not below its floor. -/
def truncate (s : OperandStack) (height : Nat) : OperandStack :=
  { s with values := s.values.shrink (max height s.floor) }

/-- All operands, and the stack without them and with its floor at the bottom. -/
def drain (s : OperandStack) : Array Word × OperandStack := (s.values, {})

def push (v : Word) : StackM Unit := fun s => .ok () { s with values := s.values.push v }

/-- The top operand. -/
def peek : StackM Word := fun s =>
  if s.size ≤ s.floor then .error .stackUnderflow s
  else
    match s.values.back? with
    | some v => .ok v s
    | none => .error .stackUnderflow s

def pop : StackM Word := fun s =>
  if s.size ≤ s.floor then .error .stackUnderflow s
  else
    match s.values.back? with
    | some v => .ok v { s with values := s.values.pop }
    | none => .error .stackUnderflow s

/-- Pops `n` operands and answers them with the deepest first. -/
def popMany (n : Nat) : StackM (Array Word) := fun s =>
  if s.size < s.floor + n then .error .stackUnderflow s
  else
    let height := s.size - n
    .ok (s.values.extract height s.size) { s with values := s.values.shrink height }

end OperandStack

end WasmI32
