import WasmI32.Proofs.Structured.Reference

/-!
# The operands of a scope and the operand stack

The reference interpreter keeps its operands in a list and a number, the machine in a stack with a
floor. What the machine does to its stack is shown to be what the reference does to its operands,
traps included: pushing and popping, taking several operands at once, cutting the stack, and keeping
some operands above the cut.
-/

namespace WasmI32.Structured.Scope

variable {α β : Type} {s : Scope}

/-- The operands as the stack of a machine. -/
def stack (s : Scope) : OperandStack := ⟨s.operands.toArray, s.base⟩

def withStack (s : Scope) (stack : OperandStack) : Scope :=
  { s with operands := stack.values.toList, base := stack.floor }

/-- Runs a computation on the operand stack. -/
def onStack (x : StackM α) : EStateM Trap Scope α := fun s =>
  match x s.stack with
  | .ok v stack => .ok v (s.withStack stack)
  | .error trap stack => .error trap (s.withStack stack)

theorem withStack_stack (s : Scope) : s.withStack s.stack = s := rfl

theorem size_stack (s : Scope) : s.stack.size = s.operands.length := rfl

theorem floor_stack (s : Scope) : s.stack.floor = s.base := rfl

theorem onStack_bind (x : StackM α) (f : α → StackM β) :
    onStack (x >>= f) = onStack x >>= fun v => onStack (f v) := by
  funext s
  cases hx : x s.stack with
  | ok v stack =>
    have hon : onStack x s = .ok v (s.withStack stack) := by rw [onStack, hx]
    rw [bind_of_ok hon, onStack, bind_of_ok hx]
    rfl
  | error trap stack =>
    have hon : onStack x s = .error trap (s.withStack stack) := by rw [onStack, hx]
    rw [bind_of_error hon, onStack, bind_of_error hx]

/-! ## One operand -/

theorem onStack_push (v : Word) : onStack (OperandStack.push v) = push v := by
  funext s
  simp only [onStack, OperandStack.push, push, stack, withStack, List.push_toArray]

/-- The top operand is in reach if and only if the stack is higher than its floor. -/
theorem getLast?_drop_base (s : Scope) :
    (s.operands.drop s.base).getLast? =
      if s.stack.size ≤ s.stack.floor then none else s.stack.values.back? := by
  rw [size_stack, floor_stack, List.getLast?_drop]
  simp only [stack, List.back?_toArray]

theorem onStack_peek : onStack OperandStack.peek = peek := by
  funext s
  simp only [onStack, OperandStack.peek, peek, getLast?_drop_base]
  by_cases h : s.stack.size ≤ s.stack.floor
  · simp only [if_pos h, withStack_stack]
  · simp only [if_neg h]
    cases s.stack.values.back? with
    | some v => rfl
    | none => rfl

theorem onStack_pop : onStack OperandStack.pop = pop := by
  funext s
  simp only [onStack, OperandStack.pop, pop, getLast?_drop_base]
  by_cases h : s.stack.size ≤ s.stack.floor
  · simp only [if_pos h, withStack_stack]
  · simp only [if_neg h]
    cases s.stack.values.back? with
    | some v => simp only [withStack, stack, List.pop_toArray]
    | none => rfl

theorem onStack_unary (op : UnaryOp) : onStack (OperandStack.unary op) = effect (.unary op) := by
  simp only [OperandStack.unary, onStack_bind, onStack_pop, onStack_push, effect]

theorem onStack_compare (op : Comparison) :
    onStack (OperandStack.compare op) = effect (.compare op) := by
  simp only [OperandStack.compare, onStack_bind, onStack_pop, onStack_push, effect]

theorem onStack_binary (op : BinaryOp) :
    onStack (OperandStack.binary op) = effect (.binary op) := by
  simp only [OperandStack.binary, onStack_bind, onStack_pop, effect]
  refine congrArg (pop >>= ·) (funext fun b => congrArg (pop >>= ·) (funext fun a => ?_))
  cases op.apply a b with
  | ok v => exact onStack_push v
  | error fault => rfl

/-! ## Several operands -/

/-- Taking operands off leaves everything else, also where it fails. -/
theorem popMany_cases (n : Nat) (s : Scope) :
    popMany n s = .error .stackUnderflow s ∨
      ∃ vs rest, s.operands = rest ++ vs ∧ vs.length = n ∧
        popMany n s = .ok vs { s with operands := rest } := by
  by_cases h : s.operands.length < s.base + n
  · exact .inl (if_pos h)
  · refine .inr ⟨_, _, (List.take_append_drop _ _).symm, ?_, if_neg h⟩
    rw [List.length_drop]
    omega

theorem popMany_stack (n : Nat) (s : Scope) :
    OperandStack.popMany n s.stack =
      match popMany n s with
      | .ok vs s => .ok vs.toArray s.stack
      | .error trap s => .error trap s.stack := by
  rw [OperandStack.popMany, popMany, size_stack, floor_stack]
  by_cases h : s.operands.length < s.base + n
  · simp only [if_pos h]
  · simp only [if_neg h]
    simp [stack]

theorem onStack_popMany (n : Nat) :
    onStack (OperandStack.popMany n) = popMany n >>= fun vs => pure vs.toArray := by
  funext s
  rw [onStack, popMany_stack]
  obtain hfail | ⟨vs, rest, -, -, hdone⟩ := popMany_cases n s
  · rw [bind_of_error hfail, hfail]
    rfl
  · rw [bind_of_ok hdone, hdone]
    rfl

theorem stack_cut (s : Scope) (height : Nat) : (s.cut height).stack = s.stack.truncate height := by
  simp [cut, stack, OperandStack.truncate]

/-- The machine keeps operands as the reference does: it pops them, cuts and puts them back. -/
theorem keep_eq (arity height : Nat) :
    keep arity height = onStack (OperandStack.popMany arity) >>= fun results =>
      modify fun s => s.withStack ((s.stack.truncate height).append results) := by
  rw [onStack_popMany, bind_assoc]
  refine congrArg (popMany arity >>= ·) (funext fun results => ?_)
  rw [pure_bind]
  refine congrArg modify (funext fun s => ?_)
  rw [← stack_cut]
  simp [withStack, OperandStack.append, stack, cut]

end WasmI32.Structured.Scope
