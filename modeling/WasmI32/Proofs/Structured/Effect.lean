import WasmI32.Proofs.OperandStack
import WasmI32.Proofs.Structured.Operands

/-!
# Instructions that transfer no control

Such an instruction reaches only the scope of its activation: the locals, the operand stack and the
memory. Its place in the code, the open constructs and the state of the frame neither matter to it
nor change. It keeps the number of locals and the floor of the stack.
-/

namespace WasmI32

/-- Whether an instruction always goes on with the one behind it. -/
def Instruction.isBasic : Instruction → Bool
  | enter _ _ => false
  | elseMark => false
  | endMark => false
  | br _ => false
  | brIf _ => false
  | ret => false
  | call _ => false
  | _ => true

namespace Activation

open Structured (Scope)

def scope (a : Activation) : Scope :=
  ⟨a.frame.locals, a.stack.values.toList, a.stack.floor, a.memory⟩

def withScope (a : Activation) (s : Scope) : Activation :=
  ⟨{ a.frame with locals := s.locals }, s.stack, s.memory⟩

/-- Runs a computation on the scope of an activation. -/
def onScope {α : Type} (x : EStateM Trap Scope α) : ActivationM α := fun a =>
  match x a.scope with
  | .ok v s => .ok v (a.withScope s)
  | .error trap s => .error trap (a.withScope s)

variable {α β : Type}

theorem onScope_bind (x : EStateM Trap Scope α) (f : α → EStateM Trap Scope β) :
    onScope (x >>= f) = onScope x >>= fun v => onScope (f v) := by
  funext a
  simp only [onScope, bind, EStateM.bind]
  cases x a.scope with
  | ok v s => rfl
  | error trap s => rfl

theorem scope_stack (a : Activation) : a.scope.stack = a.stack := rfl

theorem onScope_onStack (x : StackM α) : onScope (Scope.onStack x) = onStack x := by
  funext a
  simp only [onScope, Scope.onStack, onStack, scope_stack]
  cases x a.stack with
  | ok v stack => rfl
  | error trap stack => rfl

theorem onScope_push (v : Word) : onScope (Scope.push v) = onStack (OperandStack.push v) := by
  rw [← Scope.onStack_push, onScope_onStack]

theorem onScope_pop : onScope Scope.pop = onStack OperandStack.pop := by
  rw [← Scope.onStack_pop, onScope_onStack]

theorem onScope_pop_bind (f : Word → EStateM Trap Scope β) :
    onScope (Scope.pop >>= f) = onStack OperandStack.pop >>= fun v => onScope (f v) := by
  rw [onScope_bind, onScope_pop]

theorem onScope_peek_bind (f : Word → EStateM Trap Scope β) :
    onScope (Scope.peek >>= f) = onStack OperandStack.peek >>= fun v => onScope (f v) := by
  rw [onScope_bind, ← Scope.onStack_peek, onScope_onStack]

theorem onScope_localGet (index : Word) :
    onScope (Scope.effect (.localGet index)) = localGet index := by
  funext a
  simp only [onScope, Scope.effect, localGet, scope]
  cases a.frame.locals[index.toNat]? with
  | some v => exact congrFun (onScope_push v) a
  | none => rfl

theorem onScope_localSet (index : Word) :
    onScope (Scope.effect (.localSet index)) = localSet index := by
  funext a
  by_cases h : a.frame.locals.size ≤ index.toNat
  · simp only [onScope, Scope.effect, localSet, scope, h, if_true]
    rfl
  · simp only [onScope, Scope.effect, localSet, scope, h, if_false]
    exact congrFun (onScope_pop_bind (Scope.setLocal index.toNat)) a

theorem onScope_localTee (index : Word) :
    onScope (Scope.effect (.localTee index)) = localTee index := by
  refine (onScope_peek_bind _).trans
    (congrArg _ (funext fun v => funext fun a => ?_))
  by_cases h : a.frame.locals.size ≤ index.toNat
  · simp only [onScope, scope, h, if_true]
    rfl
  · simp only [onScope, scope, h, if_false]
    rfl

theorem onScope_load (op : LoadOp) (arg : MemArg) :
    onScope (Scope.effect (.load op arg)) = load op arg := by
  refine (onScope_pop_bind _).trans
    (congrArg _ (funext fun address => funext fun a => ?_))
  simp only [onScope, scope]
  cases a.memory.load address arg.offset op.width op.signed with
  | ok v => exact congrFun (onScope_push v) a
  | error cause => rfl

theorem onScope_store (width : Width) (arg : MemArg) :
    onScope (Scope.effect (.store width arg)) = store width arg := by
  refine (onScope_pop_bind _).trans (congrArg _ (funext fun value => ?_))
  refine (onScope_pop_bind _).trans
    (congrArg _ (funext fun address => funext fun a => ?_))
  simp only [onScope, scope, onMemory]
  cases Memory.store address arg.offset width value a.memory with
  | ok v memory => rfl
  | error cause memory => rfl

theorem onScope_memorySize : onScope (Scope.effect .memorySize) = memorySize := by
  funext a
  exact congrFun (onScope_push (BitVec.ofNat 32 a.memory.pages)) a

theorem onScope_memoryGrow : onScope (Scope.effect .memoryGrow) = memoryGrow := by
  refine (onScope_pop_bind _).trans
    (congrArg _ (funext fun delta => funext fun a => ?_))
  simp only [onScope, scope]
  cases Memory.grow delta a.memory with
  | ok pages memory => exact congrFun (onScope_push _) ⟨a.frame, a.stack, memory⟩
  | error cause memory => exact congrFun (onScope_push _) ⟨a.frame, a.stack, memory⟩

/-- An instruction that transfers no control is a computation on the scope. -/
theorem execute_basic {i : Instruction} (hi : i.isBasic = true) :
    execute i = andNext (onScope (Scope.effect i)) := by
  cases i with
  | unreachable => rfl
  | nop => rfl
  | drop => exact congrArg andNext (onScope_pop_bind fun _ => pure ()).symm
  | localGet index => rw [onScope_localGet, execute]
  | localSet index => rw [onScope_localSet, execute]
  | localTee index => rw [onScope_localTee, execute]
  | load op arg => rw [onScope_load, execute]
  | store width arg => rw [onScope_store, execute]
  | memorySize => rw [onScope_memorySize, execute]
  | memoryGrow => rw [onScope_memoryGrow, execute]
  | const value => rw [Scope.effect, onScope_push, execute]
  | unary op => rw [← Scope.onStack_unary, onScope_onStack, execute]
  | compare op => rw [← Scope.onStack_compare, onScope_onStack, execute]
  | binary op => rw [← Scope.onStack_binary, onScope_onStack, execute]
  | enter | elseMark | endMark | br | brIf | ret | call => cases hi

end Activation

/-! ## What such an instruction keeps -/

namespace Structured.Scope

/-- The base of the operands and the number of locals. -/
def shape (s : Scope) : Nat × Nat := (s.base, s.locals.size)

theorem keeps_onStack {α : Type} {x : StackM α} (h : Keeps OperandStack.floor x) :
    Keeps shape (onStack x) := by
  intro s
  have hs := h s.stack
  unfold onStack
  cases hr : x s.stack with
  | ok v stack =>
    rw [hr] at hs
    exact Prod.ext hs rfl
  | error trap stack =>
    rw [hr] at hs
    exact Prod.ext hs rfl

theorem keeps_push (v : Word) : Keeps shape (push v) := fun _ => rfl

theorem keeps_pop : Keeps shape pop := by
  rw [← onStack_pop]
  exact keeps_onStack OperandStack.keeps_pop

theorem keeps_peek : Keeps shape peek := by
  rw [← onStack_peek]
  exact keeps_onStack OperandStack.keeps_peek

theorem keeps_setLocal (index : Nat) (v : Word) : Keeps shape (setLocal index v) := by
  intro s
  exact Prod.ext rfl (by simp [setLocal, stateOf, shape])

theorem keeps_effect (i : Instruction) : Keeps shape (effect i) := by
  cases i with
  | unreachable => exact keeps_throw _
  | drop => exact keeps_bind keeps_pop fun _ => keeps_pure _
  | localGet index =>
    intro s
    simp only [effect]
    cases s.locals[index.toNat]? with
    | some v => exact keeps_push v s
    | none => rfl
  | localSet index =>
    intro s
    simp only [effect]
    split
    · rfl
    · exact keeps_bind keeps_pop (keeps_setLocal index.toNat) s
  | localTee index =>
    refine keeps_bind keeps_peek fun v s => ?_
    split
    · rfl
    · exact keeps_setLocal index.toNat v s
  | load op arg =>
    refine keeps_bind keeps_pop fun address s => ?_
    cases s.memory.load address arg.offset op.width op.signed with
    | ok v => exact keeps_push v s
    | error cause => rfl
  | store width arg =>
    refine keeps_bind keeps_pop fun value => ?_
    refine keeps_bind keeps_pop fun address s => ?_
    cases Memory.store address arg.offset width value s.memory <;> rfl
  | memorySize => exact fun s => keeps_push _ s
  | memoryGrow =>
    refine keeps_bind keeps_pop fun delta s => ?_
    cases Memory.grow delta s.memory <;> rfl
  | const value => exact keeps_push value
  | unary op => exact keeps_bind keeps_pop fun v => keeps_push (op.apply v)
  | compare op =>
    exact keeps_bind keeps_pop fun b => keeps_bind keeps_pop fun a => keeps_push _
  | binary op =>
    refine keeps_bind keeps_pop fun b => keeps_bind keeps_pop fun a => ?_
    cases op.apply a b with
    | ok v => exact keeps_push v
    | error fault => exact keeps_throw _
  | nop | enter | elseMark | endMark | br | brIf | ret | call => exact keeps_pure _

theorem keeps_popMany (n : Nat) : Keeps shape (popMany n) := by
  intro s
  obtain hfail | ⟨vs, rest, -, -, hdone⟩ := popMany_cases n s
  · rw [hfail]
    rfl
  · rw [hdone]
    rfl

theorem keeps_keep (arity height : Nat) : Keeps shape (keep arity height) :=
  keeps_bind (keeps_popMany arity) fun _ _ => rfl

end Structured.Scope

end WasmI32
