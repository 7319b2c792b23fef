import WasmI32.Proofs.Structured.Effect

/-!
# Operands below

The same code can run on an operand stack that has more operands at its bottom, with the floor as
much higher. No computation on the stack can tell the difference: it answers the same, and leaves
the operands below as they are. Hence whatever lies below the floor of a stack stays there.
-/

namespace WasmI32

/-! ## Computations that commute with a change of state -/

section Commutes

variable {ε σ α β : Type} {g : σ → σ}

/-- The result with what `g` makes of the state. -/
def mapState (g : σ → σ) : EStateM.Result ε σ α → EStateM.Result ε σ α
  | .ok a s => .ok a (g s)
  | .error e s => .error e (g s)

/-- On what `g` makes of a state, a computation does the same as on the state itself. -/
def Commutes (g : σ → σ) (x : EStateM ε σ α) : Prop := ∀ s, x (g s) = mapState g (x s)

theorem commutes_pure (a : α) : Commutes g (pure a : EStateM ε σ α) := fun _ => rfl

theorem commutes_throw (e : ε) : Commutes g (throw e : EStateM ε σ α) := fun _ => rfl

theorem commutes_bind {x : EStateM ε σ α} {f : α → EStateM ε σ β} (hx : Commutes g x)
    (hf : ∀ a, Commutes g (f a)) : Commutes g (x >>= f) := by
  intro s
  have h := hx s
  cases hr : x s with
  | ok a s₁ =>
    rw [hr] at h
    rw [bind_of_ok hr, bind_of_ok h]
    exact hf a s₁
  | error e s₁ =>
    rw [hr] at h
    rw [bind_of_error hr, bind_of_error h]
    rfl

theorem stateOf_mapState (r : EStateM.Result ε σ α) : stateOf (mapState g r) = g (stateOf r) := by
  cases r <;> rfl

end Commutes

/-! ## The operand stack -/

namespace OperandStack

/-- The stack with the operands `below` under its own. -/
def raise (below : Array Word) (s : OperandStack) : OperandStack :=
  ⟨below ++ s.values, below.size + s.floor⟩

variable {below : Array Word}

@[simp] theorem size_raise (s : OperandStack) : (s.raise below).size = below.size + s.size :=
  Array.size_append

theorem raise_size_le_floor_iff (s : OperandStack) :
    (s.raise below).size ≤ (s.raise below).floor ↔ s.size ≤ s.floor := by
  rw [size_raise]
  exact Nat.add_le_add_iff_left

/-- Above its floor a stack has operands of its own, and the last one is on top. -/
theorem exists_back (below : Array Word) (s : OperandStack) (h : ¬ s.size ≤ s.floor) :
    ∃ v, s.values.back? = some v ∧ (below ++ s.values).back? = some v ∧
      (below ++ s.values).pop = below ++ s.values.pop := by
  have hpos : 0 < s.values.size := by
    have hsize : s.size = s.values.size := rfl
    omega
  have hback : s.values.back? = some (s.values.back hpos) := by
    rw [Array.back?_eq_getElem?, Array.back, Array.getElem?_eq_getElem]
  refine ⟨s.values.back hpos, hback, ?_, ?_⟩
  · rw [Array.back?_append, hback, Option.some_or]
  · have hne : ¬ s.values.isEmpty = true := by
      rw [Array.isEmpty_iff_size_eq_zero]
      omega
    rw [Array.pop_append, if_neg hne]

theorem commutes_push (v : Word) : Commutes (raise below) (push v) := by
  intro s
  simp only [push, raise, mapState, Array.append_push]

theorem commutes_pop : Commutes (raise below) pop := by
  intro s
  by_cases h : s.size ≤ s.floor
  · rw [pop, pop, if_pos h, if_pos ((raise_size_le_floor_iff s).mpr h)]
    rfl
  · obtain ⟨v, hv, hvr, hpop⟩ := exists_back below s h
    rw [pop, pop, if_neg h, if_neg (mt (raise_size_le_floor_iff s).mp h)]
    simp only [raise, hv, hvr, hpop, mapState]

theorem commutes_peek : Commutes (raise below) peek := by
  intro s
  by_cases h : s.size ≤ s.floor
  · rw [peek, peek, if_pos h, if_pos ((raise_size_le_floor_iff s).mpr h)]
    rfl
  · obtain ⟨v, hv, hvr, -⟩ := exists_back below s h
    rw [peek, peek, if_neg h, if_neg (mt (raise_size_le_floor_iff s).mp h)]
    simp only [raise, hv, hvr, mapState]

theorem shrink_append (vs : Array Word) (k : Nat) :
    (below ++ vs).shrink (below.size + k) = below ++ vs.shrink k := by
  have hle : below.size ≤ below.size + k := Nat.le_add_right _ _
  simp [Array.extract_eq_self_of_le hle]

theorem commutes_popMany (n : Nat) : Commutes (raise below) (popMany n) := by
  intro s
  have hsize : (s.raise below).size = below.size + s.size := size_raise s
  have hfloor : (s.raise below).floor = below.size + s.floor := rfl
  unfold popMany
  by_cases h : s.size < s.floor + n
  · have hr : (s.raise below).size < (s.raise below).floor + n := by omega
    rw [if_pos h, if_pos hr]
    rfl
  · have hr : ¬ (s.raise below).size < (s.raise below).floor + n := by omega
    have hheight : (s.raise below).size - n = below.size + (s.size - n) := by omega
    rw [if_neg h, if_neg hr, hheight, hsize]
    simp only [raise, mapState, shrink_append]
    simp [Array.extract_append]

theorem raise_truncate (below : Array Word) (s : OperandStack) (height : Nat) :
    (s.raise below).truncate (below.size + height) = (s.truncate height).raise below := by
  simp only [truncate, raise, Nat.add_max_add_left, shrink_append]

theorem raise_append (s : OperandStack) (vs : Array Word) :
    (s.raise below).append vs = (s.append vs).raise below := by
  simp only [append, raise, Array.append_assoc]

/-! ### What lies below the floor -/

variable {s : OperandStack}

/-- A stack is what it has above its floor, raised by what it has below. -/
theorem eq_raise (h : s.floor ≤ s.size) :
    s = raise (s.values.take s.floor) ⟨s.values.drop s.floor, 0⟩ := by
  obtain ⟨values, floor⟩ := s
  have hsize : floor ≤ values.size := h
  simp only [raise, mk.injEq]
  constructor
  · simp [Nat.max_eq_right hsize]
  · simp [hsize]

/-- Operands put under a stack without a floor lie below the floor. -/
theorem sameBelow_raise (s t : OperandStack) (h₀ : s.floor = 0) (ht : t.floor = 0) :
    SameBelow (s.raise below) (t.raise below) := by
  refine ⟨?_, ?_, ?_⟩
  · simp only [raise, h₀, ht]
  · rw [size_raise]
    simp only [raise, ht]
    omega
  · simp [raise, h₀]

end OperandStack

/-! ## Instructions that transfer no control -/

namespace Structured.Scope

/-- The scope with the operands `below` under its own. -/
def raise (below : Array Word) (s : Scope) : Scope :=
  { s with operands := below.toList ++ s.operands, base := below.size + s.base }

variable {below : Array Word}

theorem stack_raise (s : Scope) : (s.raise below).stack = s.stack.raise below := by
  simp [raise, stack, OperandStack.raise]

theorem withStack_raise (s : Scope) (stack : OperandStack) :
    (s.raise below).withStack (stack.raise below) = (s.withStack stack).raise below := by
  simp [raise, withStack, OperandStack.raise]

theorem commutes_onStack {α : Type} {x : StackM α} (h : Commutes (OperandStack.raise below) x) :
    Commutes (raise below) (onStack x) := by
  intro s
  have hs := h s.stack
  simp only [onStack, stack_raise, hs]
  cases x s.stack with
  | ok v stack => exact congrArg (EStateM.Result.ok v) (withStack_raise s stack)
  | error trap stack => exact congrArg (EStateM.Result.error trap) (withStack_raise s stack)

theorem commutes_push (v : Word) : Commutes (raise below) (push v) := by
  rw [← onStack_push]
  exact commutes_onStack (OperandStack.commutes_push v)

theorem commutes_pop : Commutes (raise below) pop := by
  rw [← onStack_pop]
  exact commutes_onStack OperandStack.commutes_pop

theorem commutes_peek : Commutes (raise below) peek := by
  rw [← onStack_peek]
  exact commutes_onStack OperandStack.commutes_peek

theorem commutes_effect (i : Instruction) : Commutes (raise below) (effect i) := by
  cases i with
  | unreachable => exact commutes_throw _
  | drop => exact commutes_bind commutes_pop fun _ => commutes_pure _
  | localGet index =>
    intro s
    simp only [effect, raise]
    cases s.locals[index.toNat]? with
    | some v => exact commutes_push v s
    | none => rfl
  | localSet index =>
    have hset (v : Word) : Commutes (raise below) (setLocal index.toNat v) := fun _ => rfl
    intro s
    have hlocals : (s.raise below).locals = s.locals := rfl
    simp only [effect, hlocals]
    by_cases h : s.locals.size ≤ index.toNat
    · rw [if_pos h, if_pos h]
      rfl
    · rw [if_neg h, if_neg h]
      exact commutes_bind commutes_pop hset s
  | localTee index =>
    refine commutes_bind commutes_peek fun v s => ?_
    have hlocals : (s.raise below).locals = s.locals := rfl
    simp only [hlocals]
    by_cases h : s.locals.size ≤ index.toNat
    · rw [if_pos h, if_pos h]
      rfl
    · rw [if_neg h, if_neg h]
      rfl
  | load op arg =>
    refine commutes_bind commutes_pop fun address s => ?_
    simp only [raise]
    cases s.memory.load address arg.offset op.width op.signed with
    | ok v => exact commutes_push v s
    | error cause => rfl
  | store width arg =>
    refine commutes_bind commutes_pop fun value => commutes_bind commutes_pop fun address s => ?_
    simp only [raise]
    cases Memory.store address arg.offset width value s.memory <;> rfl
  | memorySize => exact fun s => commutes_push _ s
  | memoryGrow =>
    refine commutes_bind commutes_pop fun delta s => ?_
    simp only [raise]
    cases Memory.grow delta s.memory with
    | ok pages memory =>
      exact commutes_push _ { s with memory }
    | error cause memory =>
      exact commutes_push _ { s with memory }
  | const value => exact commutes_push value
  | unary op => exact commutes_bind commutes_pop fun v => commutes_push (op.apply v)
  | compare op =>
    exact commutes_bind commutes_pop fun b => commutes_bind commutes_pop fun a => commutes_push _
  | binary op =>
    refine commutes_bind commutes_pop fun b => commutes_bind commutes_pop fun a => ?_
    cases op.apply a b with
    | ok v => exact commutes_push v
    | error fault => exact commutes_throw _
  | nop | enter | elseMark | endMark | br | brIf | ret | call => exact commutes_pure _

/-- A scope is what it has above its base, raised by what it has below. -/
theorem exists_eq_raise {s : Scope} (h : s.stack.floor ≤ s.stack.size) :
    ∃ s₀ below, s₀.base = 0 ∧ s = raise below s₀ := by
  refine ⟨s.withStack ⟨s.stack.values.drop s.stack.floor, 0⟩, s.stack.values.take s.stack.floor,
    rfl, ?_⟩
  rw [← withStack_raise, ← OperandStack.eq_raise h]
  rfl

/-- What a computation cannot tell from other operands below, it leaves alone. -/
theorem sameBelow_of_commutes {α : Type} {x : EStateM Trap Scope α}
    (hc : ∀ below, Commutes (raise below) x) (hk : Keeps shape x) {s : Scope}
    (h : s.stack.floor ≤ s.stack.size) : s.stack.SameBelow (stateOf (x s)).stack := by
  obtain ⟨s₀, below, h₀, rfl⟩ := exists_eq_raise h
  have hbase : (stateOf (x s₀)).base = 0 := (congrArg Prod.fst (hk s₀)).trans h₀
  rw [hc below s₀, stateOf_mapState, stack_raise, stack_raise]
  exact OperandStack.sameBelow_raise _ _ h₀ hbase

theorem sameBelow_effect (i : Instruction) {s : Scope} (h : s.stack.floor ≤ s.stack.size) :
    s.stack.SameBelow (stateOf (effect i s)).stack :=
  sameBelow_of_commutes (fun _ => commutes_effect i) (keeps_effect i) h

end Structured.Scope

end WasmI32
