import Mathlib
import WasmI32.OperandStack

/-!
# What stack operations leave

Popping succeeds exactly above the floor, and a pop that fails leaves the stack as it was. The floor
and what lies below it are out of reach: no operation changes them, whatever comes of it.
-/

namespace WasmI32

/-! ## What computations leave -/

/-- The state that a computation leaves, also when it fails. -/
def stateOf {ε σ α : Type} : EStateM.Result ε σ α → σ
  | .ok _ s => s
  | .error _ s => s

/-- A computation leaves what `f` sees of the state as it was. -/
def Keeps {ε σ α γ : Type} (f : σ → γ) (x : EStateM ε σ α) : Prop := ∀ s, f (stateOf (x s)) = f s

section Keeps

variable {ε σ α β γ : Type} {f : σ → γ}

theorem keeps_pure (a : α) : Keeps f (pure a : EStateM ε σ α) := fun _ => rfl

theorem keeps_throw (e : ε) : Keeps f (throw e : EStateM ε σ α) := fun _ => rfl

theorem keeps_bind {x : EStateM ε σ α} {g : α → EStateM ε σ β} (hx : Keeps f x)
    (hg : ∀ a, Keeps f (g a)) : Keeps f (x >>= g) := by
  intro s
  have h := hx s
  change f (stateOf (EStateM.bind x g s)) = f s
  unfold EStateM.bind
  cases hr : x s with
  | ok a s₁ =>
    rw [hr] at h
    exact (hg a s₁).trans h
  | error e s₁ =>
    rw [hr] at h
    exact h

end Keeps

namespace OperandStack

variable {s s₁ s₂ : OperandStack} {trap : Trap} {n : Nat}

/-! ## Popping -/

theorem pop_eq_ok {v : Word} (h : pop s = .ok v s₁) :
    s.values = s₁.values.push v ∧ s₁.floor = s.floor ∧ s.floor ≤ s₁.size := by
  unfold pop at h
  split at h
  · cases h
  · rename_i hsize
    split at h
    · rename_i v₁ hback
      cases h
      obtain ⟨values, hvalues⟩ := Array.back?_eq_some_iff.mp hback
      simp only [size, hvalues, Array.size_push] at hsize
      simp only [size, hvalues, Array.pop_push, true_and]
      omega
    · cases h

theorem pop_eq_error (h : pop s = .error trap s₁) :
    s.size ≤ s.floor ∧ trap = .stackUnderflow ∧ s₁ = s := by
  unfold pop at h
  split at h
  · rename_i hsize
    cases h
    exact ⟨hsize, rfl, rfl⟩
  · rename_i hsize
    split at h
    · cases h
    · -- a stack that is higher than its floor has a top
      rename_i hback
      have hempty : s.values.size = 0 := by
        rw [Array.back?_eq_none_iff.mp hback]
        rfl
      exact absurd (hempty.trans_le (Nat.zero_le _)) hsize

theorem pop_push {values : Array Word} {floor : Nat} (v : Word) (h : floor ≤ values.size) :
    pop ⟨values.push v, floor⟩ = .ok v ⟨values, floor⟩ := by
  have hsize : ¬ (⟨values.push v, floor⟩ : OperandStack).size ≤ floor := by
    simp only [size, Array.size_push]
    omega
  rw [pop, if_neg hsize]
  simp

theorem popMany_eq_ok {vs : Array Word} (h : popMany n s = .ok vs s₁) :
    s.values = s₁.values ++ vs ∧ vs.size = n ∧ s₁.floor = s.floor ∧ s.floor ≤ s₁.size := by
  unfold popMany at h
  split at h
  · cases h
  · rename_i hn
    cases h
    simp only [size] at hn
    refine ⟨?_, ?_, rfl, ?_⟩
    · simp only [size, Array.shrink_eq_take, Array.take_eq_extract, Array.extract_append_extract]
      simp
    · simp only [size, Array.size_extract]
      omega
    · simp only [size, Array.size_shrink]
      omega

theorem popMany_eq_error (h : popMany n s = .error trap s₁) :
    s.size < s.floor + n ∧ trap = .stackUnderflow ∧ s₁ = s := by
  unfold popMany at h
  split at h
  · rename_i hlt
    cases h
    exact ⟨hlt, rfl, rfl⟩
  · cases h

theorem keeps_pop : Keeps floor pop := by
  intro s
  cases h : pop s with
  | ok v s₁ => exact (pop_eq_ok h).2.1
  | error trap s₁ =>
    obtain ⟨-, -, rfl⟩ := pop_eq_error h
    rfl

theorem keeps_peek : Keeps floor peek := by
  intro s
  unfold peek
  split
  · rfl
  · cases s.values.back? <;> rfl

/-- The second stack has the floor of the first one, and the same operands below it. -/
structure SameBelow (s s₁ : OperandStack) : Prop where
  floor_eq : s₁.floor = s.floor
  floor_le : s₁.floor ≤ s₁.size
  below_eq : s₁.values.take s.floor = s.values.take s.floor

theorem SameBelow.refl (h : s.floor ≤ s.size) : SameBelow s s := ⟨rfl, h, rfl⟩

theorem SameBelow.trans (h₁ : SameBelow s s₁) (h₂ : SameBelow s₁ s₂) : SameBelow s s₂ := by
  refine ⟨h₂.floor_eq.trans h₁.floor_eq, h₂.floor_le, ?_⟩
  rw [← h₁.below_eq, ← h₁.floor_eq]
  exact h₂.below_eq

theorem sameBelow_truncate (h : s.floor ≤ s.size) (height : Nat) :
    SameBelow s (s.truncate height) := by
  obtain ⟨values, floor⟩ := s
  have hsize : floor ≤ values.size := h
  refine ⟨rfl, ?_, ?_⟩
  · simp only [truncate, size, Array.size_shrink]
    omega
  · simp [truncate]

theorem sameBelow_append (h : s.floor ≤ s.size) (vs : Array Word) : SameBelow s (s.append vs) := by
  obtain ⟨values, floor⟩ := s
  have hsize : floor ≤ values.size := h
  refine ⟨rfl, ?_, ?_⟩
  · simp only [append, size, Array.size_append]
    omega
  · simp [append, Nat.sub_eq_zero_of_le hsize]

/-- A stack without some of its operands, all of them above the floor. -/
theorem sameBelow_of_append {vs : Array Word} (hv : s.values = s₁.values ++ vs)
    (hf : s₁.floor = s.floor) (hle : s.floor ≤ s₁.size) : SameBelow s s₁ := by
  refine ⟨hf, hf ▸ hle, ?_⟩
  have hsize : s.floor ≤ s₁.values.size := hle
  simp [hv, Nat.sub_eq_zero_of_le hsize]

theorem sameBelow_of_pop {v : Word} (h : pop s = .ok v s₁) : SameBelow s s₁ := by
  obtain ⟨hvalues, hfloor, hle⟩ := pop_eq_ok h
  have happend : s.values = s₁.values ++ #[v] := by simpa using hvalues
  exact sameBelow_of_append happend hfloor hle

theorem sameBelow_of_popMany {vs : Array Word} (h : popMany n s = .ok vs s₁) :
    SameBelow s s₁ := by
  obtain ⟨hvalues, -, hfloor, hle⟩ := popMany_eq_ok h
  exact sameBelow_of_append hvalues hfloor hle

/-- Operands that are kept above a cut. -/
theorem sameBelow_of_keep {vs : Array Word} (h : popMany n s = .ok vs s₁) (height : Nat) :
    SameBelow s ((s₁.truncate height).append vs) := by
  have hpop := sameBelow_of_popMany h
  have hcut := sameBelow_truncate hpop.floor_le height
  exact (hpop.trans hcut).trans (sameBelow_append hcut.floor_le vs)

end OperandStack

end WasmI32
