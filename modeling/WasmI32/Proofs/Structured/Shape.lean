import WasmI32.Proofs.Structured.Effect

/-!
# The shape of a scope

Whatever way code is left, the base of the operands and the number of locals are as they were when
it was entered. A call gives the caller its own base back, so that what the callee does to the
operands does not matter here. Nothing is said of a scope that a trap leaves.
-/

namespace WasmI32.Structured

variable {s s₁ : Scope}

/-- Code that is left, if it is, leaves the base and the number of locals as it found them. -/
def Shaped (s : Scope) : Option Walk → Prop
  | some (.ok _ s₁) => s₁.shape = s.shape
  | some (.error _ _) => True
  | none => True

variable {program : Array Procedure} {run : Runner} {w : Walk}

theorem Shaped.congr {walk : Option Walk} (h : Shaped s₁ walk) (hs : s₁.shape = s.shape) :
    Shaped s walk := by
  match walk with
  | none => trivial
  | some (.error _ _) => trivial
  | some (.ok _ _) => exact Eq.trans h hs

theorem shaped_andThen {first : Option Walk} {next : Scope → Option Walk} (h : Shaped s first)
    (hn : ∀ s, Shaped s (next s)) : Shaped s (andThen first next) := by
  match first with
  | none => exact h
  | some (.error _ _) => exact h
  | some (.ok .ret s₁) => exact h
  | some (.ok (.branch label named) s₁) => exact h
  | some (.ok .fall s₁) => exact (hn s₁).congr h

theorem shaped_fall (s : Scope) : Shaped s (some (.ok .fall s)) := rfl

theorem shaped_lower (h : Shaped s (some w)) : Shaped s (some (lower w)) := by
  match w with
  | .error _ _ => exact h
  | .ok .fall _ => exact h
  | .ok .ret _ => exact h
  | .ok (.branch 0 _) _ => exact h
  | .ok (.branch (label + 1) _) _ => exact h

theorem shape_keep {arity height : Nat} (h : Scope.keep arity height s = .ok () s₁) :
    s₁.shape = s.shape := by
  have hk := Scope.keeps_keep arity height s
  rwa [h] at hk

theorem shaped_leave (type : BlockType) (height : Nat) (h : Shaped s (some w)) :
    Shaped s (some (leave type height w)) := by
  match w with
  | .error _ _ => exact h
  | .ok .fall _ => exact h
  | .ok .ret _ => exact h
  | .ok (.branch (label + 1) _) _ => exact h
  | .ok (.branch 0 _) s₁ =>
    cases hr : Scope.keep type.arity height s₁ with
    | error trap s₂ =>
      simp only [leave, hr]
      trivial
    | ok u s₂ =>
      simp only [leave, hr]
      exact (shape_keep hr).trans h

theorem shaped_map_leave {walk : Option Walk} (type : BlockType) (height : Nat)
    (h : Shaped s walk) : Shaped s (walk.map (leave type height)) := by
  cases walk with
  | none => trivial
  | some w => exact shaped_leave type height h

theorem shaped_rounds {body : Scope → Option Walk} (hb : ∀ s, Shaped s (body s)) (height k : Nat) :
    ∀ s, Shaped s (rounds body height k s) := by
  induction k with
  | zero => exact fun _ => trivial
  | succ k ih =>
    intro s
    have hs := hb s
    unfold rounds
    split
    · rename_i named s₁ hr
      rw [hr] at hs
      exact (ih (s₁.cut height)).congr hs
    · rename_i w _ hr
      rw [hr] at hs
      exact shaped_lower hs
    · trivial

theorem shape_of_pop {v : Word} (h : Scope.pop s = .ok v s₁) : s₁.shape = s.shape := by
  have hk := Scope.keeps_pop s
  rwa [h] at hk

theorem shaped_choose {type : BlockType} {first second : Scope → Option Walk}
    (h₁ : ∀ s, Shaped s (first s)) (h₂ : ∀ s, Shaped s (second s)) (s : Scope) :
    Shaped s (choose type first second s) := by
  unfold choose
  cases hp : Scope.pop s with
  | error trap s₁ => trivial
  | ok condition s₁ =>
    have hs := shape_of_pop hp
    have hw : Shaped s₁ (if condition = 0 then second s₁ else first s₁) := by
      split
      · exact h₂ s₁
      · exact h₁ s₁
    exact (shaped_map_leave type s₁.operands.length hw).congr hs

theorem shaped_call (calls : Calls) (index : Nat) (s : Scope) :
    Shaped s (call program run calls index s) := by
  unfold call
  cases program[index]? with
  | none => trivial
  | some p =>
    simp only
    split
    · trivial
    · obtain hfail | ⟨args, below, -, -, hdone⟩ :=
        Scope.popMany_cases p.function.parameterCount s
      · rw [hfail]
        trivial
      · rw [hdone]
        simp only
        split
        · trivial
        · rename_i walk _
          cases finish p.function below.length walk with
          | error trap after => trivial
          | ok u after => rfl

theorem instruction_basic {i : Instruction} (calls : Calls) (hi : i.isBasic = true) (s : Scope) :
    instruction program run calls i s =
      match Scope.effect i s with
      | .ok _ s => some (.ok .fall s)
      | .error trap s => some (.error trap s) := by
  cases i with
  | enter | elseMark | endMark | br | brIf | ret | call => cases hi
  | _ => rfl

theorem instruction_brIf (calls : Calls) (label : Word) (s : Scope) :
    instruction program run calls (.brIf label) s =
      match Scope.pop s with
      | .ok condition s =>
        some (.ok (if condition = 0 then .fall else .branch label.toNat label.toNat) s)
      | .error trap s => some (.error trap s) := rfl

theorem shaped_effect {i : Instruction} (calls : Calls) (hi : i.isBasic = true) (s : Scope) :
    Shaped s (instruction program run calls i s) := by
  have hk := Scope.keeps_effect i s
  rw [instruction_basic calls hi]
  cases hr : Scope.effect i s with
  | error trap s₁ => trivial
  | ok u s₁ =>
    rw [hr] at hk
    exact hk

theorem shaped_instruction (calls : Calls) (i : Plain) (s : Scope) :
    Shaped s (instruction program run calls i.val s) := by
  obtain ⟨i, hi⟩ := i
  cases i with
  | enter | elseMark | endMark => cases hi
  | br label => rfl
  | ret => rfl
  | call function => exact shaped_call calls function.toNat s
  | brIf label =>
    rw [instruction_brIf]
    cases hp : Scope.pop s with
    | error trap s₁ => trivial
    | ok condition s₁ => exact shape_of_pop hp
  | _ => exact shaped_effect calls rfl s

theorem shaped_walk (hrun : ∀ calls c s, Shaped s (run calls c s)) (bound : Nat) (calls : Calls)
    (c : Code) (s : Scope) : Shaped s (walk program run bound calls c s) := by
  match c with
  | .done => exact shaped_fall s
  | .plain i next => exact shaped_andThen (shaped_instruction calls i s) (hrun calls next)
  | .construct .block type body next =>
    exact shaped_andThen (shaped_map_leave type _ (hrun calls body s)) (hrun calls next)
  | .construct .loop _ body next =>
    exact shaped_andThen (shaped_rounds (hrun calls body) _ bound s) (hrun calls next)
  | .construct .cond type body next =>
    exact shaped_andThen (shaped_choose (hrun calls body) shaped_fall s) (hrun calls next)
  | .ifElse type first second next =>
    exact shaped_andThen (shaped_choose (hrun calls first) (hrun calls second) s) (hrun calls next)

theorem eq_of_checkArity {f : Function} {base : Nat} (h : checkArity f base s = .ok () s₁) :
    s₁ = s := by
  simp only [checkArity] at h
  split at h
  · cases h
    rfl
  · cases h

theorem shape_finish {f : Function} {base : Nat} (h : finish f base w = .ok () s₁)
    (hw : Shaped s (some w)) : s₁.shape = s.shape := by
  match w with
  | .ok .fall s₂ =>
    rw [eq_of_checkArity h]
    exact hw
  | .ok .ret s₂ =>
    rw [eq_of_checkArity h]
    exact hw
  | .ok (.branch 0 named) s₂ =>
    unfold finish at h
    cases hr : Scope.keep (if f.resultCount = 0 then 0 else 1) base s₂ with
    | error trap s₃ =>
      simp only [hr] at h
      cases h
    | ok u s₃ =>
      simp only [hr] at h
      rw [eq_of_checkArity h]
      exact (shape_keep hr).trans hw
  | .ok (.branch (label + 1) named) s₂ => cases h
  | .error trap s₂ => cases h

end WasmI32.Structured
