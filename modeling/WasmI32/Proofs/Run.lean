import Mathlib
import WasmI32.Machine

/-!
# Runs of the machine

`Machine.Steps` is a run without a trap, of a given number of steps. A bounded run that is not over
is such a run, and one that is over stays so with a larger bound: an invocation has at most one
outcome. Nothing here says that an invocation ends.
-/

namespace WasmI32.Machine

variable {functions : Array Function}

/-- The machine takes `n` steps, each of a live frame and without a trap. -/
inductive Steps (functions : Array Function) : Nat → Machine → Machine → Prop
  | refl (m : Machine) : Steps functions 0 m m
  | head {n : Nat} {m m₁ m' : Machine} (hf : m.frames ≠ []) (hs : step functions m = .ok () m₁)
    (h : Steps functions n m₁ m') : Steps functions (n + 1) m m'

theorem Steps.single {m m' : Machine} (hf : m.frames ≠ []) (hs : step functions m = .ok () m') :
    Steps functions 1 m m' :=
  .head hf hs (.refl m')

theorem Steps.trans {a b : Nat} {m m₁ m' : Machine} (h₁ : Steps functions a m m₁)
    (h₂ : Steps functions b m₁ m') : Steps functions (a + b) m m' := by
  induction h₁ with
  | refl m => rwa [Nat.zero_add]
  | head hf hs _ ih =>
    rw [Nat.add_right_comm]
    exact .head hf hs (ih h₂)

/-- A run has an initial part of every smaller length. -/
theorem Steps.initial {a n : Nat} {m m' : Machine} (h : Steps functions n m m') (ha : a ≤ n) :
    ∃ m₁, Steps functions a m m₁ := by
  induction h generalizing a with
  | refl m =>
    obtain rfl : a = 0 := by omega
    exact ⟨m, .refl m⟩
  | @head n m m₁ m' hf hs _ ih =>
    cases a with
    | zero => exact ⟨m, .refl m⟩
    | succ a =>
      obtain ⟨m₂, h₂⟩ := ih (a := a) (by omega)
      exact ⟨m₂, .head hf hs h₂⟩

/-- What one step preserves, a run preserves. -/
theorem Steps.preserves {P : Machine → Prop}
    (hstep : ∀ {m m'}, m.frames ≠ [] → step functions m = .ok () m' → P m → P m')
    {n : Nat} {m m' : Machine} (h : Steps functions n m m') (hp : P m) : P m' := by
  induction h with
  | refl => exact hp
  | head hf hs _ ih => exact ih (hstep hf hs hp)

/-- The machine takes `n` steps, each of a frame above the lowest `level` ones and without a
trap. -/
inductive StepsAbove (functions : Array Function) (level : Nat) : Nat → Machine → Machine → Prop
  | refl (m : Machine) : StepsAbove functions level 0 m m
  | head {n : Nat} {m m₁ m' : Machine} (hl : level < m.frames.length)
    (hs : step functions m = .ok () m₁) (h : StepsAbove functions level n m₁ m') :
    StepsAbove functions level (n + 1) m m'

theorem Steps.above {n : Nat} {m m' : Machine} (h : Steps functions n m m') :
    StepsAbove functions 0 n m m' := by
  induction h with
  | refl m => exact .refl m
  | head hf hs _ ih => exact .head (List.length_pos_iff.mpr hf) hs ih

/-! ## Bounded runs -/

theorem run_of_frames_nil {m : Machine} (h : m.frames = []) (k : Nat) :
    run functions (k + 1) m = m.drain := by
  rw [run, h]

theorem run_of_step_ok {m m' : Machine} (hf : m.frames ≠ []) (hs : step functions m = .ok () m')
    (k : Nat) : run functions (k + 1) m = run functions k m' := by
  obtain ⟨frame, callers, hfr⟩ := List.exists_cons_of_ne_nil hf
  simp only [run, hfr, stepAt, hs]

theorem run_of_step_error {m m' : Machine} {trap : Trap} (hf : m.frames ≠ [])
    (hs : step functions m = .error trap m') (k : Nat) :
    ∃ report, report.trap = trap ∧ run functions (k + 1) m = .trapped report m' := by
  obtain ⟨frame, callers, hfr⟩ := List.exists_cons_of_ne_nil hf
  simp only [run, hfr, stepAt, hs]
  exact ⟨_, rfl, rfl⟩

theorem stepAt_eq_error {m m' : Machine} {function offset : Nat} {report : TrapReport}
    (h : stepAt functions function offset m = .error report m') :
    ∃ trap, step functions m = .error trap m' ∧
      report = ⟨trap, function, offset, opcodeAt functions function offset, m'.depth⟩ := by
  unfold stepAt at h
  cases hs : step functions m with
  | ok u m₁ =>
    simp only [hs] at h
    cases h
  | error trap m₁ =>
    simp only [hs] at h
    cases h
    exact ⟨trap, rfl, rfl⟩

theorem run_add_of_steps {n : Nat} {m m' : Machine} (h : Steps functions n m m') (k : Nat) :
    run functions (n + k) m = run functions k m' := by
  induction h with
  | refl m => rw [Nat.zero_add]
  | head hf hs _ ih => rw [Nat.add_right_comm, run_of_step_ok hf hs, ih]

/-- A bounded run that is not over has taken all its steps. -/
theorem run_eq_running_iff {n : Nat} {m m' : Machine} :
    run functions n m = .running m' ↔ Steps functions n m m' := by
  constructor
  · intro h
    induction n generalizing m with
    | zero =>
      rw [run, Progress.running.injEq] at h
      exact h ▸ .refl m
    | succ n ih =>
      by_cases hf : m.frames = []
      · rw [run_of_frames_nil hf] at h
        simp [drain] at h
      · cases hs : step functions m with
        | ok u m₁ =>
          rw [run_of_step_ok hf hs] at h
          exact .head hf hs (ih h)
        | error trap m₁ =>
          obtain ⟨report, -, hr⟩ := run_of_step_error hf hs n
          rw [hr] at h
          simp at h
  · intro h
    have hr := run_add_of_steps h 0
    rwa [Nat.add_zero, run] at hr

theorem run_eq_finished_iff {n : Nat} {m m' : Machine} {results : Array Word} :
    run functions n m = .finished results m' ↔
      ∃ k < n, ∃ m₁, Steps functions k m m₁ ∧ m₁.frames = [] ∧ m₁.drain = .finished results m' := by
  constructor
  · intro h
    induction n generalizing m with
    | zero => simp [run] at h
    | succ n ih =>
      by_cases hf : m.frames = []
      · rw [run_of_frames_nil hf] at h
        exact ⟨0, Nat.succ_pos n, m, .refl m, hf, h⟩
      · cases hs : step functions m with
        | ok u m₁ =>
          rw [run_of_step_ok hf hs] at h
          obtain ⟨k, hk, m₂, hsteps, hend⟩ := ih h
          exact ⟨k + 1, Nat.succ_lt_succ hk, m₂, .head hf hs hsteps, hend⟩
        | error trap m₁ =>
          obtain ⟨report, -, hr⟩ := run_of_step_error hf hs n
          rw [hr] at h
          cases h
  · rintro ⟨k, hk, m₁, hsteps, hf, hd⟩
    obtain ⟨j, rfl⟩ : ∃ j, n = k + (j + 1) := ⟨n - k - 1, by omega⟩
    rw [run_add_of_steps hsteps, run_of_frames_nil hf, hd]

theorem run_eq_trapped_iff {n : Nat} {m m' : Machine} {report : TrapReport} :
    run functions n m = .trapped report m' ↔
      ∃ k < n, ∃ m₁ frame callers, Steps functions k m m₁ ∧ m₁.frames = frame :: callers ∧
        stepAt functions frame.function frame.ip m₁ = .error report m' := by
  constructor
  · intro h
    induction n generalizing m with
    | zero => simp [run] at h
    | succ n ih =>
      cases hf : m.frames with
      | nil =>
        rw [run_of_frames_nil hf] at h
        simp [drain] at h
      | cons frame callers =>
        have hne : m.frames ≠ [] := by simp [hf]
        cases hs : step functions m with
        | ok u m₁ =>
          rw [run_of_step_ok hne hs] at h
          obtain ⟨k, hk, m₂, top, rest, hsteps, hend⟩ := ih h
          exact ⟨k + 1, Nat.succ_lt_succ hk, m₂, top, rest, .head hne hs hsteps, hend⟩
        | error trap m₁ =>
          simp only [run, hf, stepAt, hs, Progress.trapped.injEq] at h
          obtain ⟨rfl, rfl⟩ := h
          exact ⟨0, Nat.succ_pos n, m, frame, callers, .refl m, hf, by simp only [stepAt, hs]⟩
  · rintro ⟨k, hk, m₁, frame, callers, hsteps, hf, ht⟩
    obtain ⟨j, rfl⟩ : ∃ j, n = k + (j + 1) := ⟨n - k - 1, by omega⟩
    rw [run_add_of_steps hsteps]
    simp only [run, hf, ht]

/-- One more unit of fuel is one more step, unless the run is over. -/
theorem run_succ (n : Nat) (m : Machine) :
    run functions (n + 1) m = (run functions n m).resume functions 1 := by
  induction n generalizing m with
  | zero => rfl
  | succ n ih =>
    rw [run]
    cases hm : m.frames with
    | nil =>
      simp only
      rw [run_of_frames_nil hm]
      rfl
    | cons frame callers =>
      simp only
      cases hs : stepAt functions frame.function frame.ip m with
      | ok u m₁ => simp only [run, hm, hs, ← ih]
      | error report m₁ =>
        simp only [run, hm, hs]
        rfl

theorem invoke_succ (m : Machine) (index : Nat) (args : Array Word) (n : Nat) :
    m.invoke functions index args (n + 1) =
      (m.invoke functions index args n).resume functions 1 := by
  unfold invoke
  cases m.start functions index args with
  | running m₀ => exact run_succ n m₀
  | finished results m₀ => rfl
  | trapped report m₀ => rfl

/-! ## Outcomes -/

/-- What an invocation that is over shows: its results or the cause of its trap, and the memory. -/
inductive Outcome where
  | results (values : Array Word) (memory : Memory)
  | trap (cause : Trap) (memory : Memory)
  deriving DecidableEq

/-- The outcome, once there is one. -/
def Progress.outcome? : Progress → Option Outcome
  | running _ => none
  | finished results m => some (.results results m.memory)
  | trapped report m => some (.trap report.trap m.memory)

/-- A larger bound does not change the outcome. -/
theorem outcome?_stable {n : Nat} {m : Machine} {o : Outcome}
    (h : (run functions n m).outcome? = some o) (k : Nat) :
    (run functions (n + k) m).outcome? = some o := by
  induction n generalizing m with
  | zero => simp [run, Progress.outcome?] at h
  | succ n ih =>
    rw [Nat.add_right_comm]
    by_cases hf : m.frames = []
    · rw [run_of_frames_nil hf] at h ⊢
      exact h
    · cases hs : step functions m with
      | ok u m₁ =>
        rw [run_of_step_ok hf hs] at h ⊢
        exact ih h
      | error trap m₁ =>
        simp only [run] at h ⊢
        obtain ⟨frame, callers, hfr⟩ := List.exists_cons_of_ne_nil hf
        simp only [hfr, stepAt, hs] at h ⊢
        exact h

theorem outcome?_unique {a b : Nat} {m : Machine} {o p : Outcome}
    (ho : (run functions a m).outcome? = some o) (hp : (run functions b m).outcome? = some p) :
    o = p := by
  have h₁ := outcome?_stable ho b
  have h₂ := outcome?_stable hp a
  rw [Nat.add_comm, h₁] at h₂
  exact Option.some.inj h₂

/-- The run that starts at `m` ends with this outcome. -/
def Ends (functions : Array Function) (m : Machine) (o : Outcome) : Prop :=
  ∃ n, (run functions n m).outcome? = some o

theorem ends_of_steps {n : Nat} {m m' : Machine} {o : Outcome} (h : Steps functions n m m')
    (he : Ends functions m' o) : Ends functions m o := by
  obtain ⟨k, hk⟩ := he
  exact ⟨n + k, by rw [run_add_of_steps h, hk]⟩

theorem ends_of_frames_nil {m : Machine} (h : m.frames = []) :
    Ends functions m (.results m.stack.values m.memory) :=
  ⟨1, by rw [run_of_frames_nil h]; rfl⟩

theorem ends_of_step_error {m m' : Machine} {trap : Trap} (hf : m.frames ≠ [])
    (hs : step functions m = .error trap m') : Ends functions m (.trap trap m'.memory) := by
  obtain ⟨report, hr, hrun⟩ := run_of_step_error hf hs 0
  exact ⟨1, by rw [hrun, Progress.outcome?, hr]⟩

end WasmI32.Machine
