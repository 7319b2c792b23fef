import WasmI32.Proofs.Structured.Simulation

/-!
# Invocations of structured code

Invoking a function of structured code ends exactly when the reference interpreter does, and with
the same outcome. Nothing is assumed of the code beyond its structure: it may underflow the stack,
branch too far or never end.
-/

namespace WasmI32.Structured

open Machine (Steps Ends Outcome)

variable {program : Array Procedure} {index : Nat} {args : Array Word} {m : Machine}

theorem start_of_unknown (h : program[index]? = none) :
    Machine.start (program.map Procedure.function) index args m =
      .trapped (.atEntry (.unknownFunction index) index) (Machine.create m.memory) := by
  simp only [Machine.start, Machine.enter, Array.getElem?_map, h, Option.map_none]

theorem start_of_size_ne {p : Procedure} (h : program[index]? = some p)
    (hargs : args.size ≠ p.function.parameterCount) :
    Machine.start (program.map Procedure.function) index args m =
      .trapped (.atEntry (.argumentCount p.function.parameterCount args.size) index)
        (Machine.create m.memory) := by
  simp only [Machine.start, Machine.enter, Array.getElem?_map, h, Option.map_some, if_pos hargs]

/-- An invocation with the right number of arguments is a call that has no caller. -/
theorem start_of_size_eq {p : Procedure} (h : program[index]? = some p)
    (hargs : args.size = p.function.parameterCount) :
    Machine.start (program.map Procedure.function) index args m =
      match Machine.call (program.map Procedure.function) index
        ⟨[], 0, 0, { values := args }, m.memory, 0⟩ with
      | .ok _ m => .running m
      | .error trap m => .trapped (.atEntry trap index) m := by
  have happend : OperandStack.append {} args = { values := args } := by
    rw [OperandStack.append, Array.empty_append]
  have henter : Machine.enter (program.map Procedure.function) index args m =
      Machine.call (program.map Procedure.function) index
        ⟨[], 0, 0, OperandStack.append {} args, m.memory, 0⟩ := by
    unfold Machine.enter
    rw [Array.getElem?_map, h]
    exact if_neg (not_not.mpr hargs)
  change (match Machine.enter (program.map Procedure.function) index args m with
    | .ok _ m => Machine.Progress.running m
    | .error trap m => .trapped (.atEntry trap index) m) = _
  rw [henter, happend]

/-- What an invocation comes to, given how far the reference gets with a bound. -/
def Reaches (functions : Array Function) (start : Machine.Progress) (bound : Nat) :
    Option Outcome → Prop
  | some o => ∃ fuel, (start.resume functions fuel).outcome? = some o
  | none => ∃ m m', start = .running m ∧ Steps functions bound m m'

theorem reaches_invoke (program : Array Procedure) (index : Nat) (args : Array Word) (m : Machine)
    (bound : Nat) :
    Reaches (program.map Procedure.function)
      (Machine.start (program.map Procedure.function) index args m) bound
      (invoke program index args m.memory bound) := by
  unfold invoke
  cases hp : program[index]? with
  | none =>
    rw [start_of_unknown hp]
    exact ⟨0, rfl⟩
  | some p =>
    by_cases hargs : args.size = p.function.parameterCount
    · rw [start_of_size_eq hp hargs]
      simp only [hargs, ne_eq, not_true_eq_false, if_false]
      have hbase : (⟨#[], args.toList, 0, m.memory⟩ : Scope).base = Machine.baseOf [] := rfl
      have hcall : Answers (program.map Procedure.function) bound [] ⟨0, 0⟩ #[]
          (Machine.call (program.map Procedure.function) index
            ⟨[], 0, 0, { values := args }, m.memory, 0⟩)
          (call program (eval program bound) ⟨0, 0⟩ index ⟨#[], args.toList, 0, m.memory⟩) :=
        answers_call (simulates_eval program bound) hbase ⟨0, 0⟩ index 0
      match hr : call program (eval program bound) ⟨0, 0⟩ index
          ⟨#[], args.toList, 0, m.memory⟩ with
      | none =>
        rw [hr] at hcall
        obtain ⟨m₁, hm₁, m₂, hs⟩ := hcall
        rw [hm₁]
        exact ⟨m₁, m₂, rfl, hs⟩
      | some (.ok exit s) =>
        rw [hr] at hcall
        obtain ⟨-, -, m₁, hm₁, k, t, hk⟩ := hcall
        rw [hm₁]
        exact Machine.ends_of_steps hk (Machine.ends_of_frames_nil rfl)
      | some (.error trap s) =>
        rw [hr] at hcall
        obtain ⟨m₁, hm₁, hmem⟩ | ⟨m₁, hm₁, hend⟩ := hcall
        · rw [hm₁]
          refine ⟨0, ?_⟩
          simp only [Machine.Progress.resume, Machine.Progress.outcome?, hmem]
          rfl
        · rw [hm₁]
          exact hend
    · rw [start_of_size_ne hp hargs]
      simp only [ne_eq, hargs, not_false_eq_true, if_true]
      exact ⟨0, rfl⟩

/-- An invocation has one outcome at most, however long it runs. -/
theorem outcome_unique {functions : Array Function} {start : Machine.Progress} {a b : Nat}
    {o₁ o₂ : Outcome} (h₁ : (start.resume functions a).outcome? = some o₁)
    (h₂ : (start.resume functions b).outcome? = some o₂) : o₁ = o₂ := by
  cases start with
  | running m => exact Machine.outcome?_unique h₁ h₂
  | finished results m => exact Option.some.inj (h₁.symm.trans h₂)
  | trapped report m => exact Option.some.inj (h₁.symm.trans h₂)

/-- Invoking a function by the flat code and by the tree comes to the same: one ends if and only if
the other does, with the same results or the same trap, and with the same memory. -/
theorem invoke_ends_iff (program : Array Procedure) (index : Nat) (args : Array Word) (m : Machine)
    (o : Outcome) :
    (∃ fuel, (m.invoke (program.map Procedure.function) index args fuel).outcome? = some o) ↔
      ∃ bound, invoke program index args m.memory bound = some o := by
  constructor
  · rintro ⟨fuel, hfuel⟩
    refine ⟨fuel, ?_⟩
    have hreach := reaches_invoke program index args m fuel
    cases hi : invoke program index args m.memory fuel with
    | some o' =>
      rw [hi] at hreach
      obtain ⟨fuel', hfuel'⟩ := hreach
      rw [outcome_unique hfuel hfuel']
    | none =>
      -- the machine would still be running after that many steps
      rw [hi] at hreach
      obtain ⟨m₁, m₂, hstart, hsteps⟩ := hreach
      rw [Machine.invoke, hstart, Machine.Progress.resume,
        Machine.run_eq_running_iff.mpr hsteps] at hfuel
      cases hfuel
  · rintro ⟨bound, hbound⟩
    have hreach := reaches_invoke program index args m bound
    rw [hbound] at hreach
    exact hreach

end WasmI32.Structured
