import WasmI32.Proofs.Displacement.Machine
import WasmI32.Proofs.Isolation

/-!
# Calling a function is invoking it

A machine that calls a function and one that has just been set up to invoke it run the same
instructions: the called function lies on the frames and the operands of its callers, and neither
sees them nor changes them. The two can part only where the callers leave no room for a further
call. Nothing is said of what the caller does when the call has returned.
-/

namespace WasmI32.Machine

variable {functions : Array Function} {m m' : Machine}

/-! ## What becomes of a call -/

/-- The call that a machine makes next returns to `m'`. -/
def CallReturns (functions : Array Function) (m m' : Machine) : Prop :=
  ∃ k m₁, step functions m = .ok () m₁ ∧ StepsAbove functions m.frames.length k m₁ m' ∧
    m'.frames.length = m.frames.length

/-- The call that a machine makes next ends with a trap: it is refused, or the called function
traps, or one that it calls. -/
def CallTraps (functions : Array Function) (m : Machine) (report : TrapReport) (m' : Machine) :
    Prop :=
  run functions 1 m = .trapped report m' ∨
    ∃ k m₁ m₂, step functions m = .ok () m₁ ∧ StepsAbove functions m.frames.length k m₁ m₂ ∧
      m.frames.length < m₂.frames.length ∧ run functions 1 m₂ = .trapped report m'

/-- The call that a machine makes next finds no room on the call stack, be it for the called
function or for one that it calls. -/
def CallExhausts (functions : Array Function) (m : Machine) : Prop :=
  ∃ report m', m.CallTraps functions report m' ∧ report.trap = .callStackExhausted

/-- The call that a machine makes next ends with the trap that an invocation of the called function
has reported, with the callers counted in its depth, and with the same memory after as many
steps. -/
def CallTrapsAs (functions : Array Function) (m : Machine) (report : TrapReport)
    (invoked : Machine) : Prop :=
  ∃ m', m.CallTraps functions { report with depth := m.frames.length + report.depth } m' ∧
    m'.memory = invoked.memory ∧ m'.steps = m.steps + 1 + invoked.steps

/-- The call that a machine makes next never ends. -/
def CallDiverges (functions : Array Function) (m : Machine) : Prop :=
  ∃ m₁, step functions m = .ok () m₁ ∧ ∀ k, ∃ m', StepsAbove functions m.frames.length k m₁ m'

/-- A run that goes down to the level has no trap on its way. -/
theorem StepsAbove.not_trapped {level j k : Nat} {m₁ m₂ : Machine} {report : TrapReport}
    (hend : StepsAbove functions level k m m₁) (hlevel : m₁.frames.length ≤ level)
    (hmid : StepsAbove functions level j m m₂) (hlive : level < m₂.frames.length) :
    run functions 1 m₂ ≠ .trapped report m' := by
  induction hmid generalizing k with
  | refl m =>
    cases hend with
    | refl => omega
    | head hl hs _ =>
      rw [run_of_step_ok (List.ne_nil_of_length_pos (by omega)) hs]
      simp [run]
  | head hl hs _ ih =>
    cases hend with
    | refl => omega
    | head hl' hs' htail =>
      cases hs.symm.trans hs'
      exact ih htail hlive

/-- A call that returns does not trap. -/
theorem CallReturns.not_traps {m₁ : Machine} {report : TrapReport}
    (h : m.CallReturns functions m₁) (hm : m.frames ≠ []) : ¬ m.CallTraps functions report m' := by
  obtain ⟨k, first, hs, hsteps, hlevel⟩ := h
  rintro (hrefused | ⟨j, first', m₂, hs', hmid, hlive, htrap⟩)
  · rw [run_of_step_ok hm hs] at hrefused
    simp [run] at hrefused
  · cases hs.symm.trans hs'
    exact hsteps.not_trapped hlevel.le hmid hlive htrap

/-! ## Machines that are about to call -/

/-- A caller, what lies below it, and where it goes on after the call. -/
structure Caller where
  frame : Frame
  callers : List Frame
  /-- The operands below the arguments. -/
  below : Array Word
  next : Nat

namespace Caller

/-- The frames of the machine while the call is on. -/
def waiting (c : Caller) : List Frame := { c.frame with ip := c.next } :: c.callers

/-- The machine is about to run a call of `f` with these arguments. -/
structure Calls (c : Caller) (functions : Array Function) (m : Machine) (callee : Word)
    (f : Function) (args : Array Word) : Prop where
  frames : m.frames = c.frame :: c.callers
  normal : c.frame.state = .normal
  fetches : ∃ g, functions[c.frame.function]? = some g ∧
    fetch g.body c.frame.ip = .ok (.call callee, c.next)
  known : functions[callee.toNat]? = some f
  stack : m.stack.values = c.below ++ args
  args_size : args.size = f.parameterCount
  base_le : c.frame.base ≤ c.below.size

/-- The machine when the call has returned with these results, given what an invocation of the
called function leaves: the caller is behind the call, and everything below is as it was. -/
def resumed (c : Caller) (m : Machine) (results : Array Word) (invoked : Machine) : Machine where
  frames := c.waiting
  depth := m.depth
  liveLocals := m.liveLocals
  stack := ⟨c.below ++ results, m.stack.floor⟩
  memory := invoked.memory
  steps := m.steps + 1 + invoked.steps

/-- How the called function lies on its callers. -/
def displacement (c : Caller) (m : Machine) : Displacement where
  below := c.below
  place := fun _ ip => ip
  callers := c.waiting
  depth := m.depth
  live := m.liveLocals
  steps := m.steps + 1

variable {c : Caller} {callee : Word} {f : Function} {args : Array Word}

theorem carries (c : Caller) (functions : Array Function) (m : Machine) :
    (c.displacement m).Carries functions functions (Accounted functions) where
  fits := ⟨fun _ f hf => ⟨f.body, hf⟩, fun _ hf => hf, fun _ => rfl⟩
  step := fun hm hs ha => ha.step hm hs
  accounted := id
  fetches := by
    intro m₁ frame callers _ _ g body hg hg'
    obtain rfl : g.body = body := by
      rw [hg] at hg'
      exact congrArg Function.body (Option.some.inj hg')
    change fetch g.body frame.ip = (fetch g.body frame.ip).map id
    cases fetch g.body frame.ip <;> rfl

theorem Calls.floor_eq (h : c.Calls functions m callee f args) (hl : m.Layout) :
    m.stack.floor = c.frame.base := by
  rw [hl.floor_eq, h.frames]
  rfl

theorem Calls.popMany (h : c.Calls functions m callee f args) (hl : m.Layout) :
    OperandStack.popMany f.parameterCount m.stack = .ok args ⟨c.below, m.stack.floor⟩ := by
  have hfloor : m.stack.floor ≤ c.below.size := (h.floor_eq hl).trans_le h.base_le
  have hsize : m.stack.size = c.below.size + f.parameterCount := by
    rw [OperandStack.size, h.stack, Array.size_append, h.args_size]
  have hroom : ¬ m.stack.size < m.stack.floor + f.parameterCount := by omega
  have hheight : m.stack.size - f.parameterCount = c.below.size := by omega
  unfold OperandStack.popMany
  rw [if_neg hroom, hheight, hsize, h.stack, ← h.args_size]
  simp

/-- The call is refused, or the started function lies on its callers. -/
theorem Calls.step_eq (h : c.Calls functions m callee f args) (hl : m.Layout) :
    step functions m = if m.Exhausted f.frameSize then
        .error .callStackExhausted { m with frames := c.waiting, steps := m.steps + 1 }
      else .ok () ((c.displacement m).machine (started callee.toNat f args m.memory)) := by
  obtain ⟨g, hg, hfetch⟩ := h.fetches
  have hpop := h.popMany hl
  have hframes := h.frames
  have hframe := Displacement.frame_create (D := c.displacement m) callee.toNat rfl f f.body args 0
  obtain ⟨frames, depth, live, stack, memory, steps⟩ := m
  subst hframes
  have hadvance : advance g.body ⟨c.frame, stack, memory⟩ =
      .ok (.call callee.toNat) ⟨{ c.frame with ip := c.next }, stack, memory⟩ :=
    advance_of_normal h.normal hfetch
  simp only [step, hg, hadvance, follow, call, h.known]
  split
  · rename_i hroom
    rw [if_pos (show Exhausted ⟨c.frame :: c.callers, depth, live, stack, memory, steps⟩ _ from
      hroom)]
    rfl
  · rename_i hroom
    rw [if_neg (show ¬ Exhausted ⟨c.frame :: c.callers, depth, live, stack, memory, steps⟩ _ from
      hroom)]
    simp only [hpop, activate, Displacement.machine, Displacement.stack, started, List.map_cons,
      List.map_nil, hframe, OperandStack.raise, OperandStack.withFloor, OperandStack.size]
    simp only [displacement, Array.append_empty, Nat.add_zero]
    rfl

theorem Calls.step_eq_ok (h : c.Calls functions m callee f args) (hl : m.Layout)
    (hroom : ¬ m.Exhausted f.frameSize) : step functions m =
      .ok () ((c.displacement m).machine (started callee.toNat f args m.memory)) := by
  rw [h.step_eq hl, if_neg hroom]

/-- What has no room on an empty call stack has none on any. -/
theorem not_exhausted_create {size : Nat} (memory : Memory) (h : ¬ m.Exhausted size) :
    ¬ (create memory).Exhausted size := by
  intro hnone
  refine h (hnone.imp (fun hd => hd.trans (Nat.zero_le _)) fun hl => hl.trans_le ?_)
  exact Nat.add_le_add_right (Nat.zero_le _) _

theorem Calls.start_eq (h : c.Calls functions m callee f args) (hroom : ¬ m.Exhausted f.frameSize) :
    m.start functions callee.toNat args = .running (started callee.toNat f args m.memory) :=
  start_eq_running_iff.mpr
    ⟨f, h.known, h.args_size, not_exhausted_create m.memory hroom, rfl⟩

theorem Calls.length_waiting (h : c.Calls functions m callee f args) :
    (c.displacement m).callers.length = m.frames.length := by
  rw [h.frames]
  rfl

/-! ## The ends of a call -/

theorem Calls.exhausts_of_exhausted (h : c.Calls functions m callee f args) (hl : m.Layout)
    (hroom : m.Exhausted f.frameSize) : m.CallExhausts functions := by
  have hs := h.step_eq hl
  rw [if_pos hroom] at hs
  obtain ⟨report, htrap, hrun⟩ := run_of_step_error (by simp [h.frames]) hs 0
  exact ⟨report, _, .inl hrun, htrap⟩

section Room

variable {first : Machine} {n : Nat}

theorem Calls.exhausts_of_crowded (h : c.Calls functions m callee f args)
    (hs : step functions m = .ok () ((c.displacement m).machine first))
    (hcrowded : (c.displacement m).Crowded functions first) : m.CallExhausts functions := by
  obtain ⟨k, m₁, hsteps, hlive, -, m₂, hm₂⟩ := hcrowded
  rw [h.length_waiting] at hsteps hlive
  obtain ⟨report, htrap, hrun⟩ :=
    run_of_step_error (List.ne_nil_of_length_pos (by omega)) hm₂ 0
  exact ⟨report, m₂, .inr ⟨k, _, m₁, hs, hsteps, hlive, hrun⟩, htrap⟩

/-- When the last frame of the called function has returned, the callers are as they were. -/
theorem Calls.machine_eq_resumed (h : c.Calls functions m callee f args) (hl : m.Layout)
    {m₁ : Machine} (ha : m₁.Accounted functions) (hend : m₁.frames = []) {results : Array Word}
    (hdrain : m₁.drain = .finished results m') :
    (c.displacement m).machine m₁ = c.resumed m results m' := by
  have hfloor := h.floor_eq hl
  have hdepth := ha.depth_eq
  have hlive := ha.live_eq
  obtain ⟨frames, depth, live, stack, memory, steps⟩ := m₁
  subst hend
  obtain rfl : depth = 0 := hdepth
  obtain rfl : live = 0 := hlive
  cases hdrain
  rw [resumed, hfloor]
  rfl

theorem Calls.returns_of_finished (h : c.Calls functions m callee f args) (hl : m.Layout)
    (hroom : ¬ m.Exhausted f.frameSize) {results : Array Word}
    (hrun : run functions n (started callee.toNat f args m.memory) = .finished results m') :
    m.CallReturns functions (c.resumed m results m') ∨ m.CallExhausts functions := by
  have hs := h.step_eq_ok hl hroom
  have ha := accounted_started h.known args m.memory
  obtain ⟨k, -, m₁, hsteps, hend, hdrain⟩ := run_eq_finished_iff.mp hrun
  obtain habove | hcrowded := (c.carries functions m).steps_displaced ha hsteps
  · left
    rw [h.length_waiting, h.machine_eq_resumed hl (ha.steps hsteps) hend hdrain] at habove
    refine ⟨k, _, hs, habove, ?_⟩
    rw [h.frames]
    rfl
  · exact .inr (h.exhausts_of_crowded hs hcrowded)

/-- The report of a trap in the called function gives the place of the instruction as it is. -/
theorem report_displacement {frame : Frame} {m₁ m₂ : Machine} {report : TrapReport}
    (h : stepAt functions frame.function frame.ip m₁ = .error report m₂) :
    (c.displacement m).report functions report =
      { report with depth := m.depth + report.depth } := by
  obtain ⟨trap, -, rfl⟩ := stepAt_eq_error h
  rfl

theorem Calls.traps_of_trapped (h : c.Calls functions m callee f args)
    (hl : m.Layout) (ha : m.Accounted functions) (hroom : ¬ m.Exhausted f.frameSize)
    {report : TrapReport}
    (hrun : run functions n (started callee.toNat f args m.memory) = .trapped report m') :
    m.CallTrapsAs functions report m' ∨ m.CallExhausts functions := by
  have hs := h.step_eq_ok hl hroom
  have ha₀ := accounted_started h.known args m.memory
  have hc := c.carries functions m
  obtain ⟨k, -, m₁, frame, callers, hsteps, hm₁, htrap⟩ := run_eq_trapped_iff.mp hrun
  have hne : m₁.frames ≠ [] := by simp [hm₁]
  obtain habove | hcrowded := hc.steps_displaced ha₀ hsteps
  · have hlive := Displacement.lt_length_frames (D := c.displacement m) hne
    rw [h.length_waiting] at habove hlive
    obtain hstep | ⟨-, m₂, hm₂⟩ := hc.step_displaced (ha₀.steps hsteps) hne
    · left
      have ht := Displacement.stepAt_displaced hstep htrap
      rw [report_displacement htrap, ha.depth_eq] at ht
      refine ⟨(c.displacement m).machine m', .inr ⟨k, _, _, hs, habove, hlive, ?_⟩, rfl, rfl⟩
      have hframes : ((c.displacement m).machine m₁).frames =
          (c.displacement m).frame frame ::
            (callers.map (c.displacement m).frame ++ (c.displacement m).callers) := by
        simp only [Displacement.machine, hm₁, List.map_cons, List.cons_append]
      simp only [run, hframes, ht]
    · right
      obtain ⟨report', htrap', hrun'⟩ :=
        run_of_step_error (List.ne_nil_of_length_pos (by omega)) hm₂ 0
      exact ⟨report', m₂, .inr ⟨k, _, _, hs, habove, hlive, hrun'⟩, htrap'⟩
  · exact .inr (h.exhausts_of_crowded hs hcrowded)

theorem Calls.diverges_of_running (h : c.Calls functions m callee f args) (hl : m.Layout)
    (hroom : ¬ m.Exhausted f.frameSize)
    (hrun : ∀ n, ∃ m', run functions n (started callee.toNat f args m.memory) = .running m')
    (hex : ¬ m.CallExhausts functions) : m.CallDiverges functions := by
  have hs := h.step_eq_ok hl hroom
  refine ⟨_, hs, fun k => ?_⟩
  obtain ⟨m', hm'⟩ := hrun k
  have ha := accounted_started h.known args m.memory
  obtain habove | hcrowded :=
    (c.carries functions m).steps_displaced ha (run_eq_running_iff.mp hm')
  · rw [h.length_waiting] at habove
    exact ⟨_, habove⟩
  · exact absurd (h.exhausts_of_crowded hs hcrowded) hex

end Room

end Caller

variable {c : Caller} {callee : Word} {f : Function} {args : Array Word}

/-- Unless the call stack has no room for it, a call and an invocation of the function with the same
arguments and memory come to the same: neither ends, or both return and the results lie where the
arguments did, or both trap at the same instruction. If the invocation ends, then so does the call,
in the same way or because there is no room. -/
theorem call_agrees_with_invoke {m₀ : Machine} {index : Nat} {args₀ : Array Word} {n : Nat}
    (hreach : m₀.invoke functions index args₀ n = .running m)
    (h : c.Calls functions m callee f args) :
    (¬ m.CallExhausts functions →
      (m.CallDiverges functions ∧
        ∀ fuel, ∃ m', (create m.memory).invoke functions callee.toNat args fuel = .running m') ∨
      (∃ fuel results m',
        (create m.memory).invoke functions callee.toNat args fuel = .finished results m' ∧
          m.CallReturns functions (c.resumed m results m')) ∨
      ∃ fuel report m',
        (create m.memory).invoke functions callee.toNat args fuel = .trapped report m' ∧
          m.CallTrapsAs functions report m') ∧
    (∀ fuel results m',
      (create m.memory).invoke functions callee.toNat args fuel = .finished results m' →
        m.CallReturns functions (c.resumed m results m') ∨ m.CallExhausts functions) ∧
    ∀ fuel report m',
      (create m.memory).invoke functions callee.toNat args fuel = .trapped report m' →
        m.CallTrapsAs functions report m' ∨ m.CallExhausts functions := by
  have hl := layout_running hreach
  have ha := accounted_running hreach
  by_cases hroom : m.Exhausted f.frameSize
  · have hex := h.exhausts_of_exhausted hl hroom
    exact ⟨absurd hex, fun _ _ _ _ => .inr hex, fun _ _ _ _ => .inr hex⟩
  have hinvoke (fuel : Nat) : (create m.memory).invoke functions callee.toNat args fuel =
      run functions fuel (started callee.toNat f args m.memory) := by
    change (m.start functions callee.toNat args).resume functions fuel = _
    rw [h.start_eq hroom]
    rfl
  simp only [hinvoke]
  refine ⟨fun hex => ?_, fun fuel results m' hrun => h.returns_of_finished hl hroom hrun,
    fun fuel report m' hrun => h.traps_of_trapped hl ha hroom hrun⟩
  by_cases hrunning : ∀ fuel, ∃ m',
      run functions fuel (started callee.toNat f args m.memory) = .running m'
  · exact .inl ⟨h.diverges_of_running hl hroom hrunning hex, hrunning⟩
  right
  obtain ⟨fuel, hfuel⟩ := not_forall.mp hrunning
  cases hrun : run functions fuel (started callee.toNat f args m.memory) with
  | running m' => exact absurd ⟨m', hrun⟩ hfuel
  | finished results m' =>
    exact .inl ⟨fuel, results, m', hrun, (h.returns_of_finished hl hroom hrun).resolve_right hex⟩
  | trapped report m' =>
    exact .inr ⟨fuel, report, m', hrun, (h.traps_of_trapped hl ha hroom hrun).resolve_right hex⟩

/-- The machine of `doubledSum` before its call, with seven below the argument. -/
def beforeDoubledSum : Machine :=
  ⟨[{ doubledSumCaller with ip := 4 }], 1, 0, ⟨#[7, 5], 0⟩, .empty, 2⟩

def callOfDoubledSum : Caller := ⟨{ doubledSumCaller with ip := 4 }, [], #[7], 6⟩

theorem callReturns_beforeDoubledSum :
    beforeDoubledSum.CallReturns doubledSum afterDoubledSum := by
  have hcall : step doubledSum beforeDoubledSum = .ok () ⟨[{ doubledSumCallee with ip := 0 },
      doubledSumCaller], 2, 1, ⟨#[7], 1⟩, .empty, 3⟩ := by rfl
  have hfirst : step doubledSum ⟨[{ doubledSumCallee with ip := 0 }, doubledSumCaller], 2, 1,
      ⟨#[7], 1⟩, .empty, 3⟩ = .ok () ⟨[{ doubledSumCallee with ip := 2 }, doubledSumCaller], 2, 1,
      ⟨#[7, 5], 1⟩, .empty, 4⟩ := by rfl
  have hsecond : step doubledSum ⟨[{ doubledSumCallee with ip := 2 }, doubledSumCaller], 2, 1,
      ⟨#[7, 5], 1⟩, .empty, 4⟩ = .ok () inDoubledSum := by rfl
  have hadd : step doubledSum inDoubledSum = .ok () ⟨[{ doubledSumCallee with ip := 5 },
      doubledSumCaller], 2, 1, ⟨#[7, 10], 1⟩, .empty, 6⟩ := by rfl
  have hend : step doubledSum ⟨[{ doubledSumCallee with ip := 5 }, doubledSumCaller], 2, 1,
      ⟨#[7, 10], 1⟩, .empty, 6⟩ = .ok () afterDoubledSum := by rfl
  refine ⟨4, _, hcall, ?_, rfl⟩
  exact .head (by decide) hfirst (.head (by decide) hsecond
    (.head (by decide) hadd (.head (by decide) hend (.refl _))))

theorem call_agrees_beforeDoubledSum :
    (create .empty).invoke doubledSum 0 #[] 2 = .running beforeDoubledSum ∧
      ¬ beforeDoubledSum.CallExhausts doubledSum ∧
      (∃ m', (create .empty).invoke doubledSum 1 #[5] 5 = .finished #[10] m') ∧
      beforeDoubledSum.CallReturns doubledSum afterDoubledSum := by
  have hreach : (create .empty).invoke doubledSum 0 #[] 2 = .running beforeDoubledSum := by
    decide +kernel
  have hcalls : callOfDoubledSum.Calls doubledSum beforeDoubledSum 1
      ⟨1, 1, 1, 0, #[0x20, 0x00, 0x20, 0x00, 0x6a, 0x0b], 0⟩ #[5] :=
    ⟨rfl, rfl, ⟨_, rfl, rfl⟩, rfl, rfl, rfl, by decide⟩
  have hinvoke : (create .empty).invoke doubledSum 1 #[5] 5 =
      .finished #[10] ⟨[], 0, 0, {}, .empty, 4⟩ := by
    decide +kernel
  have hroom : ¬ beforeDoubledSum.CallExhausts doubledSum := by
    rintro ⟨report, m', htraps, -⟩
    exact callReturns_beforeDoubledSum.not_traps (List.cons_ne_nil _ _) htraps
  have hresumed : callOfDoubledSum.resumed beforeDoubledSum #[10] ⟨[], 0, 0, {}, .empty, 4⟩ =
      afterDoubledSum := by
    rfl
  obtain ⟨-, hfinished, -⟩ := call_agrees_with_invoke hreach hcalls
  have hreturns := (hfinished 5 #[10] _ hinvoke).resolve_right hroom
  rw [hresumed] at hreturns
  exact ⟨hreach, hroom, ⟨_, hinvoke⟩, hreturns⟩

end WasmI32.Machine
