import WasmI32.Proofs.CallStack
import WasmI32.Proofs.Displacement.Instruction

/-!
# Displaced machines

A displaced machine has the frames of a machine on top of others, and its operands on top of
others. It runs functions whose bodies may be written in other bytes, as long as it finds the same
instruction at a place as the machine itself finds at the place it comes from. Each of its steps is
then the displaced step of the machine, with one exception: the frames below may leave no room for
a call.
-/

namespace WasmI32

open Machine (baseOf fetch advance call ret follow step stepAt opcodeAt)

namespace Displacement

variable (D : Displacement) {functions functions' : Array Function} {m : Machine}

/-- The operands of a run on those below. When the last frame of the run has returned, the floor is
that of the frames below. -/
def stack (m : Machine) : OperandStack :=
  match m.frames with
  | [] => (m.stack.raise D.below).withFloor (baseOf D.callers)
  | _ :: _ => m.stack.raise D.below

def machine (m : Machine) : Machine where
  frames := m.frames.map D.frame ++ D.callers
  depth := D.depth + m.depth
  liveLocals := D.live + m.liveLocals
  stack := D.stack m
  memory := m.memory
  steps := D.steps + m.steps

/-- The functions that a displaced machine runs are those of the machine with other bodies, and it
starts them at their first instruction too. -/
structure Fits (functions functions' : Array Function) : Prop where
  known : ∀ (index : Nat) (f : Function), functions[index]? = some f →
    ∃ body, functions'[index]? = some { f with body }
  unknown : ∀ index : Nat, functions[index]? = none → functions'[index]? = none
  start : ∀ index, D.place index 0 = 0

/-- At the displaced place the other body has the same instruction, and the next one behind it. -/
def Fetches (function : Nat) (body body' : Array UInt8) (ip : Nat) : Prop :=
  fetch body' (D.place function ip) =
    (fetch body ip).map fun found => (found.1, D.place function found.2)

variable {D}

/-! ## Calls and returns -/

theorem frame_create (index : Nat) (hstart : D.place index 0 = 0) (f : Function)
    (body : Array UInt8) (args : Array Word) (base : Nat) :
    D.frame (Frame.create index f args base) =
      Frame.create index { f with body } args (D.below.size + base) := by
  simp only [frame, Frame.create, hstart, List.map_cons, List.map_nil]
  congr 1
  simp only [marker, Frame.bodyMarker, hstart]

theorem stack_of_cons {frame : Frame} {callers : List Frame} (h : m.frames = frame :: callers) :
    D.stack m = m.stack.raise D.below := by
  rw [stack, h]

theorem exhausted_of_exhausted {size : Nat} (h : m.Exhausted size) :
    (D.machine m).Exhausted size := by
  obtain h | h := h
  · exact .inl (h.trans (Nat.le_add_left _ _))
  · refine .inr (h.trans_le ?_)
    change m.liveLocals + size ≤ D.live + m.liveLocals + size
    omega

/-- A call that is refused only because of the frames below. -/
def Crowds (D : Displacement) (x : EStateM.Result Trap Machine Unit) : Prop :=
  (0 < D.depth ∨ 0 < D.live) ∧ ∃ m, x = .error .callStackExhausted m

theorem call_displaced {frame : Frame} {callers : List Frame} (hfits : D.Fits functions functions')
    (hm : m.frames = frame :: callers) (index : Nat) :
    call functions' index (D.machine m) = mapState D.machine (call functions index m) ∨
      D.Crowds (call functions' index (D.machine m)) := by
  cases hf : functions[index]? with
  | none =>
    left
    simp only [call, hf, hfits.unknown index hf]
    rfl
  | some f =>
    obtain ⟨body, hf'⟩ := hfits.known index f hf
    have hsize : Function.frameSize { f with body } = f.frameSize := rfl
    by_cases hroom : m.Exhausted f.frameSize
    · left
      simp only [call, hf, hf', hsize, hroom, exhausted_of_exhausted hroom, if_true]
      rfl
    by_cases hcrowd : (D.machine m).Exhausted f.frameSize
    · right
      refine ⟨?_, D.machine m, ?_⟩
      · by_contra hnone
        refine hroom (hcrowd.imp (fun h => ?_) fun h => ?_)
        · change _ ≤ D.depth + m.depth at h
          omega
        · change _ < D.live + m.liveLocals + _ at h
          omega
      · simp only [call, hf', hsize, hcrowd, if_true]
    · left
      have hpop : OperandStack.popMany f.parameterCount (m.stack.raise D.below) = _ :=
        OperandStack.commutes_popMany f.parameterCount m.stack
      have hstack := stack_of_cons (D := D) hm
      obtain ⟨frames, depth, live, stack, memory, steps⟩ := m
      subst hm
      simp only [call, hf, hf', hsize, hroom, hcrowd, if_false]
      simp only [machine, hstack]
      cases hr : OperandStack.popMany f.parameterCount stack with
      | error trap stack₁ =>
        simp only [hr, mapState] at hpop
        simp only [hpop, mapState]
        rfl
      | ok args stack₁ =>
        simp only [hr, mapState] at hpop
        simp only [hpop, mapState, Machine.activate, OperandStack.size_raise]
        rw [← frame_create index (hfits.start index)]
        simp only [machine, Displacement.stack, List.map_cons, List.cons_append, Nat.add_assoc]
        rfl

/-- A return needs the accounts of the machine: what it takes off the counts was on them. -/
theorem ret_displaced {frame : Frame} {callers : List Frame} (hm : m.frames = frame :: callers)
    (hdepth : 0 < m.depth) (hlive : frame.locals.size ≤ m.liveLocals) :
    ret (D.machine m) = mapState D.machine (ret m) := by
  have hstack := stack_of_cons (D := D) hm
  obtain ⟨frames, depth, live, stack, memory, steps⟩ := m
  subst hm
  have hactual : (stack.raise D.below).size - (D.frame frame).base = stack.size - frame.base := by
    rw [OperandStack.size_raise]
    change D.below.size + stack.size - (D.below.size + frame.base) = _
    omega
  have hcount : (D.frame frame).resultCount = frame.resultCount := rfl
  have hlocals : (D.frame frame).locals.size = frame.locals.size := rfl
  simp only [machine, hstack, List.map_cons, List.cons_append, ret, hactual, hcount]
  by_cases hr : stack.size - frame.base = frame.resultCount
  · have hd : D.depth + depth - 1 = D.depth + (depth - 1) := by
      change 0 < depth at hdepth
      omega
    have hl : D.live + live - frame.locals.size = D.live + (live - frame.locals.size) := by
      change frame.locals.size ≤ live at hlive
      omega
    simp only [hr, if_true, mapState, machine, hlocals, hd, hl]
    cases callers with
    | nil => rfl
    | cons caller callers => rfl
  · simp only [hr, if_false, mapState, machine, hstack]
    rfl

/-! ## Steps -/

theorem advance_displaced {body body' : Array UInt8} {a : Activation}
    (h : D.Fetches a.frame.function body body' a.frame.ip) :
    advance body' (D.activation a) = mapState D.activation (advance body a) := by
  have hip : (D.activation a).frame.ip = D.place a.frame.function a.frame.ip := rfl
  unfold advance
  rw [hip, h]
  cases fetch body a.frame.ip with
  | error trap => rfl
  | ok found =>
    obtain ⟨i, next⟩ := found
    obtain ⟨frame, stack, memory⟩ := a
    have hstate : (D.frame frame).state = frame.state := rfl
    simp only [Except.map, activation, hstate]
    split
    · have hskip := D.frame_skip { frame with ip := next } stack.size i
      rw [OperandStack.size_raise]
      exact congrArg (fun (x : Flow × Frame) => EStateM.Result.ok x.1
        (⟨x.2, stack.raise D.below, memory⟩ : Activation)) hskip
    · exact commutes_execute i ⟨{ frame with ip := next }, stack, memory⟩

theorem step_displaced {frame : Frame} {callers : List Frame} (hfits : D.Fits functions functions')
    (hm : m.frames = frame :: callers) (ha : m.Accounted functions)
    (hfetch : ∀ f body, functions[frame.function]? = some f →
      functions'[frame.function]? = some { f with body } →
      D.Fetches frame.function f.body body frame.ip) :
    step functions' (D.machine m) = mapState D.machine (step functions m) ∨
      D.Crowds (step functions' (D.machine m)) := by
  obtain ⟨f, hf, -, -⟩ := ha.known frame (by simp [hm])
  obtain ⟨body, hf'⟩ := hfits.known _ f hf
  have hdepth : 0 < m.depth := by
    rw [ha.depth_eq, hm]
    exact Nat.succ_pos _
  have hlive : frame.locals.size ≤ m.liveLocals := by
    rw [ha.live_eq, hm]
    exact Nat.le_add_right _ _
  have hstack := stack_of_cons (D := D) hm
  obtain ⟨frames, depth, live, stack, memory, steps⟩ := m
  subst hm
  have hfun : (D.frame frame).function = frame.function := rfl
  have hadvance : advance body ⟨D.frame frame, stack.raise D.below, memory⟩ = _ :=
    advance_displaced (a := ⟨frame, stack, memory⟩) (hfetch f body hf hf')
  have hid := Machine.keeps_identity_advance f.body ⟨frame, stack, memory⟩
  simp only [machine, hstack, List.map_cons, List.cons_append, step, hfun, hf, hf', hadvance]
  cases hr : advance f.body ⟨frame, stack, memory⟩ with
  | error trap a =>
    left
    rfl
  | ok flow a =>
    rw [hr] at hid
    -- the displaced machine, when the frame has gone on
    have hmachine : D.machine ⟨a.frame :: callers, depth, live, a.stack, a.memory, steps + 1⟩ =
      ⟨D.frame a.frame :: (callers.map D.frame ++ D.callers), D.depth + depth, D.live + live,
        a.stack.raise D.below, a.memory, D.steps + (steps + 1)⟩ := rfl
    cases flow with
    | next =>
      left
      rfl
    | call index =>
      have hcall := call_displaced hfits
        (m := ⟨a.frame :: callers, depth, live, a.stack, a.memory, steps + 1⟩) rfl index
      rw [hmachine] at hcall
      exact hcall
    | ret =>
      left
      have hlocals : a.frame.locals.size = frame.locals.size :=
        congrArg Frame.Identity.localCount hid
      have hret := ret_displaced (D := D)
        (m := ⟨a.frame :: callers, depth, live, a.stack, a.memory, steps + 1⟩) rfl hdepth
        (hlocals.trans_le hlive)
      rw [hmachine] at hret
      exact hret

/-! ## Runs -/

/-- An invariant of the machines of a run that lets the displaced run find its instructions. -/
structure Carries (D : Displacement) (functions functions' : Array Function)
    (P : Machine → Prop) : Prop where
  fits : D.Fits functions functions'
  step : ∀ {m m' : Machine}, m.frames ≠ [] → Machine.step functions m = .ok () m' → P m → P m'
  accounted : ∀ {m : Machine}, P m → m.Accounted functions
  fetches : ∀ {m : Machine} {frame : Frame} {callers : List Frame}, P m →
    m.frames = frame :: callers → ∀ f body, functions[frame.function]? = some f →
      functions'[frame.function]? = some { f with body } →
      D.Fetches frame.function f.body body frame.ip

/-- The displaced run comes to a call that is refused because of the frames below. -/
def Crowded (D : Displacement) (functions' : Array Function) (m : Machine) : Prop :=
  ∃ k m₁, Machine.StepsAbove functions' D.callers.length k (D.machine m) m₁ ∧
    D.callers.length < m₁.frames.length ∧ D.Crowds (step functions' m₁)

variable {P : Machine → Prop} {m' : Machine} {k : Nat}

theorem Carries.step_displaced (hc : D.Carries functions functions' P) (hp : P m)
    (hm : m.frames ≠ []) :
    Machine.step functions' (D.machine m) = mapState D.machine (Machine.step functions m) ∨
      D.Crowds (Machine.step functions' (D.machine m)) := by
  obtain ⟨frame, callers, hframes⟩ := List.exists_cons_of_ne_nil hm
  exact Displacement.step_displaced hc.fits hframes (hc.accounted hp) (hc.fetches hp hframes)

theorem lt_length_frames (hm : m.frames ≠ []) :
    D.callers.length < (D.machine m).frames.length := by
  have hpos := List.length_pos_iff.mpr hm
  simp only [machine, List.length_append, List.length_map]
  omega

/-- As far as a run goes, the displaced run goes with it, unless there is no room for a call. -/
theorem Carries.steps_displaced (hc : D.Carries functions functions' P) (hp : P m)
    (h : Machine.Steps functions k m m') :
    Machine.StepsAbove functions' D.callers.length k (D.machine m) (D.machine m') ∨
      D.Crowded functions' m := by
  induction h with
  | refl m => exact .inl (.refl _)
  | @head k m m₁ m' hm hs _ ih =>
    have hlt := lt_length_frames (D := D) hm
    obtain hstep | hcrowds := hc.step_displaced hp hm
    · rw [hs] at hstep
      obtain hsteps | ⟨j, m₂, hj, hcrowded⟩ := ih (hc.step hm hs hp)
      · exact .inl (.head hlt hstep hsteps)
      · exact .inr ⟨j + 1, m₂, .head hlt hstep hj, hcrowded⟩
    · exact .inr ⟨0, _, .refl _, hlt, hcrowds⟩

/-- The report of a trap, given as the displaced machine gives it. -/
def report (D : Displacement) (functions' : Array Function) (r : TrapReport) : TrapReport where
  trap := r.trap
  function := r.function
  offset := D.place r.function r.offset
  opcode := opcodeAt functions' r.function (D.place r.function r.offset)
  depth := D.depth + r.depth

theorem stepAt_displaced {frame : Frame} {r : TrapReport}
    (h : step functions' (D.machine m) = mapState D.machine (step functions m))
    (hr : stepAt functions frame.function frame.ip m = .error r m') :
    stepAt functions' (D.frame frame).function (D.frame frame).ip (D.machine m) =
      .error (D.report functions' r) (D.machine m') := by
  obtain ⟨trap, hs, rfl⟩ := Machine.stepAt_eq_error hr
  simp only [stepAt, h, hs, mapState]
  rfl

end Displacement

end WasmI32
