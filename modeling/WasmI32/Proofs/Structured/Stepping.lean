import WasmI32.Proofs.Structured.SkippedCode

/-!
# Steps of a placed frame

A context is what stays the same while the code of one activation runs. With a point, which says
where the frame is and what it finds there, it is a machine. The lemmas say what one step does to
such a machine, executing or skipping, and that code is skipped as a whole. The count of steps taken
so far never matters.
-/

namespace WasmI32.Structured

open Instruction (StandsAt decodeAt)
open Machine (Steps step Ends Outcome)

variable {functions : Array Function}

/-- An activation without its place and its scope. -/
structure Context where
  index : Nat
  function : Function
  base : Nat
  callers : List Frame
  calls : Calls

/-- The place of a frame in its code, the constructs open there, its state and its scope. -/
structure Point where
  ip : Nat
  markers : List Marker
  state : FlowState
  scope : Scope

namespace Context

def frame (K : Context) (p : Point) : Frame :=
  ⟨K.index, p.ip, p.scope.locals, K.base, K.function.resultCount, p.markers, p.state⟩

def machine (K : Context) (p : Point) (steps : Nat) : Machine :=
  ⟨K.frame p :: K.callers, K.calls.depth, K.calls.live, p.scope.stack, p.scope.memory, steps⟩

/-- The machine after a return. -/
def returned (K : Context) (s : Scope) (steps : Nat) : Machine :=
  ⟨K.callers, K.calls.depth - 1, K.calls.live - s.locals.size,
    s.stack.withFloor (Machine.baseOf K.callers), s.memory, steps⟩

/-- The floor and the number of locals that the code finds. -/
def shape (K : Context) : Nat × Nat := (K.base, K.function.frameSize)

/-- The activation is one of a function of the module. -/
def In (K : Context) (functions : Array Function) : Prop :=
  functions[K.index]? = some K.function

theorem machine_frames_ne_nil (K : Context) (p : Point) (t : Nat) : (K.machine p t).frames ≠ [] :=
  List.cons_ne_nil _ _

end Context

/-! ## Moving, running and ending -/

/-- The frame gets from one point to another, in `j` steps or more. -/
def Moves (functions : Array Function) (K : Context) (j : Nat) (p q : Point) : Prop :=
  ∀ t, ∃ k t', j ≤ k ∧ Steps functions k (K.machine p t) (K.machine q t')

/-- The machine takes `n` steps from here, and is not over. -/
def Runs (functions : Array Function) (K : Context) (n : Nat) (p : Point) : Prop :=
  ∀ t, ∃ m, Steps functions n (K.machine p t) m

/-- The invocation traps from here. -/
def Traps (functions : Array Function) (K : Context) (p : Point) (trap : Trap) (memory : Memory) :
    Prop :=
  ∀ t, Ends functions (K.machine p t) (.trap trap memory)

/-- The frame returns from here and leaves `s`. -/
def Returns (functions : Array Function) (K : Context) (p : Point) (s : Scope) : Prop :=
  ∀ t, ∃ k t', Steps functions k (K.machine p t) (K.returned s t')

variable {K : Context} {p q r : Point} {a b j n : Nat}

theorem Moves.refl (p : Point) : Moves functions K 0 p p :=
  fun t => ⟨0, t, Nat.le_refl 0, .refl _⟩

theorem Moves.trans (h₁ : Moves functions K a p q) (h₂ : Moves functions K b q r) :
    Moves functions K (a + b) p r := by
  intro t
  obtain ⟨k, t₁, ha, hk⟩ := h₁ t
  obtain ⟨l, t₂, hb, hl⟩ := h₂ t₁
  exact ⟨k + l, t₂, Nat.add_le_add ha hb, hk.trans hl⟩

theorem Moves.weaken (h : Moves functions K a p q) (hj : j ≤ a) : Moves functions K j p q := by
  intro t
  obtain ⟨k, t', ha, hk⟩ := h t
  exact ⟨k, t', Nat.le_trans hj ha, hk⟩

theorem Moves.runs (h : Moves functions K a p q) (hr : Runs functions K b q) (hn : n ≤ a + b) :
    Runs functions K n p := by
  intro t
  obtain ⟨k, t', ha, hk⟩ := h t
  obtain ⟨m, hm⟩ := hr t'
  exact (hk.trans hm).initial (by omega)

theorem Runs.zero (p : Point) : Runs functions K 0 p := fun _ => ⟨_, .refl _⟩

theorem Moves.traps {trap : Trap} {memory : Memory} (h : Moves functions K a p q)
    (ht : Traps functions K q trap memory) : Traps functions K p trap memory := by
  intro t
  obtain ⟨k, t', -, hk⟩ := h t
  exact Machine.ends_of_steps hk (ht t')

theorem Moves.returns {s : Scope} (h : Moves functions K a p q) (hr : Returns functions K q s) :
    Returns functions K p s := by
  intro t
  obtain ⟨k, t₁, -, hk⟩ := h t
  obtain ⟨l, t₂, hl⟩ := hr t₁
  exact ⟨k + l, t₂, hk.trans hl⟩

theorem moves_of_step (h : ∀ t, step functions (K.machine p t) = .ok () (K.machine q (t + 1))) :
    Moves functions K 1 p q :=
  fun t => ⟨1, t + 1, Nat.le_refl 1, .single (K.machine_frames_ne_nil p t) (h t)⟩

/-! ## One step -/

variable {ip next : Nat} {ms : List Marker} {s : Scope} {i : Instruction}

/-- The activation in which an instruction is executed: the next one is behind it. -/
def Context.activation (K : Context) (next : Nat) (ms : List Marker) (s : Scope) : Activation :=
  ⟨K.frame ⟨next, ms, .normal, s⟩, s.stack, s.memory⟩

theorem step_executing (hK : K.In functions)
    (hp : StandsAt K.function.body ip i.encode) {flow : Flow} {a : Activation}
    (he : Activation.execute i (K.activation (ip + i.encode.length) ms s) = .ok flow a) (t : Nat) :
    step functions (K.machine ⟨ip, ms, .normal, s⟩ t) =
      Machine.follow functions flow
        ⟨a.frame :: K.callers, K.calls.depth, K.calls.live, a.stack, a.memory, t + 1⟩ := by
  have hf := Machine.fetch_eq_ok_iff.mpr (Instruction.decodeAt_encode hp)
  exact Machine.step_of_advance rfl hK ((Machine.advance_of_normal rfl hf).trans he)

theorem step_trapping (hK : K.In functions)
    (hp : StandsAt K.function.body ip i.encode) {trap : Trap} {a : Activation}
    (he : Activation.execute i (K.activation (ip + i.encode.length) ms s) = .error trap a) :
    Traps functions K ⟨ip, ms, .normal, s⟩ trap a.memory := by
  intro t
  have hf := Machine.fetch_eq_ok_iff.mpr (Instruction.decodeAt_encode hp)
  have hs : step functions (K.machine ⟨ip, ms, .normal, s⟩ t) = .error trap
      ⟨a.frame :: K.callers, K.calls.depth, K.calls.live, a.stack, a.memory, t + 1⟩ :=
    Machine.step_of_advance_error rfl hK ((Machine.advance_of_normal rfl hf).trans he)
  exact Machine.ends_of_step_error (K.machine_frames_ne_nil _ t) hs

theorem step_skipping {reason : SkipReason} {d : Nat} (hK : K.In functions)
    (hp : StandsAt K.function.body ip i.encode) (t : Nat) :
    step functions (K.machine ⟨ip, ms, .skipping reason d, s⟩ t) =
      Machine.follow functions
        ((K.frame ⟨ip + i.encode.length, ms, .skipping reason d, s⟩).skip s.stack.size i).1
        ⟨((K.frame ⟨ip + i.encode.length, ms, .skipping reason d, s⟩).skip s.stack.size i).2 ::
          K.callers, K.calls.depth, K.calls.live, s.stack, s.memory, t + 1⟩ := by
  have hf := Machine.fetch_eq_ok_iff.mpr (Instruction.decodeAt_encode hp)
  have hadvance : Machine.advance K.function.body
      ⟨K.frame ⟨ip, ms, .skipping reason d, s⟩, s.stack, s.memory⟩ = _ :=
    Machine.advance_of_skipping rfl hf
  exact Machine.step_of_advance (m := K.machine ⟨ip, ms, .skipping reason d, s⟩ t) rfl hK hadvance

/-! ## Skipping -/

variable {reason : SkipReason} {d : Nat} {kind : BlockKind} {type : BlockType} {m : Marker}

/-- The marker of a construct that is opened in front of `start`. -/
def opened (kind : BlockKind) (type : BlockType) (s : Scope) (start : Nat) : Marker :=
  ⟨kind, type, s.stack.size, start⟩

theorem moves_skip_else {state : FlowState} (hK : K.In functions)
    (hp : StandsAt K.function.body ip Instruction.elseMark.encode)
    (hs : (FlowState.skipping reason d).afterElse ms.length = state) :
    Moves functions K 1 ⟨ip, ms, .skipping reason d, s⟩
      ⟨ip + Instruction.elseMark.encode.length, ms, state, s⟩ := by
  refine moves_of_step fun t => ?_
  rw [step_skipping hK hp, ← hs]
  rfl

theorem moves_skip_end {state : FlowState} (hK : K.In functions)
    (hp : StandsAt K.function.body ip Instruction.endMark.encode) (hms : ms ≠ [])
    (hs : (FlowState.skipping reason d).afterEnd (ms.length + 1) = state) :
    Moves functions K 1 ⟨ip, m :: ms, .skipping reason d, s⟩
      ⟨ip + Instruction.endMark.encode.length, ms, state, s⟩ := by
  refine moves_of_step fun t => ?_
  rw [step_skipping hK hp, ← hs]
  obtain ⟨m', ms', rfl⟩ := List.exists_cons_of_ne_nil hms
  rfl

theorem moves_skip_code (hK : K.In functions) (c : Code)
    (hp : StandsAt K.function.body ip c.bytes) (hms : ms ≠ []) (hd : d ≤ ms.length) :
    Moves functions K 0 ⟨ip, ms, .skipping reason d, s⟩
      ⟨ip + c.bytes.length, ms, .skipping reason d, s⟩ := by
  intro t
  have hskips := skips_code (a := ⟨K.frame ⟨ip, ms, .skipping reason d, s⟩, s.stack, s.memory⟩) rfl
    c hp hms hd
  exact ⟨_, _, Nat.zero_le _, hskips.steps hK K.callers K.calls.depth K.calls.live t⟩

/-! ## Executing -/

theorem moves_executing (hK : K.In functions) (hp : StandsAt K.function.body ip i.encode)
    {a : Activation}
    (he : Activation.execute i (K.activation (ip + i.encode.length) ms s) = .ok .next a)
    (hq : ∀ t, K.machine q t =
      ⟨a.frame :: K.callers, K.calls.depth, K.calls.live, a.stack, a.memory, t⟩) :
    Moves functions K 1 ⟨ip, ms, .normal, s⟩ q := by
  refine moves_of_step fun t => ?_
  rw [step_executing hK hp he, hq]
  rfl

variable {s₁ : Scope} {trap : Trap} {condition : Word}

theorem moves_basic (hK : K.In functions) (hp : StandsAt K.function.body ip i.encode)
    (hi : i.isBasic = true) (he : Scope.effect i s = .ok () s₁) :
    Moves functions K 1 ⟨ip, ms, .normal, s⟩ ⟨ip + i.encode.length, ms, .normal, s₁⟩ := by
  have hx : Activation.onScope (Scope.effect i) (K.activation (ip + i.encode.length) ms s) =
      .ok () (K.activation (ip + i.encode.length) ms s₁) := by
    have hscope : (K.activation (ip + i.encode.length) ms s).scope = s := rfl
    rw [Activation.onScope, hscope, he]
    rfl
  refine moves_executing hK hp (a := K.activation (ip + i.encode.length) ms s₁) ?_ fun t => rfl
  rw [Activation.execute_basic hi]
  exact bind_of_ok hx

theorem traps_basic (hK : K.In functions) (hp : StandsAt K.function.body ip i.encode)
    (hi : i.isBasic = true) (he : Scope.effect i s = .error trap s₁) :
    Traps functions K ⟨ip, ms, .normal, s⟩ trap s₁.memory := by
  have hx : Activation.onScope (Scope.effect i) (K.activation (ip + i.encode.length) ms s) =
      .error trap (K.activation (ip + i.encode.length) ms s₁) := by
    have hscope : (K.activation (ip + i.encode.length) ms s).scope = s := rfl
    rw [Activation.onScope, hscope, he]
    rfl
  refine step_trapping hK hp (a := K.activation (ip + i.encode.length) ms s₁) ?_
  rw [Activation.execute_basic hi]
  exact bind_of_error hx

theorem moves_enter (hK : K.In functions) (hkind : kind ≠ .cond)
    (hp : StandsAt K.function.body ip (Instruction.enter kind type).encode) :
    Moves functions K 1 ⟨ip, ms, .normal, s⟩
      ⟨ip + (Instruction.enter kind type).encode.length,
        opened kind type s (ip + (Instruction.enter kind type).encode.length) :: ms,
        .normal, s⟩ := by
  refine moves_executing hK hp (a := ⟨K.frame ⟨_, _ :: ms, .normal, s⟩, s.stack, s.memory⟩) ?_
    fun t => rfl
  cases kind with
  | block => rfl
  | loop => rfl
  | cond => exact absurd rfl hkind

/-- The state in which an `if` is entered at a depth. -/
def ifState (condition : Word) (depth : Nat) : FlowState :=
  if condition = 0 then .skipping .inactiveIf depth else .normal

section OnStack

variable {α : Type} {x : StackM α} {v : α}

theorem onStack_ok (h : Scope.onStack x s = .ok v s₁) :
    Activation.onStack x (K.activation next ms s) = .ok v (K.activation next ms s₁) := by
  have hscope : (K.activation next ms s).scope = s := rfl
  rw [← Activation.onScope_onStack, Activation.onScope, hscope, h]
  rfl

theorem onStack_error (h : Scope.onStack x s = .error trap s₁) :
    Activation.onStack x (K.activation next ms s) = .error trap (K.activation next ms s₁) := by
  have hscope : (K.activation next ms s).scope = s := rfl
  rw [← Activation.onScope_onStack, Activation.onScope, hscope, h]
  rfl

end OnStack

theorem pop_ok (h : Scope.pop s = .ok condition s₁) :
    Activation.onStack OperandStack.pop (K.activation next ms s) =
      .ok condition (K.activation next ms s₁) :=
  onStack_ok (Scope.onStack_pop ▸ h)

theorem pop_error (h : Scope.pop s = .error trap s₁) :
    Activation.onStack OperandStack.pop (K.activation next ms s) =
      .error trap (K.activation next ms s₁) :=
  onStack_error (Scope.onStack_pop ▸ h)

theorem moves_if (hK : K.In functions)
    (hp : StandsAt K.function.body ip (Instruction.enter .cond type).encode)
    (hc : Scope.pop s = .ok condition s₁) :
    Moves functions K 1 ⟨ip, ms, .normal, s⟩
      ⟨ip + (Instruction.enter .cond type).encode.length,
        opened .cond type s₁ (ip + (Instruction.enter .cond type).encode.length) :: ms,
        ifState condition (ms.length + 1), s₁⟩ := by
  have hx : Activation.enterIf type
      (K.activation (ip + (Instruction.enter .cond type).encode.length) ms s) =
        .ok () ⟨K.frame ⟨ip + (Instruction.enter .cond type).encode.length,
          opened .cond type s₁ (ip + (Instruction.enter .cond type).encode.length) :: ms,
          ifState condition (ms.length + 1), s₁⟩, s₁.stack, s₁.memory⟩ := by
    refine (bind_of_ok (pop_ok hc)).trans ?_
    unfold ifState
    by_cases h0 : condition = 0
    · rw [if_pos h0, if_pos h0]
      rfl
    · rw [if_neg h0, if_neg h0]
      rfl
  exact moves_executing hK hp (bind_of_ok hx) fun t => rfl

theorem traps_if (hK : K.In functions)
    (hp : StandsAt K.function.body ip (Instruction.enter .cond type).encode)
    (hc : Scope.pop s = .error trap s₁) :
    Traps functions K ⟨ip, ms, .normal, s⟩ trap s₁.memory :=
  step_trapping hK hp (bind_of_error (bind_of_error (pop_error hc)))

theorem moves_else (hK : K.In functions)
    (hp : StandsAt K.function.body ip Instruction.elseMark.encode) {start : Nat} :
    Moves functions K 1 ⟨ip, opened .cond type s₁ start :: ms, .normal, s⟩
      ⟨ip + Instruction.elseMark.encode.length, opened .cond type s₁ start :: ms,
        .skipping .takenIf (ms.length + 1), s⟩ :=
  moves_executing hK hp
    (a := ⟨K.frame ⟨_, _ :: ms, .skipping .takenIf (ms.length + 1), s⟩, s.stack, s.memory⟩) rfl
    fun _ => rfl

theorem moves_end (hK : K.In functions)
    (hp : StandsAt K.function.body ip Instruction.endMark.encode) (hms : ms ≠ []) :
    Moves functions K 1 ⟨ip, m :: ms, .normal, s⟩
      ⟨ip + Instruction.endMark.encode.length, ms, .normal, s⟩ := by
  obtain ⟨m', ms', rfl⟩ := List.exists_cons_of_ne_nil hms
  exact moves_executing hK hp
    (a := ⟨K.frame ⟨_, m' :: ms', .normal, s⟩, s.stack, s.memory⟩) rfl fun _ => rfl

/-! ## Returning -/

/-- What the end of a function comes to. -/
def Finishes (functions : Array Function) (K : Context) (p : Point) :
    EStateM.Result Trap Scope Unit → Prop
  | .ok _ s => Returns functions K p s
  | .error trap s => Traps functions K p trap s.memory

theorem Moves.finishes {r : EStateM.Result Trap Scope Unit} (h : Moves functions K a p q)
    (hf : Finishes functions K q r) : Finishes functions K p r := by
  cases r with
  | ok u s => exact h.returns hf
  | error trap s => exact h.traps hf

theorem finishes_executing (hK : K.In functions) (hp : StandsAt K.function.body ip i.encode)
    {a : Activation}
    (he : Activation.execute i (K.activation (ip + i.encode.length) ms s) = .ok .ret a)
    (ha : ∃ next ms', a = K.activation next ms' s₁) :
    Finishes functions K ⟨ip, ms, .normal, s⟩ (checkArity K.function K.base s₁) := by
  obtain ⟨next, ms', rfl⟩ := ha
  unfold checkArity
  by_cases h : s₁.operands.length - K.base = K.function.resultCount
  · rw [if_pos h]
    intro t
    refine ⟨1, t + 1, .single (K.machine_frames_ne_nil _ t) ?_⟩
    rw [step_executing hK hp he]
    exact if_pos h
  · rw [if_neg h]
    intro t
    have hs := step_executing (t := t) hK hp he
    refine Machine.ends_of_step_error (K.machine_frames_ne_nil _ t) (hs.trans (if_neg h))

theorem finishes_end (hK : K.In functions)
    (hp : StandsAt K.function.body ip Instruction.endMark.encode) :
    Finishes functions K ⟨ip, [m], .normal, s⟩ (checkArity K.function K.base s) :=
  finishes_executing hK hp rfl ⟨_, [], rfl⟩

theorem finishes_ret (hK : K.In functions)
    (hp : StandsAt K.function.body ip Instruction.ret.encode) :
    Finishes functions K ⟨ip, ms, .normal, s⟩ (checkArity K.function K.base s) :=
  finishes_executing hK hp rfl ⟨_, ms, rfl⟩

/-! ## Branching -/

/-- Where a branch leads that is taken inside code and has `label` of the constructs around the
code to leave. Skipping goes on behind the code, at `stop`. -/
def Branches (functions : Array Function) (K : Context) (ms : List Marker) (stop : Nat) (p : Point)
    (label named : Nat) (s : Scope) : Prop :=
  match ms.drop label with
  | [] => Traps functions K p (.branchDepth named) s.memory
  | target :: outer =>
    if target.kind = .loop then
      Moves functions K 1 p ⟨target.start, target :: outer, .normal, s.cut target.height⟩
    else
      match Scope.keep target.type.arity target.height s with
      | .error trap s => Traps functions K p trap s.memory
      | .ok _ s =>
        if outer = [] then Finishes functions K p (checkArity K.function K.base s)
        else Moves functions K 1 p ⟨stop, ms, .skipping .branch (outer.length + 1), s⟩

theorem branches_executing {label : Word} (hK : K.In functions)
    (hp : StandsAt K.function.body ip i.encode)
    (he : Activation.execute i (K.activation (ip + i.encode.length) ms s) =
      Activation.branch label (K.activation (ip + i.encode.length) ms s₁)) :
    Branches functions K ms (ip + i.encode.length) ⟨ip, ms, .normal, s⟩ label.toNat label.toNat
      s₁ := by
  unfold Branches
  rw [Activation.branch] at he
  have hms : (K.activation (ip + i.encode.length) ms s₁).frame.markers = ms := rfl
  rw [hms] at he
  cases hd : ms.drop label.toNat with
  | nil =>
    simp only [hd] at he ⊢
    exact step_trapping hK hp he
  | cons target outer =>
    simp only [hd] at he ⊢
    by_cases hk : target.kind = .loop
    · rw [if_pos hk] at he ⊢
      refine moves_executing hK hp he fun t => ?_
      rw [Context.machine, Scope.stack_cut]
      rfl
    · rw [if_neg hk] at he ⊢
      have harity : target.branchArity = target.type.arity := by
        unfold Marker.branchArity
        cases h : target.kind <;> simp_all
      rw [Activation.leave, harity] at he
      rw [Scope.keep_eq]
      cases hr : Scope.onStack (OperandStack.popMany target.type.arity) s₁ with
      | error trap s₂ =>
        rw [bind_of_error hr]
        rw [bind_of_error (onStack_error hr)] at he
        exact step_trapping hK hp he
      | ok results s₂ =>
        rw [bind_of_ok hr]
        rw [bind_of_ok (onStack_ok hr)] at he
        cases outer with
        | nil => exact finishes_executing hK hp he ⟨_, [], rfl⟩
        | cons m' ms' => exact moves_executing hK hp he fun t => rfl

end WasmI32.Structured
