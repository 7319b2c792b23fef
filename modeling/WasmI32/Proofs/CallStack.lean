import WasmI32.Proofs.Displacement.Operands
import WasmI32.Proofs.Nesting

/-!
# The call stack

`Machine.Moved` says what a step can do to the frames and to the operand stack: the running frame
goes on, calls or returns, and never reaches below the floor of the stack. What a machine knows of
its frames is kept up with exactly: their number, and the number of their local slots. Nothing is
assumed of the code, and nothing is said of a step that traps.
-/

namespace WasmI32

/-! ## What an instruction leaves of its frame and of the stack -/

/-- What an activation never changes of its frame. -/
structure Frame.Identity where
  function : Nat
  base : Nat
  resultCount : Nat
  localCount : Nat
  deriving DecidableEq

def Frame.identity (f : Frame) : Frame.Identity :=
  ⟨f.function, f.base, f.resultCount, f.locals.size⟩

namespace Activation

variable {a a' : Activation} {flow : Flow} {i : Instruction}

/-! ### The stack -/

theorem Branches.sameBelow {label : Word} (h : Branches label a flow a')
    (ha : a.stack.floor ≤ a.stack.size) : a.stack.SameBelow a'.stack := by
  cases h with
  | restart => exact OperandStack.sameBelow_truncate ha _
  | skip _ _ _ hpop => exact OperandStack.sameBelow_of_keep hpop _
  | ret _ _ hpop => exact OperandStack.sameBelow_of_keep hpop _

theorem Controls.sameBelow (h : Controls a i flow a') (ha : a.stack.floor ≤ a.stack.size) :
    a.stack.SameBelow a'.stack := by
  cases h with
  | enter | elseMark | endMark | ret | call => exact .refl ha
  | enterIf hpop => exact OperandStack.sameBelow_of_pop hpop
  | stay _ hpop => exact OperandStack.sameBelow_of_pop hpop
  | br h => exact h.sameBelow ha
  | brIf hpop _ h =>
    have hcondition := OperandStack.sameBelow_of_pop hpop
    exact hcondition.trans (h.sameBelow hcondition.floor_le)

theorem ControlTraps.sameBelow {trap : Trap} {stack : OperandStack}
    (h : ControlTraps a i trap stack) (ha : a.stack.floor ≤ a.stack.size) :
    a.stack.SameBelow stack := by
  cases h with
  | enterIf | elseMark | br | condition => exact .refl ha
  | brIf hpop => exact OperandStack.sameBelow_of_pop hpop

/-- No instruction reaches below the floor, also when it traps. -/
theorem sameBelow_execute (i : Instruction) (ha : a.stack.floor ≤ a.stack.size) :
    a.stack.SameBelow (stateOf (execute i a)).stack := by
  have hbasic : a.stack.SameBelow (stateOf (Structured.Scope.effect i a.scope)).stack :=
    Structured.Scope.sameBelow_effect i (s := a.scope) ha
  cases h : execute i a with
  | ok flow a' =>
    obtain hc | ⟨-, -, s, hs, rfl⟩ := execute_eq_ok h
    · exact hc.sameBelow ha
    · rw [hs] at hbasic
      exact hbasic
  | error trap a' =>
    obtain ⟨stack, hc, rfl⟩ | ⟨-, s, hs, rfl⟩ := execute_eq_error h
    · exact hc.sameBelow ha
    · rw [hs] at hbasic
      exact hbasic

/-! ### The identity of the frame -/

def identity (a : Activation) : Frame.Identity := a.frame.identity

theorem identity_withScope {s : Structured.Scope} (hs : s.shape = a.scope.shape) :
    (a.withScope s).identity = a.identity :=
  congrArg (Frame.Identity.mk _ _ _) (congrArg Prod.snd hs)

theorem Controls.identity_eq (h : Controls a i flow a') : a'.identity = a.identity := by
  cases h with
  | enter | enterIf | elseMark | endMark | stay | ret | call => rfl
  | br h => cases h <;> rfl
  | brIf _ _ h => cases h <;> rfl

/-- No instruction changes what a frame is an activation of. -/
theorem keeps_identity_execute (i : Instruction) : Keeps identity (execute i) := by
  intro a
  have hshape := Structured.Scope.keeps_effect i a.scope
  cases h : execute i a with
  | ok flow a' =>
    obtain hc | ⟨-, -, s, hs, rfl⟩ := execute_eq_ok h
    · exact hc.identity_eq
    · rw [hs] at hshape
      exact identity_withScope hshape
  | error trap a' =>
    obtain ⟨stack, -, rfl⟩ | ⟨-, s, hs, rfl⟩ := execute_eq_error h
    · rfl
    · rw [hs] at hshape
      exact identity_withScope hshape

end Activation

theorem Frame.identity_skip (f : Frame) (height : Nat) (i : Instruction) :
    (f.skip height i).2.identity = f.identity := by
  cases i <;> rfl

namespace Machine

variable {functions : Array Function} {m m' : Machine} {index : Nat} {args : Array Word}
  {frame : Frame} {callers : List Frame}

theorem keeps_identity_advance (body : Array UInt8) : Keeps Activation.identity (advance body) := by
  rintro ⟨frame, stack, memory⟩
  unfold advance
  cases fetch body frame.ip with
  | error trap => rfl
  | ok found =>
    simp only
    split
    · exact Frame.identity_skip _ _ _
    · exact Activation.keeps_identity_execute _ _

theorem sameBelow_advance (body : Array UInt8) {a : Activation}
    (ha : a.stack.floor ≤ a.stack.size) :
    a.stack.SameBelow (stateOf (advance body a)).stack := by
  obtain ⟨frame, stack, memory⟩ := a
  unfold advance
  cases fetch body frame.ip with
  | error trap => exact .refl ha
  | ok found =>
    simp only
    split
    · exact .refl ha
    · exact Activation.sameBelow_execute (a := ⟨{ frame with ip := found.2 }, stack, memory⟩)
        found.1 ha

/-! ## What a step can do -/

theorem size_locals_create (index : Nat) (f : Function) (args : Array Word) (base : Nat) :
    (Frame.create index f args base).locals.size = f.frameSize := by
  simp only [Frame.create, Array.size_append, Array.take_eq_extract, Array.size_extract,
    Array.size_replicate]
  omega

/-- What a step of a frame with these callers can do to the call stack and the operand stack. In
each case the frame has first gone on, within its part of the operand stack. -/
inductive Moved (functions : Array Function) (m : Machine) (frame : Frame) (callers : List Frame) :
    Machine → Prop
  | next {frame₁ : Frame} {stack : OperandStack} {memory : Memory}
    (hid : frame₁.identity = frame.identity)
    (hs : m.stack.floor ≤ m.stack.size → m.stack.SameBelow stack) :
    Moved functions m frame callers
      ⟨frame₁ :: callers, m.depth, m.liveLocals, stack, memory, m.steps + 1⟩
  | call {frame₁ : Frame} {stack : OperandStack} {memory : Memory} {index : Nat} {f : Function}
    {args : Array Word} (hid : frame₁.identity = frame.identity)
    (hs : m.stack.floor ≤ m.stack.size → m.stack.SameBelow stack)
    (hf : functions[index]? = some f) (hroom : ¬ m.Exhausted f.frameSize) :
    Moved functions m frame callers
      ⟨Frame.create index f args stack.size :: frame₁ :: callers, m.depth + 1,
        m.liveLocals + f.frameSize, stack.withFloor stack.size, memory, m.steps + 1⟩
  | ret {stack : OperandStack} {memory : Memory}
    (hs : m.stack.floor ≤ m.stack.size → m.stack.SameBelow stack)
    (hr : stack.size - frame.base = frame.resultCount) :
    Moved functions m frame callers
      ⟨callers, m.depth - 1, m.liveLocals - frame.locals.size, stack.withFloor (baseOf callers),
        memory, m.steps + 1⟩

theorem moved_of_step (hm : m.frames = frame :: callers) (h : step functions m = .ok () m') :
    Moved functions m frame callers m' := by
  obtain ⟨f, flow, a, -, ha, hfollow⟩ := step_eq_ok hm h
  have hid : a.frame.identity = frame.identity := by
    have hk := keeps_identity_advance f.body ⟨frame, m.stack, m.memory⟩
    rwa [ha] at hk
  have hs : m.stack.floor ≤ m.stack.size → m.stack.SameBelow a.stack := by
    intro hle
    have hg := sameBelow_advance f.body (a := ⟨frame, m.stack, m.memory⟩) hle
    rwa [ha] at hg
  cases follows_of_follow rfl hfollow with
  | next => exact .next hid hs
  | @call index g args stack hg hroom hpop =>
    have hargs := OperandStack.sameBelow_of_popMany hpop
    exact .call hid (fun hle => (hs hle).trans hargs) hg hroom
  | ret hr =>
    simp only [Frame.identity, Frame.Identity.mk.injEq] at hid
    obtain ⟨-, hbase, hcount, hlocals⟩ := hid
    rw [hbase, hcount] at hr
    rw [hlocals]
    exact .ret hs hr

/-! ## Accounts -/

/-- Every frame is one of a function of the module, and the machine counts its frames and their
local slots exactly. -/
structure Accounted (functions : Array Function) (m : Machine) : Prop where
  known : ∀ frame ∈ m.frames, ∃ f, functions[frame.function]? = some f ∧
    frame.resultCount = f.resultCount ∧ frame.locals.size = f.frameSize
  depth_eq : m.depth = m.frames.length
  live_eq : m.liveLocals = (m.frames.map fun frame => frame.locals.size).sum

theorem accounted_started {f : Function} (hf : functions[index]? = some f) (args : Array Word)
    (memory : Memory) : (started index f args memory).Accounted functions := by
  have hsize := size_locals_create index f args 0
  refine ⟨?_, rfl, ?_⟩
  · intro frame hframe
    obtain rfl := List.mem_singleton.mp hframe
    exact ⟨f, hf, rfl, hsize⟩
  · simp [started, hsize]

theorem Accounted.step (ha : m.Accounted functions) (hm : m.frames ≠ [])
    (h : step functions m = .ok () m') : m'.Accounted functions := by
  obtain ⟨frame, callers, hframes⟩ := List.exists_cons_of_ne_nil hm
  obtain ⟨hknown, hdepth, hlive⟩ := ha
  rw [hframes] at hknown hdepth hlive
  simp only [List.length_cons, List.map_cons, List.sum_cons] at hdepth hlive
  obtain ⟨hframe, hcallers⟩ := List.forall_mem_cons.mp hknown
  -- a frame that has gone on is still one of its function
  have hknown₁ {frame₁ : Frame} (hid : frame₁.identity = frame.identity) :
      ∃ f, functions[frame₁.function]? = some f ∧ frame₁.resultCount = f.resultCount ∧
        frame₁.locals.size = f.frameSize := by
    simp only [Frame.identity, Frame.Identity.mk.injEq] at hid
    obtain ⟨hfun, -, hcount, hlocals⟩ := hid
    rwa [hfun, hcount, hlocals]
  have hlocals₁ {frame₁ : Frame} (hid : frame₁.identity = frame.identity) :
      frame₁.locals.size = frame.locals.size := congrArg Frame.Identity.localCount hid
  cases moved_of_step hframes h with
  | next hid hs =>
    refine ⟨List.forall_mem_cons.mpr ⟨hknown₁ hid, hcallers⟩, hdepth, ?_⟩
    simp only [List.map_cons, List.sum_cons, hlocals₁ hid, hlive]
  | @call frame₁ stack memory index f args hid hs hf hroom =>
    have hsize := size_locals_create index f args stack.size
    refine ⟨List.forall_mem_cons.mpr ⟨⟨f, hf, rfl, hsize⟩,
      List.forall_mem_cons.mpr ⟨hknown₁ hid, hcallers⟩⟩, ?_, ?_⟩
    · simp only [List.length_cons, hdepth]
    · simp only [List.map_cons, List.sum_cons, hsize, hlocals₁ hid, hlive]
      omega
  | ret hs hr =>
    refine ⟨hcallers, ?_, ?_⟩
    · simp only [hdepth, Nat.add_sub_cancel]
    · simp only [hlive, Nat.add_sub_cancel_left]

theorem Accounted.steps {n : Nat} (ha : m.Accounted functions) (h : Steps functions n m m') :
    m'.Accounted functions :=
  h.preserves (fun hm hs ha => ha.step hm hs) ha

theorem accounted_running {n : Nat} (h : m.invoke functions index args n = .running m') :
    m'.Accounted functions :=
  running_induction h (fun _ hf _ _ => accounted_started hf args m.memory)
    fun hm hs ha => ha.step hm hs

end Machine

end WasmI32
