import WasmI32.Proofs.Traps

/-!
# The limits on the call stack

A machine counts its frames and their local slots as it calls and returns, and goes by these counts
when it refuses a call. In every state that it comes to, through any number of invocations and also
behind traps, the counts are those of the frames themselves. So a call is refused exactly when the
frames leave no room for it, and a refused call changes nothing.
-/

namespace WasmI32.Machine

/-! ## The states of a machine -/

/-- The machine that an invocation has come to, or has left. -/
def Progress.machine : Progress → Machine
  | running m | finished _ m | trapped _ m => m

/-- The states that a machine with this memory comes to: between the steps of an invocation, and
after one that has ended. -/
inductive Visited (functions : Array Function) (memory : Memory) : Machine → Prop
  | create : Visited functions memory (create memory)
  | invoke {m : Machine} (h : Visited functions memory m) (index : Nat) (args : Array Word)
    (fuel : Nat) : Visited functions memory (m.invoke functions index args fuel).machine

variable {functions : Array Function} {m m' : Machine} {index : Nat} {args : Array Word}
  {f : Function} {memory : Memory}

/-! ## Counts within the limits -/

/-- The accounts are exact and within the limits. -/
structure Limited (functions : Array Function) (m : Machine) : Prop
    extends Accounted functions m where
  depth_le : m.depth ≤ Limits.callDepth
  live_le : m.liveLocals ≤ Limits.totalLocals

theorem limited_of_frames_nil (hframes : m.frames = []) (hdepth : m.depth = 0)
    (hlive : m.liveLocals = 0) : m.Limited functions where
  known := by simp [hframes]
  depth_eq := by simp [hframes, hdepth]
  live_eq := by simp [hframes, hlive]
  depth_le := by simp [hdepth]
  live_le := by simp [hlive]

theorem limited_started (hf : functions[index]? = some f)
    (hroom : ¬ (create memory).Exhausted f.frameSize) :
    (started index f args memory).Limited functions := by
  refine ⟨accounted_started hf args memory, ?_, ?_⟩
  · show 1 ≤ Limits.callDepth
    decide
  · show f.frameSize ≤ Limits.totalLocals
    simp only [Exhausted, create, not_or] at hroom
    omega

/-- A call keeps to the limits because it is refused else. -/
theorem Limited.step (hl : m.Limited functions) (hm : m.frames ≠ [])
    (h : step functions m = .ok () m') : m'.Limited functions := by
  have hbounds : m'.depth ≤ Limits.callDepth ∧ m'.liveLocals ≤ Limits.totalLocals := by
    obtain ⟨frame, callers, hframes⟩ := List.exists_cons_of_ne_nil hm
    cases moved_of_step hframes h with
    | next hid hs => exact ⟨hl.depth_le, hl.live_le⟩
    | call hid hs hf hroom =>
      simp only [Exhausted, not_or, not_le, not_lt] at hroom
      exact hroom
    | ret hs hr =>
      exact ⟨(Nat.sub_le _ _).trans hl.depth_le, (Nat.sub_le _ _).trans hl.live_le⟩
  exact ⟨hl.toAccounted.step hm h, hbounds.1, hbounds.2⟩

theorem limited_running {n : Nat} (h : m.invoke functions index args n = .running m') :
    m'.Limited functions :=
  running_induction h (fun _ hf _ hroom => limited_started hf hroom) fun hm hs hl => hl.step hm hs

/-- A trap leaves the accounts as they were. -/
theorem Limited.spared (hl : m.Limited functions) (h : m.Spared m') : m'.Limited functions := by
  obtain ⟨frame, callers, ip, markers, hframes, hframes'⟩ := h.frames
  obtain ⟨⟨hknown, hdepth, hlive⟩, hdepth', hlive'⟩ := hl
  rw [hframes] at hknown hdepth hlive
  rw [← h.depth] at hdepth hdepth'
  rw [← h.liveLocals] at hlive hlive'
  refine ⟨⟨?_, ?_, ?_⟩, hdepth', hlive'⟩
  · rw [hframes']
    obtain ⟨hframe, hcallers⟩ := List.forall_mem_cons.mp hknown
    exact List.forall_mem_cons.mpr ⟨hframe, hcallers⟩
  · rw [hframes', hdepth]
    rfl
  · rw [hframes', hlive]
    rfl

theorem limited_invoke (m : Machine) (functions : Array Function) (index : Nat) (args : Array Word)
    (n : Nat) : (m.invoke functions index args n).machine.Limited functions := by
  cases h : m.invoke functions index args n with
  | running m' => exact limited_running h
  | finished results m' =>
    obtain ⟨k, -, m₁, hrun, -, hdrain⟩ := invoke_eq_finished h
    obtain ⟨⟨hknown, hdepth, hlive⟩, hdepth', hlive'⟩ := limited_running hrun
    cases hdrain
    exact ⟨⟨hknown, hdepth, hlive⟩, hdepth', hlive'⟩
  | trapped report m' =>
    rcases invoke_eq_trapped h with hrefused | ⟨k, -, m₁, hrun, hstep⟩
    · obtain ⟨stack, rfl⟩ := start_eq_trapped hrefused
      exact limited_of_frames_nil rfl rfl rfl
    · obtain ⟨hformed, hlayout⟩ := formed_running hrun
      have hl := limited_running hrun
      exact hl.spared (spared_of_step_error hformed hlayout hl.toAccounted hstep)

theorem Visited.limited (h : Visited functions memory m) : m.Limited functions := by
  cases h with
  | create => exact limited_of_frames_nil rfl rfl rfl
  | invoke _ index args fuel => exact limited_invoke _ functions index args fuel

/-! ## Refused calls -/

/-- The local slots of all frames. -/
def slots (m : Machine) : Nat := (m.frames.map fun frame => frame.locals.size).sum

/-- The frames leave no room for one more, with this number of local slots. -/
def Full (m : Machine) (size : Nat) : Prop :=
  Limits.callDepth ≤ m.frames.length ∨ Limits.totalLocals < m.slots + size

instance (m : Machine) (size : Nat) : Decidable (m.Full size) := inferInstanceAs (Decidable (_ ∨ _))

theorem Accounted.exhausted_iff (ha : m.Accounted functions) (size : Nat) :
    m.Exhausted size ↔ m.Full size := by
  rw [Exhausted, Full, ha.depth_eq, ha.live_eq, slots]

theorem call_exhausted_iff (hf : functions[index]? = some f) :
    (∃ m', call functions index m = .error .callStackExhausted m') ↔ m.Exhausted f.frameSize := by
  constructor
  · rintro ⟨m', h⟩
    obtain ⟨-, ⟨-, htrap⟩ | ⟨g, hg, ⟨hroom, -⟩ | ⟨-, -, htrap⟩⟩⟩ := call_eq_error h
    · cases htrap
    · obtain rfl : f = g := Option.some.inj (hf.symm.trans hg)
      exact hroom
    · cases htrap
  · intro hroom
    exact ⟨m, by simp only [call, hf, hroom, if_true]⟩

/-- An entry with the right number of arguments is a call on an empty call stack. -/
theorem enter_of_size_eq (hf : functions[index]? = some f) (hargs : args.size = f.parameterCount) :
    enter functions index args m =
      call functions index { create m.memory with stack := { values := args } } := by
  have happend : OperandStack.append {} args = { values := args } := by
    rw [OperandStack.append, Array.empty_append]
  simp only [enter, hf, hargs, ne_eq, not_true_eq_false, if_false, create, happend]

theorem enter_exhausted_iff (hf : functions[index]? = some f)
    (hargs : args.size = f.parameterCount) :
    (∃ m', enter functions index args m = .error .callStackExhausted m') ↔
      (create m.memory).Exhausted f.frameSize := by
  rw [enter_of_size_eq hf hargs]
  exact call_exhausted_iff hf

/-- The next instruction of the machine is a call, with these frames behind it. -/
def AtCall (functions : Array Function) (m : Machine) (callee : Word) (waiting : List Frame) :
    Prop :=
  ∃ frame callers g next, m.frames = frame :: callers ∧ frame.state = .normal ∧
    functions[frame.function]? = some g ∧ fetch g.body frame.ip = .ok (.call callee, next) ∧
    waiting = { frame with ip := next } :: callers

/-- The machine of which such an instruction asks the call. -/
def calling (m : Machine) (waiting : List Frame) : Machine :=
  { m with frames := waiting, steps := m.steps + 1 }

theorem AtCall.step_eq {callee : Word} {waiting : List Frame}
    (h : m.AtCall functions callee waiting) :
    step functions m = call functions callee.toNat (m.calling waiting) := by
  obtain ⟨frame, callers, g, next, hframes, hnormal, hg, hfetch, rfl⟩ := h
  have hadvance : advance g.body ⟨frame, m.stack, m.memory⟩ =
      .ok (.call callee.toNat) ⟨{ frame with ip := next }, m.stack, m.memory⟩ :=
    advance_of_normal hnormal hfetch
  exact step_of_advance hframes hg hadvance

/-- The call stack of a machine in some state: what is counted of it, and when a call of a function
that exists is refused. -/
structure ExactAccounts (functions : Array Function) (m : Machine) : Prop where
  /-- A frame has the local slots of its function, whatever it runs next. -/
  locals : ∀ frame ∈ m.frames, ∃ f, functions[frame.function]? = some f ∧
    frame.locals.size = f.frameSize ∧ ∀ body,
      (stateOf (advance body ⟨frame, m.stack, m.memory⟩)).frame.locals.size = f.frameSize
  live_eq : m.liveLocals = m.slots
  length_le : m.frames.length ≤ Limits.callDepth
  slots_le : m.slots ≤ Limits.totalLocals
  call_iff : ∀ callee f, functions[callee]? = some f →
    ((∃ m', call functions callee m = .error .callStackExhausted m') ↔ m.Full f.frameSize)
  /-- A call by an instruction, behind which the caller waits. -/
  instruction_iff : ∀ callee waiting f, m.AtCall functions callee waiting →
    functions[callee.toNat]? = some f →
    ((∃ m', step functions m = .error .callStackExhausted m') ↔ m.Full f.frameSize)
  /-- An entry, for which the frames of an earlier invocation are dropped. -/
  entry_iff : ∀ index args f, functions[index]? = some f → args.size = f.parameterCount →
    ((∃ m', enter functions index args m = .error .callStackExhausted m') ↔
      (create m.memory).Full f.frameSize)
  call_failed : ∀ callee trap m', call functions callee m = .error trap m' → m' = m
  instruction_failed : ∀ callee waiting trap m', m.AtCall functions callee waiting →
    step functions m = .error trap m' → m' = m.calling waiting
  entry_failed : ∀ index args f trap m', functions[index]? = some f →
    args.size = f.parameterCount → enter functions index args m = .error trap m' →
    m' = { create m.memory with stack := { values := args } }

/-- In every state that a machine comes to, through any invocations and traps, it counts its frames
and local slots exactly, keeps to the limits, and refuses a call only if there is no room. -/
theorem exactAccounts_of_visited (h : Visited functions memory m) : m.ExactAccounts functions := by
  have hl := h.limited
  refine ⟨?_, hl.live_eq, hl.depth_eq ▸ hl.depth_le, ?_, ?_, ?_, ?_, ?_, ?_, ?_⟩
  · intro frame hframe
    obtain ⟨f, hf, -, hsize⟩ := hl.known frame hframe
    refine ⟨f, hf, hsize, fun body => ?_⟩
    have hid := keeps_identity_advance body ⟨frame, m.stack, m.memory⟩
    exact (congrArg Frame.Identity.localCount hid).trans hsize
  · have hle := hl.live_le
    rwa [hl.live_eq] at hle
  · intro callee f hf
    rw [call_exhausted_iff hf, hl.exhausted_iff]
  · intro callee waiting f hcall hf
    rw [hcall.step_eq, call_exhausted_iff hf]
    exact hl.exhausted_iff f.frameSize
  · intro index args f hf hargs
    have hempty : (create m.memory).Limited functions := limited_of_frames_nil rfl rfl rfl
    rw [enter_exhausted_iff hf hargs, hempty.exhausted_iff]
  · exact fun callee trap m' => eq_of_call_error
  · intro callee waiting trap m' hcall hfail
    rw [hcall.step_eq] at hfail
    exact eq_of_call_error hfail
  · intro index args f trap m' hf hargs hfail
    rw [enter_of_size_eq hf hargs] at hfail
    exact eq_of_call_error hfail

/-- The functions of `strayStore`, and one that takes all local slots there may be. -/
def greedy : Array Function := strayStore.push ⟨0, 0, 0, Limits.totalLocals, #[0x0b], 0⟩

/-- Behind the trap of an invocation that has used one local slot, the greedy function is refused as
a callee, but not as an entry. -/
theorem exactAccounts_afterStrayStore :
    Visited greedy .empty afterStrayStore ∧
      (∃ m', call greedy 2 afterStrayStore = .error .callStackExhausted m') ∧
      ¬ ∃ m', enter greedy 2 #[] afterStrayStore = .error .callStackExhausted m' := by
  have hmachine : ((create .empty).invoke greedy 0 #[] 5).machine = afterStrayStore := by
    decide +kernel
  have hvisited : Visited greedy .empty afterStrayStore := hmachine ▸ .invoke .create 0 #[] 5
  have haccounts := exactAccounts_of_visited hvisited
  refine ⟨hvisited, (haccounts.call_iff 2 _ rfl).mpr (by decide), ?_⟩
  rw [haccounts.entry_iff 2 #[] _ rfl rfl]
  decide

end WasmI32.Machine
