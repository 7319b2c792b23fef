import WasmI32.Proofs.Isolation

/-!
# Frames that skip

A frame that skips has a construct pending: one that is open, that is not the function body and at
whose end the skipping ends. So the function body is never closed by a skipped `end`, and a
function is left only by an instruction that is run. Code is not checked before it runs: there may
be an `else` or an `end` where none belongs.
-/

namespace WasmI32

/-- The constructs that may be pending when instructions are skipped for a reason. A branch to a
loop goes back to its start, so that nothing is skipped. -/
def SkipReason.Fits : SkipReason → BlockKind → Prop
  | inactiveIf, kind => kind = .cond
  | takenIf, kind => kind = .cond
  | branch, kind => kind ≠ .loop

/-- A frame that skips has a construct pending among `markers`, with others around it. -/
def FlowState.Pending (markers : List Marker) : FlowState → Prop
  | normal => True
  | skipping reason depth => ∃ inner target outer, markers = inner ++ target :: outer ∧
      outer ≠ [] ∧ depth = outer.length + 1 ∧ reason.Fits target.kind

namespace Frame

/-- The outermost construct of a frame is the function body, none was entered below the base, and
a frame that skips has one pending. -/
structure Formed (f : Frame) : Prop where
  body : ∃ marker, f.markers.getLast? = some marker ∧ marker.kind = .block ∧ marker.height = f.base
  heights : ∀ marker ∈ f.markers, f.base ≤ marker.height
  pending : f.state.Pending f.markers

variable {f f' : Frame}

theorem formed_create (index : Nat) (g : Function) (args : Array Word) (base : Nat) :
    (create index g args base).Formed := by
  refine ⟨⟨bodyMarker g base, rfl, rfl, rfl⟩, ?_, trivial⟩
  intro marker hmem
  obtain rfl := List.mem_singleton.mp hmem
  exact Nat.le_refl base

theorem Formed.markers_ne_nil (hf : f.Formed) : f.markers ≠ [] := by
  obtain ⟨marker, hlast, -⟩ := hf.body
  intro hnil
  rw [hnil] at hlast
  cases hlast

/-- A frame that holds open the outer ones of its constructs is formed if its state is. -/
theorem Formed.outer (hf : f.Formed) (inner : List Marker) {outer : List Marker}
    (hm : f.markers = inner ++ outer) (ho : outer ≠ []) (hbase : f'.base = f.base)
    (hm' : f'.markers = outer) (hp : f'.state.Pending outer) : f'.Formed := by
  obtain ⟨⟨marker, hlast, hkind, hheight⟩, hheights, -⟩ := hf
  refine ⟨⟨marker, ?_, hkind, ?_⟩, ?_, ?_⟩
  · rw [hm', ← hlast, hm, List.getLast?_append_of_ne_nil _ ho]
  · rw [hheight, hbase]
  · intro marker hmem
    rw [hbase]
    apply hheights
    rw [hm]
    rw [hm'] at hmem
    exact List.mem_append_right inner hmem
  · rwa [hm']

theorem Formed.enter {marker : Marker} (hf : f.Formed) (hbase : f'.base = f.base)
    (hm' : f'.markers = marker :: f.markers) (hh : f.base ≤ marker.height)
    (hp : f'.state.Pending (marker :: f.markers)) : f'.Formed := by
  have hne := hf.markers_ne_nil
  obtain ⟨⟨body, hlast, hkind, hheight⟩, hheights, -⟩ := hf
  refine ⟨⟨body, ?_, hkind, ?_⟩, ?_, ?_⟩
  · rw [hm', List.getLast?_cons_of_ne_nil hne, hlast]
  · rw [hheight, hbase]
  · rw [hbase, hm']
    exact List.forall_mem_cons.mpr ⟨hh, hheights⟩
  · rwa [hm']

/-! ## Skipping -/

/-- A frame that skips goes on with the next instruction of its function, whatever it reads. -/
theorem Formed.skip {reason : SkipReason} {depth height : Nat} (hf : f.Formed)
    (hs : f.state = .skipping reason depth) (hh : f.base ≤ height) (i : Instruction) :
    (f.skip height i).1 = .next ∧ (f.skip height i).2.Formed := by
  have hpending : (FlowState.skipping reason depth).Pending f.markers := hs ▸ hf.pending
  obtain ⟨inner, target, outer, hm, ho, hd, hfits⟩ := hpending
  cases i with
  | enter kind type =>
    refine ⟨rfl, hf.enter rfl rfl hh ?_⟩
    change f.state.Pending _
    rw [hs]
    exact ⟨_ :: inner, target, outer, by rw [hm]; rfl, ho, hd, hfits⟩
  | elseMark =>
    refine ⟨rfl, hf.outer [] rfl hf.markers_ne_nil rfl rfl ?_⟩
    change (f.state.afterElse f.depth).Pending f.markers
    unfold FlowState.afterElse
    split
    · trivial
    · exact hf.pending
  | endMark =>
    cases inner with
    | nil =>
      -- the pending construct is closed, and the ones around it stay open
      have hdepth : f.depth = depth := by rw [Frame.depth, hm, hd]; rfl
      have hnormal : f.state.afterEnd f.depth = .normal := by
        rw [hs, hdepth]
        exact if_pos rfl
      have htail : f.markers.tail = outer := by rw [hm]; rfl
      constructor
      · simp only [Frame.skip, close, htail]
        rw [if_neg (by simpa using ho)]
      · refine hf.outer [target] hm ho rfl htail ?_
        change (f.state.afterEnd f.depth).Pending outer
        rw [hnormal]
        trivial
    | cons x inner =>
      have hdepth : f.depth ≠ depth := by
        rw [Frame.depth, hm, hd]
        simp only [List.cons_append, List.length_cons, List.length_append]
        omega
      have hstate : f.state.afterEnd f.depth = f.state := by
        rw [hs]
        exact if_neg fun h => hdepth (Option.some.inj h).symm
      have htail : f.markers.tail = inner ++ target :: outer := by rw [hm]; rfl
      constructor
      · simp only [Frame.skip, close, htail]
        rw [if_neg (by simp)]
      · refine hf.outer [x] hm (by simp) rfl htail ?_
        change (f.state.afterEnd f.depth).Pending _
        rw [hstate, hs]
        exact ⟨inner, target, outer, rfl, ho, hd, hfits⟩
  | _ => exact ⟨rfl, hf⟩

/-- The `end` of the pending construct ends the skipping. -/
theorem state_skip_end {reason : SkipReason} (hs : f.state = .skipping reason f.depth)
    (height : Nat) : (f.skip height .endMark).2.state = .normal := by
  change f.state.afterEnd f.depth = .normal
  rw [hs]
  exact if_pos rfl

end Frame

/-! ## Running -/

namespace Activation

variable {a a' : Activation} {flow : Flow}

/-- An instruction has left its frame formed, and has not changed it if it calls. -/
def Forms (a : Activation) (flow : Flow) (a' : Activation) : Prop :=
  a'.frame.Formed ∧ (flow = .next ∨ a'.frame = a.frame)

theorem formed_enter {kind : BlockKind} {type : BlockType} {height : Nat} {frame : Frame}
    (hf : frame.Formed) (hs : frame.state = .normal) (hh : frame.base ≤ height) :
    (frame.enter kind type height).Formed := by
  refine hf.enter rfl rfl hh ?_
  change frame.state.Pending _
  rw [hs]
  trivial

theorem formed_enterIf {type : BlockType} {height : Nat} {frame : Frame} (hf : frame.Formed)
    (hs : frame.state = .normal) (hh : frame.base ≤ height) (condition : Word) :
    ({ frame.enter .cond type height with
        state := if condition = 0 then .skipping .inactiveIf (frame.depth + 1)
          else frame.state } : Frame).Formed := by
  by_cases hc : condition = 0
  · -- the first arm is skipped: the construct just opened is pending
    rw [if_pos hc]
    exact hf.enter rfl rfl hh ⟨[], _, frame.markers, rfl, hf.markers_ne_nil, rfl, rfl⟩
  · rw [if_neg hc]
    exact formed_enter hf hs hh

theorem formed_elseMark {type : BlockType} {height start : Nat} {outer : List Marker}
    {frame : Frame} (hf : frame.Formed)
    (hm : frame.markers = ⟨.cond, type, height, start⟩ :: outer) :
    ({ frame with state := .skipping .takenIf frame.depth } : Frame).Formed := by
  refine hf.outer [] rfl hf.markers_ne_nil rfl rfl ?_
  refine ⟨[], _, outer, hm, ?_, by simp [Frame.depth, hm], rfl⟩
  -- an `if` is not the function body
  rintro rfl
  obtain ⟨body, hlast, hkind, -⟩ := hf.body
  rw [hm] at hlast
  cases hlast
  cases hkind

theorem forms_endMark (hf : a.frame.Formed) (hs : a.frame.state = .normal)
    (hflow : a.frame.close.1 ≠ .ret) :
    Forms a a.frame.close.1 { a with frame := a.frame.close.2 } := by
  by_cases hm : a.frame.markers.tail = []
  · exact absurd (if_pos (List.isEmpty_iff.mpr hm)) hflow
  · have hnext : a.frame.close.1 = .next := if_neg (by simpa using hm)
    refine ⟨?_, .inl hnext⟩
    obtain ⟨marker, markers, hms⟩ := List.exists_cons_of_ne_nil hf.markers_ne_nil
    refine hf.outer [marker] hms ?_ rfl ?_ ?_
    · rw [hms] at hm
      exact hm
    · change a.frame.markers.tail = markers
      rw [hms]
      rfl
    · change a.frame.state.Pending _
      rw [hs]
      trivial

theorem Branches.forms {label : Word} (h : Branches label a flow a') (hf : a.frame.Formed)
    (hs : a.frame.state = .normal) (hflow : flow ≠ .ret) : Forms a flow a' := by
  cases h with
  | restart hm hk =>
    refine ⟨hf.outer _ hm (List.cons_ne_nil _ _) rfl rfl ?_, .inl rfl⟩
    change a.frame.state.Pending _
    rw [hs]
    trivial
  | @skip target outer _ _ hm hk ho =>
    refine ⟨hf.outer [] rfl hf.markers_ne_nil rfl rfl ?_, .inl rfl⟩
    exact ⟨_, target, outer, hm, ho, rfl, hk⟩
  | ret => exact absurd rfl hflow

theorem Controls.forms {i : Instruction} (h : Controls a i flow a') (hf : a.frame.Formed)
    (hs : a.frame.state = .normal) (hfloor : a.stack.floor = a.frame.base)
    (hle : a.stack.floor ≤ a.stack.size) (hflow : flow ≠ .ret) : Forms a flow a' := by
  cases h with
  | enter => exact ⟨formed_enter hf hs (hfloor ▸ hle), .inl rfl⟩
  | @enterIf type condition stack hpop =>
    have hh : a.frame.base ≤ stack.size := by
      rw [← hfloor]
      exact (OperandStack.pop_eq_ok hpop).2.2
    exact ⟨formed_enterIf hf hs hh condition, .inl rfl⟩
  | elseMark hm => exact ⟨formed_elseMark hf hm, .inl rfl⟩
  | endMark => exact forms_endMark hf hs hflow
  | br h => exact h.forms hf hs hflow
  | brIf _ _ h => exact h.forms hf hs hflow
  | stay => exact ⟨hf, .inl rfl⟩
  | ret => exact absurd rfl hflow
  | call => exact ⟨hf, .inr rfl⟩

/-- Running an instruction leaves the frame formed, if it does not return. -/
theorem forms_execute {i : Instruction} (hf : a.frame.Formed) (hs : a.frame.state = .normal)
    (hfloor : a.stack.floor = a.frame.base) (hle : a.stack.floor ≤ a.stack.size)
    (h : execute i a = .ok flow a') (hflow : flow ≠ .ret) : Forms a flow a' := by
  obtain hc | ⟨-, hnext, s, -, rfl⟩ := execute_eq_ok h
  · exact hc.forms hf hs hfloor hle hflow
  · exact ⟨⟨hf.body, hf.heights, hf.pending⟩, .inl hnext⟩

end Activation

/-! ## Machines -/

namespace Machine

variable {functions : Array Function} {m m' : Machine} {index : Nat} {args : Array Word}

/-- Every frame is formed, and only the running one may skip. -/
structure Formed (m : Machine) : Prop where
  frames : ∀ frame ∈ m.frames, frame.Formed
  callers : ∀ frame ∈ m.frames.tail, frame.state = .normal

theorem formed_started (index : Nat) (f : Function) (args : Array Word) (memory : Memory) :
    (started index f args memory).Formed := by
  refine ⟨?_, ?_⟩
  · intro frame hmem
    obtain rfl := List.mem_singleton.mp hmem
    exact Frame.formed_create index f args 0
  · intro frame hmem
    cases hmem

/-- A skipped instruction changes nothing but the running frame. -/
theorem step_of_skipping {frame : Frame} {callers : List Frame} {reason : SkipReason}
    {depth : Nat} {f : Function} {i : Instruction} {next : Nat} (hm : m.frames = frame :: callers)
    (hs : frame.state = .skipping reason depth) (hf : functions[frame.function]? = some f)
    (hi : fetch f.body frame.ip = .ok (i, next))
    (hnext : (({ frame with ip := next } : Frame).skip m.stack.size i).1 = .next) :
    step functions m = .ok () { m with
      frames := (({ frame with ip := next } : Frame).skip m.stack.size i).2 :: callers
      steps := m.steps + 1 } := by
  rw [step_of_advance hm hf (advance_of_skipping hs hi), hnext]
  rfl

theorem formed_advance {body : Array UInt8} {frame : Frame} {stack : OperandStack} {memory : Memory}
    {flow : Flow} {a : Activation} (hf : frame.Formed) (hfloor : stack.floor = frame.base)
    (hle : stack.floor ≤ stack.size) (h : advance body ⟨frame, stack, memory⟩ = .ok flow a)
    (hflow : flow ≠ .ret) : a.frame.Formed ∧ (flow = .next ∨ a.frame.state = .normal) := by
  obtain ⟨i, next, -, hgoes⟩ := advance_eq_ok h
  have hf₁ : ({ frame with ip := next } : Frame).Formed := ⟨hf.body, hf.heights, hf.pending⟩
  obtain ⟨hs, hrun⟩ | ⟨reason, depth, frame₁, hs, hskip, rfl⟩ := hgoes
  · obtain ⟨hformed, hnext | hsame⟩ := Activation.forms_execute hf₁ hs hfloor hle hrun hflow
    · exact ⟨hformed, .inl hnext⟩
    · exact ⟨hformed, .inr (by rw [hsame, hs])⟩
  · obtain ⟨hnext, hformed⟩ := hf₁.skip hs (hfloor ▸ hle) i
    rw [hskip] at hnext hformed
    exact ⟨hformed, .inl hnext⟩

theorem Formed.step (hf : m.Formed) (hl : m.Layout) (hm : m.frames ≠ [])
    (h : step functions m = .ok () m') : m'.Formed := by
  obtain ⟨frame, callers, hframes⟩ := List.exists_cons_of_ne_nil hm
  obtain ⟨hall, hnormal⟩ := hf
  have hfloor : m.stack.floor = frame.base := by rw [hl.floor_eq, hframes]; rfl
  have hle := hl.floor_le
  rw [hframes] at hall hnormal
  obtain ⟨hframe, hcallers⟩ := List.forall_mem_cons.mp hall
  obtain ⟨f, flow, a, hfun, ha, hfollow⟩ := step_eq_ok hframes h
  have hgoes (hflow : flow ≠ .ret) := formed_advance hframe hfloor hle ha hflow
  cases follows_of_follow rfl hfollow with
  | next => exact ⟨List.forall_mem_cons.mpr ⟨(hgoes (by simp)).1, hcallers⟩, hnormal⟩
  | call =>
    obtain ⟨hformed, hnext | hstate⟩ := hgoes (by simp)
    · cases hnext
    refine ⟨List.forall_mem_cons.mpr ⟨Frame.formed_create .., ?_⟩, ?_⟩
    · exact List.forall_mem_cons.mpr ⟨hformed, hcallers⟩
    · exact List.forall_mem_cons.mpr ⟨hstate, hnormal⟩
  | ret => exact ⟨hcallers, fun g hg => hnormal g (List.mem_of_mem_tail hg)⟩

theorem formed_running {n : Nat} (h : m.invoke functions index args n = .running m') :
    m'.Formed ∧ m'.Layout :=
  running_induction (P := fun m => m.Formed ∧ m.Layout) h
    (fun f _ _ _ => ⟨formed_started index f args m.memory, layout_started index f args m.memory⟩)
    fun hm hs hp => ⟨hp.1.step hp.2 hm hs, hp.2.step hm hs⟩

end Machine

/-! ## Places in the code -/

namespace Instruction

variable {code : Array UInt8} {ip next : Nat} {i : Instruction}

theorem le_size_of_decodeAt (h : decodeAt code ip = .ok (i, next)) : next ≤ code.size := by
  obtain ⟨bs, -, ⟨rest, hr⟩, rfl⟩ := decodeAt_eq_ok_iff.mp h
  have hlen := congrArg List.length hr
  have hpos := lt_of_decodeAt h
  simp only [List.length_drop, Array.length_toList, List.length_append] at hlen
  omega

theorem Nested.le_size {cs : List Construct} (h : Nested code ip cs) : ip ≤ code.size := by
  cases h with
  | start => exact Nat.zero_le _
  | plain _ hd => exact le_size_of_decodeAt hd
  | enter _ hd => exact le_size_of_decodeAt hd
  | close _ hd => exact le_size_of_decodeAt hd

end Instruction

/-- The constructs of a frame start inside the body of its function. -/
theorem Frame.Placed.start_le {f : Function} {frame : Frame} (h : frame.Placed f) {marker : Marker}
    (hmem : marker ∈ frame.markers) : marker.start ≤ f.body.size := by
  obtain ⟨cs, hn, hm⟩ := h
  have hc : marker.construct ∈ cs ++ [(bodyMarker f 0).construct] := by
    rw [← hm]
    exact List.mem_map_of_mem hmem
  obtain hc | hc := List.mem_append.mp hc
  · obtain ⟨inner, outer, hcs⟩ := List.append_of_mem hc
    exact (hn.back hcs).le_size
  · have hstart : marker.start = (bodyMarker f 0).start :=
      congrArg Construct.start (List.mem_singleton.mp hc)
    rw [hstart]
    exact Nat.zero_le _

namespace Machine

variable {functions : Array Function} {m m' : Machine} {index : Nat} {args : Array Word}

/-- A skipped instruction goes on in the same function, and the `end` of the pending construct ends
the skipping. -/
theorem Formed.step_skipping {frame : Frame} {callers : List Frame} {reason : SkipReason}
    {depth : Nat} {f : Function} {i : Instruction} {next : Nat} (hf : m.Formed) (hl : m.Layout)
    (hm : m.frames = frame :: callers) (hs : frame.state = .skipping reason depth)
    (hfun : functions[frame.function]? = some f) (hi : fetch f.body frame.ip = .ok (i, next)) :
    ∃ frame₁, ({ frame with ip := next } : Frame).skip m.stack.size i = (.next, frame₁) ∧
      Machine.step functions m =
        .ok () { m with frames := frame₁ :: callers, steps := m.steps + 1 } ∧
      (i = .endMark → frame.markers.length = depth →
        frame₁.state = .normal ∧ frame₁.markers = frame.markers.tail) := by
  have hformed := hf.frames frame (by simp [hm])
  have hformed₁ : ({ frame with ip := next } : Frame).Formed :=
    ⟨hformed.body, hformed.heights, hformed.pending⟩
  have hh : frame.base ≤ m.stack.size := (hl.base_le (by simp [hm])).trans hl.floor_le
  obtain ⟨hnext, -⟩ := hformed₁.skip hs hh i
  refine ⟨_, Prod.ext hnext rfl, step_of_skipping hm hs hfun hi hnext, ?_⟩
  rintro rfl rfl
  exact ⟨Frame.state_skip_end (f := { frame with ip := next }) hs m.stack.size, rfl⟩

/-- What holds of the constructs and the states of all frames, and what follows for a step. -/
structure FlowSound (functions : Array Function) (m : Machine) : Prop where
  /-- The outermost construct of a frame is the function body, and no construct was entered below
  the base of the frame or starts behind its code. A frame that skips is the running one. Its
  pending construct, counted from the function body, is not the first and is open, and the reason
  fits it. -/
  frames : ∀ position frame, m.frames[position]? = some frame →
    ∃ f, functions[frame.function]? = some f ∧
      (∃ body, frame.markers.reverse[0]? = some body ∧ body.kind = .block ∧
        body.height = frame.base) ∧
      (∀ marker ∈ frame.markers, frame.base ≤ marker.height ∧ marker.start ≤ f.body.size) ∧
      ∀ reason depth, frame.state = .skipping reason depth →
        position = 0 ∧ 2 ≤ depth ∧ depth ≤ frame.markers.length ∧
          ∃ target, frame.markers.reverse[depth - 1]? = some target ∧ reason.Fits target.kind
  /-- A skipped instruction does not return or call, and changes the running frame only. The `end`
  of the pending construct ends the skipping. -/
  skipped : ∀ frame callers reason depth f i next, m.frames = frame :: callers →
    frame.state = .skipping reason depth → functions[frame.function]? = some f →
    fetch f.body frame.ip = .ok (i, next) →
    ∃ frame₁, ({ frame with ip := next } : Frame).skip m.stack.size i = (.next, frame₁) ∧
      step functions m = .ok () { m with frames := frame₁ :: callers, steps := m.steps + 1 } ∧
      (i = .endMark → frame.markers.length = depth →
        frame₁.state = .normal ∧ frame₁.markers = frame.markers.tail)
  /-- A frame is popped only by an instruction that it runs. -/
  popped : ∀ frame callers m₁, m.frames = frame :: callers → step functions m = .ok () m₁ →
    m₁.frames.length < m.frames.length → frame.state = .normal

/-- Between any two steps of an invocation the constructs and the states of all frames are sound,
whatever the code is. -/
theorem flowSound_running {n : Nat} (h : m.invoke functions index args n = .running m') :
    m'.FlowSound functions := by
  obtain ⟨hf, hl⟩ := formed_running h
  refine ⟨?_, fun _ _ _ _ _ _ _ => hf.step_skipping hl, ?_⟩
  · intro position frame hposition
    have hmem : frame ∈ m'.frames := List.mem_of_getElem? hposition
    obtain ⟨f, hfun, hplaced⟩ := placed_run h frame hmem
    have hformed := hf.frames frame hmem
    obtain ⟨body, hlast, hkind, hheight⟩ := hformed.body
    refine ⟨f, hfun, ⟨body, ?_, hkind, hheight⟩, ?_, ?_⟩
    · rw [← List.head?_eq_getElem?, List.head?_reverse, hlast]
    · exact fun marker hmarker => ⟨hformed.heights marker hmarker, hplaced.start_le hmarker⟩
    · intro reason depth hs
      have hpending : (FlowState.skipping reason depth).Pending frame.markers :=
        hs ▸ hformed.pending
      obtain ⟨inner, target, outer, hm, ho, rfl, hfits⟩ := hpending
      have hpos := List.length_pos_iff.mpr ho
      refine ⟨?_, by omega, by simp [hm], target, ?_, hfits⟩
      · -- a caller does not skip
        cases position with
        | zero => rfl
        | succ position =>
          have htail : frame ∈ m'.frames.tail := by
            apply List.mem_of_getElem? (i := position)
            rw [List.getElem?_tail, hposition]
          rw [hf.callers frame htail] at hs
          cases hs
      · rw [hm, List.reverse_append, List.reverse_cons]
        simp
  · intro frame callers m₁ hm hstep hlt
    cases hs : frame.state with
    | normal => rfl
    | skipping reason depth =>
      obtain ⟨f, flow, a, hfun, ha, -⟩ := step_eq_ok hm hstep
      cases hi : fetch f.body frame.ip with
      | error trap =>
        simp only [advance, hi] at ha
        cases ha
      | ok found =>
        obtain ⟨frame₁, -, hstep', -⟩ := hf.step_skipping hl hm hs hfun hi
        rw [hstep] at hstep'
        cases hstep'
        rw [hm] at hlt
        exact absurd hlt (Nat.lt_irrefl _)

/-- A function that leaves out an `if` in a block. -/
def skippedIf : Array Function :=
  #[⟨0, 0, 0, 0, #[0x02, 0x40, 0x41, 0x00, 0x04, 0x40, 0x0b, 0x0b, 0x0b], 0⟩]

/-- The machine that runs it, in front of the `end` of the `if`. -/
def inSkippedIf : Machine where
  frames := [⟨0, 6, #[], 0, 0, [⟨.cond, .empty, 0, 6⟩, ⟨.block, .empty, 0, 2⟩,
    ⟨.block, .empty, 0, 0⟩], .skipping .inactiveIf 3⟩]
  depth := 1
  liveLocals := 0
  stack := {}
  memory := .empty
  steps := 3

theorem flowSound_inSkippedIf :
    (create .empty).invoke skippedIf 0 #[] 3 = .running inSkippedIf ∧
      inSkippedIf.FlowSound skippedIf := by
  have hrun : (create .empty).invoke skippedIf 0 #[] 3 = .running inSkippedIf := by
    decide +kernel
  exact ⟨hrun, flowSound_running hrun⟩

end Machine

end WasmI32
