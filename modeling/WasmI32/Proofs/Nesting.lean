import WasmI32.Proofs.Inversion
import WasmI32.Proofs.Scan

/-!
# The nesting of constructs

The constructs that a frame holds open are those that the code leaves open in front of its next
instruction, whatever was run, skipped or branched over on the way there. So a frame always stands
where a scan of the code comes to. Nothing is assumed of the code: it need not be well formed.
-/

namespace WasmI32

/-- A construct as the code shows it. -/
structure Construct where
  kind : BlockKind
  type : BlockType
  /-- The offset of the first instruction inside. -/
  start : Nat
  deriving DecidableEq

def Marker.construct (m : Marker) : Construct := ⟨m.kind, m.type, m.start⟩

namespace Instruction

/-! ## Constructs in the code -/

/-- The constructs open behind an instruction, innermost first, given those in front of it and
where it ends. -/
def openBehind (i : Instruction) (next : Nat) (cs : List Construct) : List Construct :=
  match i with
  | enter kind type => ⟨kind, type, next⟩ :: cs
  | endMark => cs.tail
  | _ => cs

/-- The constructs open behind instructions in a row that end at `stop`. -/
def openAfter (cs : List Construct) : List (Nat × Instruction) → Nat → List Construct
  | [], _ => cs
  | [(_, i)], stop => i.openBehind stop cs
  | (_, i) :: (next, j) :: is, stop => openAfter (i.openBehind next cs) ((next, j) :: is) stop

/-- The constructs open at `ip`, innermost first. -/
def openAt (code : Array UInt8) (ip : Nat) : List Construct := openAfter [] (before code ip) ip

/-- The number of instructions in front of `ip` that open a construct. -/
def opensBefore (code : Array UInt8) (ip : Nat) : Nat :=
  (before code ip).countP fun x => x.2 matches .enter _ _

/-- The number of `end`s in front of `ip`. -/
def endsBefore (code : Array UInt8) (ip : Nat) : Nat :=
  (before code ip).countP fun x => x.2 = .endMark

theorem openAfter_concat (cs : List Construct) (is : List (Nat × Instruction)) (ip : Nat)
    (i : Instruction) (next : Nat) :
    openAfter cs (is ++ [(ip, i)]) next = i.openBehind next (openAfter cs is ip) := by
  induction is generalizing cs with
  | nil => rfl
  | cons x is ih =>
    obtain ⟨o, j⟩ := x
    cases is with
    | nil => rfl
    | cons y is => exact ih (j.openBehind y.1 cs)

/-- A scan comes to `ip` with these constructs open, and no `end` before it has closed the function
body. -/
inductive Nested (code : Array UInt8) : Nat → List Construct → Prop
  | start : Nested code 0 []
  | plain {ip next : Nat} {i : Instruction} {cs : List Construct} (h : Nested code ip cs)
    (hd : decodeAt code ip = .ok (i, next)) (ho : ∀ kind type, i ≠ enter kind type)
    (he : i ≠ endMark) : Nested code next cs
  | enter {ip next : Nat} {kind : BlockKind} {type : BlockType} {cs : List Construct}
    (h : Nested code ip cs) (hd : decodeAt code ip = .ok (enter kind type, next)) :
    Nested code next (⟨kind, type, next⟩ :: cs)
  | close {ip next : Nat} {c : Construct} {cs : List Construct} (h : Nested code ip (c :: cs))
    (hd : decodeAt code ip = .ok (endMark, next)) : Nested code next cs

variable {code : Array UInt8} {ip next : Nat} {cs : List Construct}

/-- At the start of an open construct, it and those around it were open. -/
theorem Nested.back (h : Nested code ip cs) {inner outer : List Construct} {c : Construct}
    (hc : cs = inner ++ c :: outer) : Nested code c.start (c :: outer) := by
  induction h generalizing inner with
  | start => simp at hc
  | plain _ _ _ _ ih => exact ih hc
  | @enter ip next kind type cs h hd ih =>
    cases inner with
    | nil =>
      cases hc
      exact .enter h hd
    | cons d inner =>
      cases hc
      exact ih rfl
  | @close ip next d cs h hd ih =>
    have hcons : d :: cs = (d :: inner) ++ c :: outer := by
      rw [hc]
      rfl
    exact ih hcons

/-- What a scan says of a place: what it has read, and what is open behind that. -/
theorem Nested.scansTo (h : Nested code ip cs) :
    ∃ front, ScansTo code front ip ∧ openAfter [] front ip = cs ∧
      cs.length + front.countP (fun x => x.2 = endMark) =
        front.countP fun x => x.2 matches .enter _ _ := by
  induction h with
  | start => exact ⟨[], .start code, rfl, rfl⟩
  | @plain ip next i cs _ hd ho he ih =>
    obtain ⟨front, hs, hopen, hcount⟩ := ih
    refine ⟨_, hs.step hd, ?_, ?_⟩
    · rw [openAfter_concat, hopen]
      cases i with
      | enter kind type => exact absurd rfl (ho kind type)
      | endMark => exact absurd rfl he
      | _ => rfl
    · cases i with
      | enter kind type => exact absurd rfl (ho kind type)
      | endMark => exact absurd rfl he
      | _ => simpa using hcount
  | @enter ip next kind type cs _ hd ih =>
    obtain ⟨front, hs, hopen, hcount⟩ := ih
    refine ⟨_, hs.step hd, ?_, ?_⟩
    · rw [openAfter_concat, hopen]
      rfl
    · simp at hcount ⊢
      omega
  | @close ip next c cs _ hd ih =>
    obtain ⟨front, hs, hopen, hcount⟩ := ih
    refine ⟨_, hs.step hd, ?_, ?_⟩
    · rw [openAfter_concat, hopen]
      rfl
    · simp at hcount ⊢
      omega

end Instruction

/-! ## What an instruction does to the place of its frame -/

namespace Frame

/-- The function of a frame, its place in the code and the constructs open there. -/
def place (f : Frame) : Nat × Nat × List Marker := (f.function, f.ip, f.markers)

/-- What an instruction does to the place of the frame that goes on behind it. -/
inductive Turns (f : Frame) : Instruction → Frame → Prop
  | stay {i : Instruction} {f' : Frame} (ho : ∀ kind type, i ≠ .enter kind type) (he : i ≠ .endMark)
    (hp : f'.place = f.place) : Turns f i f'
  | enter {kind : BlockKind} {type : BlockType} {height : Nat} {f' : Frame}
    (hp : f'.place = (f.function, f.ip, ⟨kind, type, height, f.ip⟩ :: f.markers)) :
    Turns f (.enter kind type) f'
  | close {f' : Frame} (hm : f.markers.tail ≠ [])
    (hp : f'.place = (f.function, f.ip, f.markers.tail)) : Turns f .endMark f'
  /-- A branch to a loop goes back to its start. -/
  | back {i : Instruction} {f' : Frame} {inner outer : List Marker} {loop : Marker}
    (hm : f.markers = inner ++ loop :: outer) (hk : loop.kind = .loop)
    (hp : f'.place = (f.function, loop.start, loop :: outer)) : Turns f i f'

theorem turns_of_close {f g f' : Frame} {flow : Flow} (hg : g.place = f.place)
    (h : g.close = (flow, f')) (hf : flow ≠ .ret) : f.Turns .endMark f' := by
  obtain ⟨hfun, hip, hms⟩ : g.function = f.function ∧ g.ip = f.ip ∧ g.markers = f.markers := by
    simpa only [place, Prod.mk.injEq] using hg
  unfold close at h
  obtain ⟨rfl, rfl⟩ := Prod.mk.inj h
  by_cases hm : g.markers.tail.isEmpty = true
  · rw [if_pos hm] at hf
    exact absurd rfl hf
  · rw [hms] at hm
    refine .close (fun he => hm (List.isEmpty_iff.mpr he)) ?_
    rw [place, hfun, hip, hms]

theorem turns_skip {f : Frame} {height : Nat} {i : Instruction} {flow : Flow} {f' : Frame}
    (h : f.skip height i = (flow, f')) (hf : flow ≠ .ret) : f.Turns i f' := by
  cases i with
  | enter kind type =>
    cases h
    exact .enter rfl
  | endMark =>
    exact turns_of_close (g := { f with state := f.state.afterEnd f.depth }) rfl h hf
  | _ =>
    cases h
    exact .stay (by simp) (by simp) rfl

end Frame

namespace Activation

variable {a a' : Activation} {flow : Flow}

theorem Branches.turns {label : Word} {i : Instruction} (h : Branches label a flow a')
    (ho : ∀ kind type, i ≠ .enter kind type) (he : i ≠ .endMark) (hf : flow ≠ .ret) :
    a.frame.Turns i a'.frame := by
  cases h with
  | restart hm hk => exact .back hm hk rfl
  | skip => exact .stay ho he rfl
  | ret => exact absurd rfl hf

theorem Controls.turns {i : Instruction} (h : Controls a i flow a') (hf : flow ≠ .ret) :
    a.frame.Turns i a'.frame := by
  cases h with
  | enter | enterIf => exact .enter rfl
  | endMark => exact Frame.turns_of_close rfl rfl hf
  | br h => exact h.turns (by simp) (by simp) hf
  | brIf _ _ h => exact h.turns (by simp) (by simp) hf
  | ret => exact absurd rfl hf
  | elseMark | stay | call => exact .stay (by simp) (by simp) rfl

theorem turns_execute {i : Instruction} (h : execute i a = .ok flow a') (hf : flow ≠ .ret) :
    a.frame.Turns i a'.frame := by
  obtain hc | ⟨hb, -, s, -, rfl⟩ := execute_eq_ok h
  · exact hc.turns hf
  · refine .stay ?_ ?_ rfl
    · rintro kind type rfl
      cases hb
    · rintro rfl
      cases hb

end Activation

/-! ## Frames in their place -/

open Instruction (Nested IsBoundary decodeAt openAt opensBefore endsBefore)

namespace Frame

/-- The constructs that a frame of `f` holds open are those open in the code, around them the
function body. -/
def Placed (f : Function) (frame : Frame) : Prop :=
  ∃ cs, Nested f.body frame.ip cs ∧
    frame.markers.map Marker.construct = cs ++ [(bodyMarker f 0).construct]

theorem placed_create (index : Nat) (f : Function) (args : Array Word) (base : Nat) :
    Placed f (create index f args base) :=
  ⟨[], .start, rfl⟩

theorem Placed.congr {f : Function} {frame frame' : Frame} (h : frame.Placed f)
    (hp : frame'.place = frame.place) : frame'.Placed f := by
  obtain ⟨-, hip, hms⟩ : frame'.function = frame.function ∧ frame'.ip = frame.ip ∧
      frame'.markers = frame.markers := by
    simpa only [place, Prod.mk.injEq] using hp
  unfold Placed at h ⊢
  rwa [hip, hms]

/-- A loop is not the function body, so that it is one of the constructs in the code. -/
theorem exists_of_loop {f : Function} {inner outer : List Marker} {loop : Marker}
    {cs : List Construct} (hk : loop.kind = .loop)
    (h : (inner ++ loop :: outer).map Marker.construct = cs ++ [(bodyMarker f 0).construct]) :
    ∃ ds, cs = inner.map Marker.construct ++ loop.construct :: ds ∧
      outer.map Marker.construct = ds ++ [(bodyMarker f 0).construct] := by
  rw [List.map_append, List.map_cons] at h
  obtain hnil | ⟨ds, d, hds⟩ := List.eq_nil_or_concat (outer.map Marker.construct)
  · rw [hnil] at h
    have hlast := (List.append_inj' h rfl).2
    have hkind : loop.kind = (bodyMarker f 0).kind :=
      congrArg Construct.kind (List.head_eq_of_cons_eq hlast)
    rw [hk] at hkind
    cases hkind
  · rw [hds, List.concat_eq_append, ← List.cons_append, ← List.append_assoc] at h
    obtain ⟨hcs, hd⟩ := List.append_inj' h rfl
    exact ⟨ds, hcs.symm, by rw [hds, List.concat_eq_append, hd]⟩

/-- An instruction leaves a frame in its place. -/
theorem Turns.placed {f : Function} {frame frame' : Frame} {ip : Nat} {i : Instruction}
    {cs : List Construct} (ht : frame.Turns i frame') (hn : Nested f.body ip cs)
    (hm : frame.markers.map Marker.construct = cs ++ [(bodyMarker f 0).construct])
    (hd : decodeAt f.body ip = .ok (i, frame.ip)) :
    frame'.function = frame.function ∧ frame'.Placed f := by
  cases ht with
  | stay ho he hp =>
    refine ⟨congrArg Prod.fst hp, ?_⟩
    exact Placed.congr ⟨cs, hn.plain hd ho he, hm⟩ hp
  | @enter kind type height frame' hp =>
    simp only [place, Prod.mk.injEq] at hp
    obtain ⟨hfun, hip, hms⟩ := hp
    refine ⟨hfun, ⟨kind, type, frame.ip⟩ :: cs, ?_, ?_⟩
    · rw [hip]
      exact hn.enter hd
    · rw [hms, List.map_cons, hm]
      rfl
  | close htail hp =>
    simp only [place, Prod.mk.injEq] at hp
    obtain ⟨hfun, hip, hms⟩ := hp
    refine ⟨hfun, ?_⟩
    cases cs with
    | nil =>
      -- only the function body is open, and closing it does not go on
      have hlen := congrArg List.length hm
      simp only [List.length_map, List.nil_append, List.length_singleton] at hlen
      exact absurd (List.length_eq_zero_iff.mp (by rw [List.length_tail, hlen])) htail
    | cons c cs =>
      refine ⟨cs, ?_, ?_⟩
      · rw [hip]
        exact hn.close hd
      · rw [hms, List.map_tail, hm]
        rfl
  | @back _ _ inner outer loop hms hk hp =>
    simp only [place, Prod.mk.injEq] at hp
    obtain ⟨hfun, hip, hms'⟩ := hp
    rw [hms] at hm
    obtain ⟨ds, hcs, houter⟩ := exists_of_loop hk hm
    refine ⟨hfun, loop.construct :: ds, ?_, ?_⟩
    · rw [hip]
      exact hn.back hcs
    · rw [hms', List.map_cons, houter]
      rfl

end Frame

namespace Machine

variable {functions : Array Function} {m m' : Machine} {index : Nat} {args : Array Word}

/-- Every live frame, the callers' too, is in its place. -/
def Placed (functions : Array Function) (m : Machine) : Prop :=
  ∀ frame ∈ m.frames, ∃ f, functions[frame.function]? = some f ∧ frame.Placed f

/-- What a step of a frame does to its place, unless it returns. -/
theorem turns_of_advance {body : Array UInt8} {frame : Frame} {stack : OperandStack}
    {memory : Memory} {flow : Flow} {a : Activation}
    (h : advance body ⟨frame, stack, memory⟩ = .ok flow a) (hflow : flow ≠ .ret) :
    ∃ i next, decodeAt body frame.ip = .ok (i, next) ∧
      ({ frame with ip := next } : Frame).Turns i a.frame := by
  obtain ⟨i, next, hi, hgoes⟩ := advance_eq_ok h
  refine ⟨i, next, fetch_eq_ok_iff.mp hi, ?_⟩
  obtain ⟨-, hrun⟩ | ⟨reason, depth, frame₁, -, hskip, rfl⟩ := hgoes
  · exact Activation.turns_execute hrun hflow
  · exact Frame.turns_skip hskip hflow

theorem placed_advance {f : Function} {frame : Frame} {stack : OperandStack} {memory : Memory}
    {flow : Flow} {a : Activation} (hp : frame.Placed f)
    (h : advance f.body ⟨frame, stack, memory⟩ = .ok flow a) (hflow : flow ≠ .ret) :
    a.frame.function = frame.function ∧ a.frame.Placed f := by
  obtain ⟨cs, hn, hm⟩ := hp
  obtain ⟨i, next, hd, hturns⟩ := turns_of_advance h hflow
  exact hturns.placed hn hm hd

/-- One step keeps every frame in its place. -/
theorem Placed.step (hp : m.Placed functions) (hm : m.frames ≠ [])
    (h : step functions m = .ok () m') : m'.Placed functions := by
  obtain ⟨frame, callers, hframes⟩ := List.exists_cons_of_ne_nil hm
  rw [Placed, hframes] at hp
  obtain ⟨⟨f, hf, hframe⟩, hcallers⟩ := List.forall_mem_cons.mp hp
  obtain ⟨g, flow, a, hg, ha, hfollow⟩ := step_eq_ok hframes h
  obtain rfl : f = g := Option.some.inj (hf.symm.trans hg)
  -- a frame that does not return is still in its place
  have hall (hflow : flow ≠ .ret) : ∀ frame ∈ a.frame :: callers,
      ∃ f, functions[frame.function]? = some f ∧ frame.Placed f := by
    obtain ⟨hfun, hplaced⟩ := placed_advance hframe ha hflow
    exact List.forall_mem_cons.mpr ⟨⟨f, by rw [hfun, hf], hplaced⟩, hcallers⟩
  cases follows_of_follow rfl hfollow with
  | next => exact hall (by simp)
  | @call index f args stack hf =>
    refine List.forall_mem_cons.mpr ⟨⟨f, hf, ?_⟩, hall (by simp)⟩
    exact Frame.placed_create index f args stack.size
  | ret => exact hcallers

theorem placed_start (h : m.start functions index args = .running m') : m'.Placed functions := by
  obtain ⟨f, hf, -, -, rfl⟩ := start_eq_running_iff.mp h
  intro frame hmem
  obtain rfl := List.mem_singleton.mp hmem
  exact ⟨f, hf, Frame.placed_create index f args 0⟩

theorem placed_run {n : Nat} (h : m.invoke functions index args n = .running m') :
    m'.Placed functions := by
  obtain ⟨m₁, hs, hsteps⟩ := invoke_eq_running_iff.mp h
  exact hsteps.preserves (fun hm hstep hp => hp.step hm hstep) (placed_start hs)

/-- Between any two steps of an invocation, every frame stands where a scan of its code comes to,
and its markers are the constructs open there, innermost first, and last the function body. So
there is one marker more than there are constructs opened and not closed before. -/
theorem markers_eq_openAt {n : Nat} (h : m.invoke functions index args n = .running m')
    {frame : Frame} (hframe : frame ∈ m'.frames) :
    ∃ f, functions[frame.function]? = some f ∧ IsBoundary f.body frame.ip ∧
      frame.markers.map Marker.construct =
        openAt f.body frame.ip ++ [(Frame.bodyMarker f 0).construct] ∧
      frame.markers.length + endsBefore f.body frame.ip = 1 + opensBefore f.body frame.ip := by
  obtain ⟨f, hf, cs, hn, hm⟩ := placed_run h frame hframe
  obtain ⟨front, hscan, hopen, hcount⟩ := hn.scansTo
  refine ⟨f, hf, hscan.isBoundary, ?_, ?_⟩
  · rw [openAt, hscan.before_eq, hopen, hm]
  · have hlen := congrArg List.length hm
    rw [List.length_map, List.length_append, List.length_singleton] at hlen
    rw [endsBefore, opensBefore, hscan.before_eq, hlen, ← hcount]
    omega

/-- A function that calls another one from a loop in a block, and the called one, which opens a
block of its own. -/
def nestedCall : Array Function :=
  #[⟨0, 0, 0, 0, #[0x02, 0x40, 0x03, 0x40, 0x10, 0x01, 0x0c, 0x00, 0x0b, 0x0b, 0x0b], 0⟩,
    ⟨0, 0, 0, 0, #[0x02, 0x40, 0x01, 0x0b, 0x0b], 0⟩]

/-- The machine that runs it, in the block of the called function. -/
def inNestedCall : Machine where
  frames :=
    [⟨1, 2, #[], 0, 0, [⟨.block, .empty, 0, 2⟩, ⟨.block, .empty, 0, 0⟩], .normal⟩,
      ⟨0, 6, #[], 0, 0, [⟨.loop, .empty, 0, 4⟩, ⟨.block, .empty, 0, 2⟩, ⟨.block, .empty, 0, 0⟩],
        .normal⟩]
  depth := 2
  liveLocals := 0
  stack := {}
  memory := .empty
  steps := 4

theorem markers_inNestedCall :
    (create .empty).invoke nestedCall 0 #[] 4 = .running inNestedCall ∧
      ∀ frame ∈ inNestedCall.frames, ∃ f, nestedCall[frame.function]? = some f ∧
        IsBoundary f.body frame.ip ∧
        frame.markers.map Marker.construct =
          openAt f.body frame.ip ++ [(Frame.bodyMarker f 0).construct] ∧
        frame.markers.length + endsBefore f.body frame.ip = 1 + opensBefore f.body frame.ip := by
  have hrun : (create .empty).invoke nestedCall 0 #[] 4 = .running inNestedCall := by
    decide +kernel
  exact ⟨hrun, fun frame hframe => markers_eq_openAt hrun hframe⟩

end Machine

end WasmI32
