import WasmI32.Proofs.CallStack

/-!
# Frames and their operands

All frames share one operand stack, and each has its part of it, above its base. The bases do not
fall from the entry on, and the floor is the base of the running frame. From the moment a frame is
pushed until it is popped, the operands below its base and the frames below it stay as they are,
and it leaves its results above them. Code is not checked before it runs: all this is so because
the stack is never cut below its floor.
-/

namespace WasmI32.Machine

variable {functions : Array Function} {m m' : Machine} {index : Nat} {args : Array Word}

/-- How the frames, the running one first, divide the operand stack. -/
structure Layout (m : Machine) : Prop where
  bases : m.frames.Pairwise fun inner outer => outer.base ≤ inner.base
  entry : ∀ frame, m.frames.getLast? = some frame → frame.base = 0
  floor_eq : m.stack.floor = baseOf m.frames
  floor_le : m.stack.floor ≤ m.stack.size

theorem layout_started (index : Nat) (f : Function) (args : Array Word) (memory : Memory) :
    (started index f args memory).Layout := by
  refine ⟨List.pairwise_singleton _ _, ?_, rfl, Nat.le_refl 0⟩
  intro frame hframe
  cases hframe
  rfl

theorem Layout.base_le {frame : Frame} (hl : m.Layout) (hmem : frame ∈ m.frames) :
    frame.base ≤ m.stack.floor := by
  obtain ⟨top, rest, hframes⟩ := List.exists_cons_of_ne_nil (List.ne_nil_of_mem hmem)
  have hbases := hl.bases
  rw [hl.floor_eq, hframes]
  rw [hframes] at hmem hbases
  cases hmem with
  | head => exact Nat.le_refl _
  | tail _ hrest => exact (List.pairwise_cons.mp hbases).1 frame hrest

theorem Layout.step (hl : m.Layout) (hm : m.frames ≠ []) (h : step functions m = .ok () m') :
    m'.Layout := by
  obtain ⟨frame, callers, hframes⟩ := List.exists_cons_of_ne_nil hm
  obtain ⟨hbases, hentry, hfloor, hle⟩ := hl
  rw [hframes] at hbases hentry hfloor
  obtain ⟨hcallers, hrest⟩ := List.pairwise_cons.mp hbases
  have hfloor' : m.stack.floor = frame.base := hfloor
  -- the frame that has gone on, with the callers it had
  have hbases₁ {frame₁ : Frame} (hbase : frame₁.base = frame.base) :
      (frame₁ :: callers).Pairwise fun inner outer => outer.base ≤ inner.base := by
    refine List.pairwise_cons.mpr ⟨fun g hg => ?_, hrest⟩
    rw [hbase]
    exact hcallers g hg
  have hentry₁ {frame₁ : Frame} (hbase : frame₁.base = frame.base) (g : Frame)
      (hg : (frame₁ :: callers).getLast? = some g) : g.base = 0 := by
    cases callers with
    | nil =>
      obtain rfl : frame₁ = g := Option.some.inj hg
      rw [hbase]
      exact hentry frame rfl
    | cons c cs => exact hentry g hg
  cases moved_of_step hframes h with
  | next hid hs =>
    have hbase := congrArg Frame.Identity.base hid
    have hsame := hs hle
    exact ⟨hbases₁ hbase, hentry₁ hbase, hsame.floor_eq.trans (hfloor'.trans hbase.symm),
      hsame.floor_le⟩
  | @call frame₁ stack memory index f args hid hs hf hroom =>
    have hbase : frame₁.base = frame.base := congrArg Frame.Identity.base hid
    have hsame := hs hle
    have hsize : frame.base ≤ stack.size := by
      rw [← hfloor', ← hsame.floor_eq]
      exact hsame.floor_le
    refine ⟨List.pairwise_cons.mpr ⟨?_, hbases₁ hbase⟩, hentry₁ hbase, rfl, Nat.le_refl _⟩
    intro g hg
    change g.base ≤ stack.size
    cases hg with
    | head => omega
    | tail _ hg =>
      have hle := hcallers g hg
      omega
  | @ret stack memory hs hr =>
    have hsame := hs hle
    refine ⟨hrest, ?_, rfl, ?_⟩
    · intro g hg
      cases callers with
      | nil => cases hg
      | cons c cs => exact hentry g hg
    · have hsize : stack.floor ≤ stack.size := hsame.floor_le
      rw [hsame.floor_eq, hfloor'] at hsize
      change baseOf callers ≤ stack.size
      cases callers with
      | nil => exact Nat.zero_le _
      | cons c cs => exact (hcallers c (List.mem_cons_self ..)).trans hsize

theorem layout_running {n : Nat} (h : m.invoke functions index args n = .running m') : m'.Layout :=
  running_induction h (fun f _ _ _ => layout_started index f args m.memory)
    fun hm hs hl => hl.step hm hs

/-! ## Isolation -/

/-- What has become of a frame that had these callers and the operands `below` below its base. -/
inductive Isolated (callers : List Frame) (id : Frame.Identity) (below : Array Word) (m : Machine) :
    Prop
  /-- It is live, with the same callers and the same operands below. -/
  | live (inner : List Frame) (frame : Frame) (hm : m.frames = inner ++ frame :: callers)
    (hid : frame.identity = id) (hb : m.stack.values.take id.base = below)
  /-- It has returned, and has left the number of results that it has on the operands below. -/
  | left (results : Array Word) (hm : m.frames = callers) (hr : results.size = id.resultCount)
    (hv : m.stack.values = below ++ results)

theorem take_of_sameBelow {s s₁ : OperandStack} {b : Nat} (h : s.SameBelow s₁) (hb : b ≤ s.floor) :
    s₁.values.take b = s.values.take b := by
  have hmin : min b s.floor = b := Nat.min_eq_left hb
  have htake (vs : Array Word) : (vs.take s.floor).take b = vs.take b := by
    simp [hmin]
  rw [← htake, h.below_eq, htake]

theorem Isolated.step {callers : List Frame} {id : Frame.Identity} {below : Array Word}
    (hi : m.Isolated callers id below) (hl : m.Layout) (hlive : callers.length < m.frames.length)
    (h : step functions m = .ok () m') : m'.Isolated callers id below := by
  cases hi with
  | left results hm => exact absurd hlive (by rw [hm]; exact Nat.lt_irrefl _)
  | live inner frame hm hid hb =>
    subst hid
    have hbase : frame.base ≤ m.stack.floor := hl.base_le (by simp [hm])
    have hbelow (stack : OperandStack)
        (hs : m.stack.floor ≤ m.stack.size → m.stack.SameBelow stack) :
        stack.values.take frame.base = below :=
      (take_of_sameBelow (hs hl.floor_le) hbase).trans hb
    cases inner with
    | nil =>
      cases moved_of_step hm h with
      | @next frame₁ stack memory hid hs => exact .live [] frame₁ rfl hid (hbelow stack hs)
      | @call frame₁ stack memory index f args hid hs hf hroom =>
        exact .live [_] frame₁ rfl hid (hbelow stack hs)
      | @ret stack memory hs hr =>
        have hsize : frame.base ≤ stack.values.size := by
          have hfloor := (hs hl.floor_le).floor_eq
          have hle := (hs hl.floor_le).floor_le
          change stack.floor ≤ stack.values.size at hle
          omega
        refine .left (stack.values.drop frame.base) rfl ?_ ?_
        · rw [Array.drop_eq_extract, Array.size_extract, Nat.min_self]
          exact hr
        · rw [← hbelow stack hs]
          simp [OperandStack.withFloor, Nat.max_eq_right hsize]
    | cons top inner =>
      cases moved_of_step hm h with
      | @next top₁ stack memory hid hs => exact .live (top₁ :: inner) frame rfl rfl (hbelow _ hs)
      | @call top₁ stack memory index f args hid hs hf hroom =>
        exact .live (_ :: top₁ :: inner) frame rfl rfl (hbelow stack hs)
      | @ret stack memory hs hr => exact .live inner frame rfl rfl (hbelow stack hs)

/-- A run in which a frame stays live, up to its last step, leaves what is below it alone. -/
theorem Isolated.steps {callers : List Frame} {id : Frame.Identity} {below : Array Word} {k : Nat}
    (hi : m.Isolated callers id below) (hl : m.Layout)
    (h : StepsAbove functions callers.length k m m') : m'.Isolated callers id below := by
  induction h with
  | refl m => exact hi
  | head hlive hs _ ih =>
    exact ih (hi.step hl hlive hs) (hl.step (List.ne_nil_of_length_pos (by omega)) hs)

/-- An invocation that is not refused ends with the results of its function, and nothing else on
the stack. -/
theorem size_results {n : Nat} {results : Array Word}
    (h : m.invoke functions index args n = .finished results m') :
    ∃ f, functions[index]? = some f ∧ results.size = f.resultCount := by
  obtain ⟨k, -, m₂, hrun, hend, hdrain⟩ := invoke_eq_finished h
  obtain ⟨m₁, hs, hsteps⟩ := invoke_eq_running_iff.mp hrun
  obtain ⟨f, hf, -, -, rfl⟩ := start_eq_running_iff.mp hs
  have hi : (started index f args m.memory).Isolated []
      ⟨index, 0, f.resultCount, f.frameSize⟩ #[] := by
    refine .live [] (Frame.create index f args 0) rfl ?_ rfl
    rw [Frame.identity, size_locals_create]
    rfl
  refine ⟨f, hf, ?_⟩
  cases hi.steps (layout_started index f args m.memory) hsteps.above with
  | live inner frame hm => simp [hend] at hm
  | left values _ hr hv =>
    cases hdrain
    rw [hv, Array.empty_append]
    exact hr

/-- Between any two steps of an invocation the bases of the frames do not fall from the entry on,
whose base is zero, the floor of the operand stack is the base of the running frame, and the stack
reaches up to it. As long as a frame is live, the operands below its base and its callers stay as
they are; when it has returned, its results lie on them. An invocation that ends answers as many
values as its function has results. -/
theorem layout_and_isolation (functions : Array Function) (m : Machine) (index : Nat)
    (args : Array Word) :
    (∀ n m₁, m.invoke functions index args n = .running m₁ →
      m₁.Layout ∧ ∀ inner frame callers, m₁.frames = inner ++ frame :: callers →
        (∃ f, functions[frame.function]? = some f ∧ frame.resultCount = f.resultCount) ∧
        ∀ k m₂, StepsAbove functions callers.length k m₁ m₂ →
          m₂.Isolated callers frame.identity (m₁.stack.values.take frame.base)) ∧
    ∀ n results m₁, m.invoke functions index args n = .finished results m₁ →
      ∃ f, functions[index]? = some f ∧ results.size = f.resultCount := by
  refine ⟨fun n m₁ h => ?_, fun n results m₁ h => size_results h⟩
  have hl := layout_running h
  refine ⟨hl, fun inner frame callers hm => ⟨?_, fun k m₂ hk => ?_⟩⟩
  · obtain ⟨f, hf, hcount, -⟩ := (accounted_running h).known frame (by simp [hm])
    exact ⟨f, hf, hcount⟩
  · exact Isolated.steps (.live inner frame hm rfl rfl) hl hk

/-- A function that adds seven to what another one makes of five, and that other one, which doubles
its argument. -/
def doubledSum : Array Function :=
  #[⟨0, 0, 1, 0, #[0x41, 0x07, 0x41, 0x05, 0x10, 0x01, 0x6a, 0x0b], 0⟩,
    ⟨1, 1, 1, 0, #[0x20, 0x00, 0x20, 0x00, 0x6a, 0x0b], 0⟩]

def doubledSumCaller : Frame := ⟨0, 6, #[], 0, 1, [⟨.block, .i32, 0, 0⟩], .normal⟩

def doubledSumCallee : Frame := ⟨1, 4, #[5], 1, 1, [⟨.block, .i32, 1, 0⟩], .normal⟩

/-- The machine in the called function, before it adds. -/
def inDoubledSum : Machine :=
  ⟨[doubledSumCallee, doubledSumCaller], 2, 1, ⟨#[7, 5, 5], 1⟩, .empty, 5⟩

/-- The machine when the called function has returned. -/
def afterDoubledSum : Machine := ⟨[doubledSumCaller], 1, 0, ⟨#[7, 10], 0⟩, .empty, 7⟩

theorem isolated_afterDoubledSum :
    (create .empty).invoke doubledSum 0 #[] 5 = .running inDoubledSum ∧ inDoubledSum.Layout ∧
      afterDoubledSum.Isolated [doubledSumCaller] doubledSumCallee.identity #[7] ∧
      ∃ m, (create .empty).invoke doubledSum 0 #[] 10 = .finished #[17] m := by
  have hrun : (create .empty).invoke doubledSum 0 #[] 5 = .running inDoubledSum := by
    decide +kernel
  have hadd : step doubledSum inDoubledSum = .ok () ⟨[{ doubledSumCallee with ip := 5 },
      doubledSumCaller], 2, 1, ⟨#[7, 10], 1⟩, .empty, 6⟩ := by rfl
  have hend : step doubledSum ⟨[{ doubledSumCallee with ip := 5 }, doubledSumCaller], 2, 1,
      ⟨#[7, 10], 1⟩, .empty, 6⟩ = .ok () afterDoubledSum := by rfl
  have hsteps : StepsAbove doubledSum 1 2 inDoubledSum afterDoubledSum :=
    .head (by decide) hadd (.head (by decide) hend (.refl _))
  obtain ⟨hl, hi⟩ := (layout_and_isolation doubledSum (create .empty) 0 #[]).1 5 _ hrun
  refine ⟨hrun, hl, ?_, ⟨[], 0, 0, {}, .empty, 9⟩, by decide +kernel⟩
  exact (hi [] doubledSumCallee [doubledSumCaller] rfl).2 2 _ hsteps

end WasmI32.Machine
