import WasmI32.Proofs.Inversion

/-!
# Skipping code

A frame that skips reads over well-nested code one instruction at a time, and behind the code it is
as it was in front of it. The construct whose end ends the skipping was open before, so that all
marks inside the code stand at a greater depth. The frame need not be one that a program reaches.
-/

namespace WasmI32.Structured

open Instruction (StandsAt decodeAt)
open Machine (advance advance_of_skipping fetch fetch_eq_ok_iff Steps step step_of_advance)

/-! ## One skipped instruction -/

section Step

variable {body : Array UInt8} {ip next : Nat} {i : Instruction} {a : Activation}
  {reason : SkipReason} {d n : Nat}

theorem function_skip (f : Frame) (height : Nat) (i : Instruction) :
    (f.skip height i).2.function = f.function := by
  cases i <;> rfl

theorem afterElse_of_lt (h : d < n) :
    (FlowState.skipping reason d).afterElse n = .skipping reason d := by
  rw [FlowState.afterElse, if_neg]
  intro he
  exact Nat.ne_of_lt h (FlowState.skipping.inj he).2

theorem afterElse_branch (d n : Nat) :
    (FlowState.skipping .branch d).afterElse n = .skipping .branch d := by
  rw [FlowState.afterElse, if_neg]
  intro he
  cases (FlowState.skipping.inj he).1

theorem afterElse_self (n : Nat) : (FlowState.skipping .inactiveIf n).afterElse n = .normal := by
  rw [FlowState.afterElse, if_pos rfl]

theorem afterEnd_of_lt (h : d < n) :
    (FlowState.skipping reason d).afterEnd n = .skipping reason d := by
  rw [FlowState.afterEnd, if_neg]
  intro he
  exact Nat.ne_of_lt h (Option.some.inj he)

theorem afterEnd_self (reason : SkipReason) (n : Nat) :
    (FlowState.skipping reason n).afterEnd n = .normal := by
  rw [FlowState.afterEnd, if_pos]
  rfl

end Step

/-! ## Skipping in a row -/

/-- The activation reads over these instructions, one at each step, and asks for no call and no
return. Its frame is in one and the same skipping state in front of each of them and at the end. -/
inductive Skips (body : Array UInt8) (reason : SkipReason) (depth : Nat) :
    List Instruction → Activation → Activation → Prop
  | nil {a : Activation} (hs : a.frame.state = .skipping reason depth) :
    Skips body reason depth [] a a
  | cons {i : Instruction} {is : List Instruction} {a a₁ a' : Activation}
    (hs : a.frame.state = .skipping reason depth)
    (hi : fetch body a.frame.ip = .ok (i, a₁.frame.ip)) (hstep : advance body a = .ok .next a₁)
    (h : Skips body reason depth is a₁ a') : Skips body reason depth (i :: is) a a'

/-- The activation with its frame at another place of the code, where other constructs are open. -/
def placed (a : Activation) (ip : Nat) (markers : List Marker) : Activation :=
  { a with frame := { a.frame with ip, markers } }

section Skips

variable {body : Array UInt8} {reason : SkipReason} {d ip : Nat} {i : Instruction}
  {is js : List Instruction} {a a₁ a' : Activation} {ms ms' : List Marker} {m : Marker}
  {kind : BlockKind} {type : BlockType}

theorem Skips.append (h₁ : Skips body reason d is a a₁) (h₂ : Skips body reason d js a₁ a') :
    Skips body reason d (is ++ js) a a' := by
  induction h₁ with
  | nil => exact h₂
  | cons hs hi hstep _ ih => exact .cons hs hi hstep (ih h₂)

/-- A run of skipped instructions is a run of every machine that the activation belongs to. -/
theorem Skips.steps {functions : Array Function} {f : Function} (h : Skips f.body reason d is a a')
    (hf : functions[a.frame.function]? = some f) (callers : List Frame) (depth live t : Nat) :
    Steps functions is.length ⟨a.frame :: callers, depth, live, a.stack, a.memory, t⟩
      ⟨a'.frame :: callers, depth, live, a'.stack, a'.memory, t + is.length⟩ := by
  induction h generalizing t with
  | nil => exact .refl _
  | @cons i is a a₁ a' hs hi hstep _ ih =>
    have hfunction : a₁.frame.function = a.frame.function := by
      have ha₁ := EStateM.Result.ok.inj ((advance_of_skipping hs hi).symm.trans hstep)
      rw [← ha₁.2]
      exact function_skip _ _ _
    have hstep' : step functions ⟨a.frame :: callers, depth, live, a.stack, a.memory, t⟩ =
        .ok () ⟨a₁.frame :: callers, depth, live, a₁.stack, a₁.memory, t + 1⟩ := by
      rw [step_of_advance rfl hf hstep]
      rfl
    have hrest := ih (hfunction ▸ hf) (t + 1)
    rw [Nat.add_assoc, Nat.add_comm 1] at hrest
    exact .head (List.cons_ne_nil _ _) hstep' hrest

/-- One instruction that leaves the frame in its state. -/
theorem skips_single (hs : a.frame.state = .skipping reason d) (hi : StandsAt body ip i.encode)
    (h : (placed a (ip + i.encode.length) ms).frame.skip a.stack.size i =
      (.next, (placed a (ip + i.encode.length) ms').frame)) :
    Skips body reason d [i] (placed a ip ms) (placed a (ip + i.encode.length) ms') := by
  have hf := fetch_eq_ok_iff.mpr (Instruction.decodeAt_encode hi)
  have hstep := advance_of_skipping (a := placed a ip ms) hs hf
  change advance body (placed a ip ms) =
    .ok ((placed a (ip + i.encode.length) ms).frame.skip a.stack.size i).1
      ⟨((placed a (ip + i.encode.length) ms).frame.skip a.stack.size i).2, a.stack, a.memory⟩
    at hstep
  rw [h] at hstep
  change advance body (placed a ip ms) = .ok .next (placed a (ip + i.encode.length) ms') at hstep
  refine .cons hs ?_ hstep (.nil hs)
  exact hf

theorem skips_plain (hs : a.frame.state = .skipping reason d) (hi : StandsAt body ip i.encode)
    (hplain : i.isPlain = true) :
    Skips body reason d [i] (placed a ip ms) (placed a (ip + i.encode.length) ms) := by
  refine skips_single hs hi ?_
  cases i with
  | enter | elseMark | endMark => cases hplain
  | _ => rfl

theorem skips_enter (hs : a.frame.state = .skipping reason d)
    (hi : StandsAt body ip (Instruction.enter kind type).encode) :
    Skips body reason d [.enter kind type] (placed a ip ms)
      (placed a (ip + (Instruction.enter kind type).encode.length)
        (⟨kind, type, a.stack.size, ip + (Instruction.enter kind type).encode.length⟩ :: ms)) :=
  skips_single hs hi rfl

theorem skips_else (hs : a.frame.state = .skipping reason d)
    (hi : StandsAt body ip Instruction.elseMark.encode) (hd : d < ms.length) :
    Skips body reason d [.elseMark] (placed a ip ms)
      (placed a (ip + Instruction.elseMark.encode.length) ms) := by
  have hstate : a.frame.state.afterElse ms.length = a.frame.state := by
    rw [hs, afterElse_of_lt hd]
  refine skips_single hs hi (Prod.ext rfl ?_)
  exact congrArg (fun state => ({ a.frame with ip := _, markers := ms, state } : Frame)) hstate

theorem skips_end (hs : a.frame.state = .skipping reason d)
    (hi : StandsAt body ip Instruction.endMark.encode) (hne : ms ≠ []) (hd : d ≤ ms.length) :
    Skips body reason d [.endMark] (placed a ip (m :: ms))
      (placed a (ip + Instruction.endMark.encode.length) ms) := by
  have hstate : a.frame.state.afterEnd (ms.length + 1) = a.frame.state := by
    rw [hs, afterEnd_of_lt (Nat.lt_succ_of_le hd)]
  have hnot : ¬ms.isEmpty = true := by simpa using hne
  refine skips_single hs hi (Prod.ext (if_neg hnot) ?_)
  exact congrArg (fun state => ({ a.frame with ip := _, markers := ms, state } : Frame)) hstate

/-- Well-nested code is skipped as a whole. A construct in it is opened one deeper than all that the
frame has open, and its marks are met at that depth. -/
theorem skips_code (hs : a.frame.state = .skipping reason d) (c : Code) :
    ∀ {ip : Nat} {ms : List Marker}, StandsAt body ip c.bytes → ms ≠ [] → d ≤ ms.length →
      Skips body reason d c.flatten (placed a ip ms) (placed a (ip + c.bytes.length) ms) := by
  induction c with
  | done => exact fun _ _ _ => .nil hs
  | plain i c ih =>
    intro ip ms hc hne hd
    rw [bytes_plain] at hc ⊢
    obtain ⟨hi, hc⟩ := standsAt_append.mp hc
    rw [List.length_append, ← Nat.add_assoc]
    exact (skips_plain hs hi i.property).append (ih hc hne hd)
  | construct kind type inner c ih₁ ihc =>
    intro ip ms hc hne hd
    rw [bytes_construct] at hc ⊢
    obtain ⟨henter, hc⟩ := standsAt_append.mp hc
    obtain ⟨h₁, hc⟩ := standsAt_append.mp hc
    obtain ⟨hend, hc⟩ := standsAt_append.mp hc
    simp only [List.length_append, ← Nat.add_assoc]
    refine (skips_enter hs henter).append ?_
    refine (ih₁ h₁ (List.cons_ne_nil _ ms) (Nat.le_succ_of_le hd)).append ?_
    exact (skips_end hs hend hne hd).append (ihc hc hne hd)
  | ifElse type first second c ih₁ ih₂ ihc =>
    intro ip ms hc hne hd
    rw [bytes_ifElse] at hc ⊢
    obtain ⟨henter, hc⟩ := standsAt_append.mp hc
    obtain ⟨h₁, hc⟩ := standsAt_append.mp hc
    obtain ⟨helse, hc⟩ := standsAt_append.mp hc
    obtain ⟨h₂, hc⟩ := standsAt_append.mp hc
    obtain ⟨hend, hc⟩ := standsAt_append.mp hc
    simp only [List.length_append, ← Nat.add_assoc]
    have hlt (m : Marker) : d < (m :: ms).length := Nat.lt_succ_of_le hd
    refine (skips_enter hs henter).append ?_
    refine (ih₁ h₁ (List.cons_ne_nil _ ms) (Nat.le_succ_of_le hd)).append ?_
    refine (skips_else hs helse (hlt _)).append ?_
    refine (ih₂ h₂ (List.cons_ne_nil _ ms) (Nat.le_succ_of_le hd)).append ?_
    exact (skips_end hs hend hne hd).append (ihc hc hne hd)

/-! ## Where the skipping ends -/

theorem afterElse_pending (reason : SkipReason) (n : Nat) :
    (FlowState.skipping reason n).afterElse n =
      if reason = .inactiveIf then .normal else .skipping reason n := by
  simp only [FlowState.afterElse, FlowState.skipping.injEq, and_true]

theorem advance_pending_else (hs : a.frame.state = .skipping reason d)
    (hi : StandsAt body a.frame.ip Instruction.elseMark.encode)
    (hd : a.frame.markers.length = d) :
    advance body a = .ok .next { a with frame := { a.frame with
      ip := a.frame.ip + Instruction.elseMark.encode.length
      state := if reason = .inactiveIf then .normal else .skipping reason d } } := by
  have hstate := afterElse_pending reason d
  nth_rewrite 1 [← hs, ← hd] at hstate
  rw [← hstate]
  exact advance_of_skipping hs (fetch_eq_ok_iff.mpr (Instruction.decodeAt_encode hi))

theorem advance_pending_end (hs : a.frame.state = .skipping reason d)
    (hi : StandsAt body a.frame.ip Instruction.endMark.encode) (hd : a.frame.markers.length = d)
    (h2 : 2 ≤ d) :
    advance body a = .ok .next { a with frame := { a.frame with
      ip := a.frame.ip + Instruction.endMark.encode.length
      markers := a.frame.markers.tail
      state := .normal } } := by
  have hstate : a.frame.state.afterEnd a.frame.markers.length = .normal := by
    rw [hs, hd, afterEnd_self]
  have hflow : (if a.frame.markers.tail.isEmpty then Flow.ret else .next) = .next := by
    have htail : a.frame.markers.tail.length = d - 1 := by rw [List.length_tail, hd]
    refine if_neg fun hempty => ?_
    rw [List.isEmpty_iff.mp hempty, List.length_nil] at htail
    omega
  rw [← hstate, ← hflow]
  exact advance_of_skipping hs (fetch_eq_ok_iff.mpr (Instruction.decodeAt_encode hi))

/-- The activation when its frame has got behind the code in front of it. -/
def behind (a : Activation) (c : Code) : Activation :=
  { a with frame := { a.frame with ip := a.frame.ip + (Instruction.encodeAll c.flatten).length } }

/-- A frame that skips to the end of an inner construct reads over any well-nested code, in one step
for each instruction, and is behind it as it was in front of it. If nothing is open inside the
pending construct, an `end` there closes that construct and ends the skipping. An `else` there ends
it if the first arm of an `if` is skipped, and is read over otherwise. -/
theorem skipping_leaves_code_behind (c : Code) (hs : a.frame.state = .skipping reason d)
    (h2 : 2 ≤ d) (hopen : d ≤ a.frame.markers.length)
    (hc : StandsAt body a.frame.ip (Instruction.encodeAll c.flatten)) :
    Skips body reason d c.flatten a (behind a c) ∧
      (a.frame.markers.length = d →
        (StandsAt body (behind a c).frame.ip Instruction.endMark.encode →
          advance body (behind a c) = .ok .next { behind a c with frame := { (behind a c).frame with
            ip := (behind a c).frame.ip + 1
            markers := a.frame.markers.tail
            state := .normal } }) ∧
        (StandsAt body (behind a c).frame.ip Instruction.elseMark.encode →
          advance body (behind a c) = .ok .next { behind a c with frame := { (behind a c).frame with
            ip := (behind a c).frame.ip + 1
            state := if reason = .inactiveIf then .normal else .skipping reason d } })) := by
  have hne : a.frame.markers ≠ [] := List.ne_nil_of_length_pos (by omega)
  refine ⟨skips_code hs c hc hne hopen, fun hd => ⟨fun hend => ?_, fun helse => ?_⟩⟩
  · exact advance_pending_end (a := behind a c) hs hend hd h2
  · exact advance_pending_else (a := behind a c) hs helse hd

/-- The first arm of an `if`, in which a constant looks like an `end`, followed by its `else`. -/
def skippedArm : Array UInt8 := #[0x41, 0x0b, 0x04, 0x40, 0x41, 0x05, 0x05, 0x01, 0x0b, 0x05]

/-- The arm as a tree: a constant, and an `if` with both arms. -/
def armCode : Code :=
  .plain ⟨.const 11, rfl⟩
    (.ifElse .empty (.plain ⟨.const 5, rfl⟩ .done) (.plain ⟨.nop, rfl⟩ .done) .done)

/-- A frame in front of the arm, which it skips. -/
def beforeArm : Activation where
  frame := ⟨0, 0, #[7], 0, 0, [⟨.cond, .empty, 1, 0⟩, ⟨.block, .empty, 0, 0⟩],
    .skipping .inactiveIf 2⟩
  stack := ⟨#[3], 0⟩
  memory := .empty

theorem skipping_leaves_arm_behind :
    (beforeArm.frame.state = .skipping .inactiveIf 2 ∧ 2 ≤ 2 ∧ 2 ≤ beforeArm.frame.markers.length ∧
      StandsAt skippedArm beforeArm.frame.ip (Instruction.encodeAll armCode.flatten)) ∧
      Skips skippedArm .inactiveIf 2 armCode.flatten beforeArm (behind beforeArm armCode) ∧
      advance skippedArm (behind beforeArm armCode) =
        .ok .next
          { beforeArm with frame := { beforeArm.frame with ip := 10, state := .normal } } := by
  have hc : StandsAt skippedArm beforeArm.frame.ip (Instruction.encodeAll armCode.flatten) :=
    ⟨[0x05], by decide⟩
  have hs : beforeArm.frame.state = .skipping .inactiveIf 2 := rfl
  have hopen : 2 ≤ beforeArm.frame.markers.length := Nat.le_refl 2
  obtain ⟨hskips, hends⟩ := skipping_leaves_code_behind armCode hs (Nat.le_refl 2) hopen hc
  exact ⟨⟨hs, Nat.le_refl 2, hopen, hc⟩, hskips, (hends rfl).2 ⟨[], by decide⟩⟩

end Skips

end WasmI32.Structured
