import WasmI32.Proofs.Displacement.Operands

/-!
# Displaced activations

A displacement puts operands under an activation and moves the places in its code. The heights that
the frame has noted rise with the operands, and the starts of its constructs move with the code. An
instruction does the same to the displaced activation as to the activation itself: it never looks
at an absolute height or at a place in the code, it only hands them on.
-/

namespace WasmI32

/-- How one run of a machine lies on top of something else. -/
structure Displacement where
  /-- The operands under those of the run. -/
  below : Array Word
  /-- Where a place in the code of a function is moved to. -/
  place : Nat → Nat → Nat
  /-- The frames under those of the run. -/
  callers : List Frame
  /-- The number of those frames. -/
  depth : Nat
  /-- The local slots of those frames. -/
  live : Nat
  /-- The steps taken before the run. -/
  steps : Nat

namespace Displacement

variable (D : Displacement)

/-- The marker of an open construct of a function. -/
def marker (function : Nat) (m : Marker) : Marker where
  kind := m.kind
  type := m.type
  height := D.below.size + m.height
  start := D.place function m.start

def frame (f : Frame) : Frame where
  function := f.function
  ip := D.place f.function f.ip
  locals := f.locals
  base := D.below.size + f.base
  resultCount := f.resultCount
  markers := f.markers.map (D.marker f.function)
  state := f.state

def activation (a : Activation) : Activation :=
  ⟨D.frame a.frame, a.stack.raise D.below, a.memory⟩

theorem branchArity_marker (function : Nat) (m : Marker) :
    (D.marker function m).branchArity = m.branchArity := rfl

theorem depth_frame (f : Frame) : (D.frame f).depth = f.depth := List.length_map _

/-! ## Frames -/

theorem frame_close (f : Frame) : (D.frame f).close = (f.close.1, D.frame f.close.2) := by
  obtain ⟨function, ip, locals, base, resultCount, markers, state⟩ := f
  match markers with
  | [] => rfl
  | [_] => rfl
  | _ :: _ :: _ => rfl

/-- A displaced frame is skipped over an instruction as the frame itself. -/
theorem frame_skip (f : Frame) (height : Nat) (i : Instruction) :
    (D.frame f).skip (D.below.size + height) i =
      ((f.skip height i).1, D.frame (f.skip height i).2) := by
  have hdepth := D.depth_frame f
  cases i with
  | elseMark =>
    simp only [Frame.skip, hdepth]
    rfl
  | endMark =>
    simp only [Frame.skip, hdepth]
    exact D.frame_close { f with state := f.state.afterEnd f.depth }
  | _ => rfl

/-! ## Instructions -/

open Structured (Scope)

variable {D}

theorem scope_activation (a : Activation) : (D.activation a).scope = a.scope.raise D.below := by
  simp [Activation.scope, activation, frame, Scope.raise, OperandStack.raise]

theorem withScope_activation (a : Activation) (s : Scope) :
    (D.activation a).withScope (s.raise D.below) = D.activation (a.withScope s) := by
  simp only [Activation.withScope, Scope.stack_raise]
  rfl

theorem commutes_onScope {α : Type} {x : EStateM Trap Scope α}
    (h : Commutes (Scope.raise D.below) x) : Commutes D.activation (Activation.onScope x) := by
  intro a
  simp only [Activation.onScope, scope_activation, h a.scope]
  cases x a.scope with
  | ok v s => exact congrArg (EStateM.Result.ok v) (withScope_activation a s)
  | error trap s => exact congrArg (EStateM.Result.error trap) (withScope_activation a s)

theorem commutes_onStack {α : Type} {x : StackM α} (h : Commutes (OperandStack.raise D.below) x) :
    Commutes D.activation (Activation.onStack x) := by
  rw [← Activation.onScope_onStack]
  exact commutes_onScope (Scope.commutes_onStack h)

theorem commutes_enter (kind : BlockKind) (type : BlockType) :
    Commutes D.activation (Activation.enter kind type) := by
  intro a
  obtain ⟨f, s, m⟩ := a
  simp only [Activation.enter, activation, OperandStack.size_raise]
  rfl

theorem commutes_skipInnermost (reason : SkipReason) :
    Commutes D.activation (Activation.skipInnermost reason) := by
  intro a
  have hdepth := D.depth_frame a.frame
  obtain ⟨f, s, m⟩ := a
  simp only [Activation.skipInnermost, Activation.modifyFrame, activation, hdepth]
  rfl

theorem commutes_enterIf (type : BlockType) : Commutes D.activation (Activation.enterIf type) := by
  refine commutes_bind (commutes_onStack OperandStack.commutes_pop) fun condition => ?_
  refine commutes_bind (commutes_enter .cond type) fun _ => ?_
  split
  · exact commutes_skipInnermost _
  · exact commutes_pure _

theorem commutes_reachElse : Commutes D.activation Activation.reachElse := by
  intro a
  have hmarkers : (D.activation a).frame.markers =
      a.frame.markers.map (D.marker a.frame.function) := rfl
  unfold Activation.reachElse
  rw [hmarkers]
  match a.frame.markers with
  | [] => rfl
  | ⟨.cond, type, height, start⟩ :: _ => exact commutes_skipInnermost .takenIf a
  | ⟨.block, _, _, _⟩ :: _ => rfl
  | ⟨.loop, _, _, _⟩ :: _ => rfl

theorem commutes_reachEnd : Commutes D.activation Activation.reachEnd := by
  intro a
  have hclose := D.frame_close a.frame
  obtain ⟨f, s, m⟩ := a
  simp only [Activation.reachEnd, activation] at hclose ⊢
  rw [hclose]
  rfl

/-- A branch back to a loop goes to the displaced start of the displaced loop. -/
theorem restart_displaced (a : Activation) (loop : Marker) (markers : List Marker) :
    Activation.restart (D.marker a.frame.function loop)
        (markers.map (D.marker a.frame.function)) (D.activation a) =
      mapState D.activation (Activation.restart loop markers a) := by
  obtain ⟨f, s, m⟩ := a
  have htruncate := OperandStack.raise_truncate D.below s loop.height
  change EStateM.Result.ok Flow.next (⟨_, _, _⟩ : Activation) = .ok Flow.next ⟨_, _, _⟩
  simp only [marker, htruncate]
  rfl

/-- A branch out of a construct keeps the same results. -/
theorem leave_displaced (function : Nat) (target : Marker) (depth : Nat) (a : Activation) :
    Activation.leave (D.marker function target) depth (D.activation a) =
      mapState D.activation (Activation.leave target depth a) := by
  have hpop : Commutes D.activation
      (Activation.onStack (OperandStack.popMany target.branchArity)) :=
    commutes_onStack (OperandStack.commutes_popMany _)
  have hcut (results : Array Word) (s : OperandStack) :
      ((s.raise D.below).truncate (D.below.size + target.height)).append results =
        ((s.truncate target.height).append results).raise D.below := by
    rw [OperandStack.raise_truncate, OperandStack.raise_append]
  unfold Activation.leave
  rw [branchArity_marker]
  have hp := hpop a
  cases hr : Activation.onStack (OperandStack.popMany target.branchArity) a with
  | error trap a₁ =>
    rw [hr] at hp
    rw [bind_of_error hr, bind_of_error hp]
    rfl
  | ok results a₁ =>
    rw [hr] at hp
    rw [bind_of_ok hr, bind_of_ok hp]
    obtain ⟨f, s, m⟩ := a₁
    have hstack := hcut results s
    by_cases hd : depth = 1
    · simp only [if_pos hd]
      change EStateM.Result.ok Flow.ret (⟨_, _, _⟩ : Activation) = .ok Flow.ret ⟨_, _, _⟩
      simp only [marker, hstack]
      rfl
    · simp only [if_neg hd]
      change EStateM.Result.ok Flow.next (⟨_, _, _⟩ : Activation) = .ok Flow.next ⟨_, _, _⟩
      simp only [marker, hstack]
      rfl

theorem commutes_branch (label : Word) : Commutes D.activation (Activation.branch label) := by
  intro a
  have hmarkers : (D.activation a).frame.markers.drop label.toNat =
      (a.frame.markers.drop label.toNat).map (D.marker a.frame.function) :=
    List.map_drop.symm
  unfold Activation.branch
  rw [hmarkers]
  cases a.frame.markers.drop label.toNat with
  | nil => rfl
  | cons target outer =>
    have hkind : (D.marker a.frame.function target).kind = target.kind := rfl
    simp only [List.map_cons, hkind, List.length_map]
    by_cases hk : target.kind = .loop
    · rw [if_pos hk, if_pos hk]
      exact restart_displaced a target (target :: outer)
    · rw [if_neg hk, if_neg hk]
      exact leave_displaced a.frame.function target (outer.length + 1) a

theorem commutes_branchIf (label : Word) : Commutes D.activation (Activation.branchIf label) := by
  refine commutes_bind (commutes_onStack OperandStack.commutes_pop) fun condition => ?_
  split
  · exact commutes_pure _
  · exact commutes_branch label

theorem commutes_andNext {x : ActivationM Unit} (h : Commutes D.activation x) :
    Commutes D.activation (Activation.andNext x) :=
  commutes_bind h fun _ => commutes_pure _

/-- An instruction does the same to a displaced activation as to the activation itself. -/
theorem commutes_execute (i : Instruction) : Commutes D.activation (Activation.execute i) := by
  by_cases hb : i.isBasic = true
  · rw [Activation.execute_basic hb]
    exact commutes_andNext (commutes_onScope (Scope.commutes_effect i))
  · cases i with
    | enter kind type =>
      cases kind with
      | cond => exact commutes_andNext (commutes_enterIf type)
      | block => exact commutes_andNext (commutes_enter .block type)
      | loop => exact commutes_andNext (commutes_enter .loop type)
    | elseMark => exact commutes_andNext commutes_reachElse
    | endMark => exact commutes_reachEnd
    | br label => exact commutes_branch label
    | brIf label => exact commutes_branchIf label
    | ret => exact commutes_pure _
    | call function => exact commutes_pure _
    | _ => exact absurd rfl hb

end Displacement

end WasmI32
