import WasmI32.Proofs.Structured.Shape
import WasmI32.Proofs.Structured.Stepping

/-!
# The machine runs structured code

The machine reads flat bytes and skips; the reference interpreter walks the tree. Where the
reference leaves code in some way, the machine lands accordingly: behind the code, behind a return,
at the start of a loop, or skipping towards the end of a construct around the code. Where the
reference needs a larger bound, the machine runs for as many steps as the bound says. Both follow by
one induction on the bound.
-/

namespace WasmI32.Structured

open Instruction (StandsAt)
open Machine (Steps step Ends Outcome)

variable {functions : Array Function} {K : Context} {p q : Point} {ms : List Marker}
  {s s₁ : Scope} {m : Marker} {ip stop next a j n : Nat}

/-! ## Landing -/

/-- What the machine does, starting at `p`, where code that ends at `stop` is left in some way. -/
def Lands (functions : Array Function) (K : Context) (ms : List Marker) (stop j : Nat) (p : Point) :
    Walk → Prop
  | .ok .fall s => Moves functions K j p ⟨stop, ms, .normal, s⟩
  | .ok .ret s => Finishes functions K p (checkArity K.function K.base s)
  | .ok (.branch label named) s => Branches functions K ms stop p label named s
  | .error trap s => Traps functions K p trap s.memory

/-- The machine lands as the reference says, or runs on if the reference needs a larger bound. -/
def Follows (functions : Array Function) (K : Context) (ms : List Marker) (stop j n : Nat)
    (p : Point) : Option Walk → Prop
  | some walk => Lands functions K ms stop j p walk
  | none => Runs functions K n p

/-- A branch is the same one from an earlier point, and where the skipping it may start with is
carried on to another place. -/
theorem Branches.carry {label label' named stop' : Nat} {ms' : List Marker}
    (h : Branches functions K ms stop p label named s) (hdrop : ms'.drop label' = ms.drop label)
    (before : Moves functions K a q p)
    (skip : ∀ d s, d ≤ (ms.drop label).length →
      Moves functions K 0 ⟨stop, ms, .skipping .branch d, s⟩
        ⟨stop', ms', .skipping .branch d, s⟩) :
    Branches functions K ms' stop' q label' named s := by
  unfold Branches at h ⊢
  rw [hdrop]
  cases hd : ms.drop label with
  | nil =>
    simp only [hd] at h ⊢
    exact before.traps h
  | cons target outer =>
    simp only [hd] at h ⊢
    by_cases hk : target.kind = .loop
    · rw [if_pos hk] at h ⊢
      exact (before.trans h).weaken (Nat.le_add_left 1 a)
    · rw [if_neg hk] at h ⊢
      cases hr : Scope.keep target.type.arity target.height s with
      | error trap s₁ =>
        simp only [hr] at h ⊢
        exact before.traps h
      | ok u s₁ =>
        simp only [hr] at h ⊢
        by_cases ho : outer = []
        · rw [if_pos ho] at h ⊢
          exact before.finishes h
        · rw [if_neg ho] at h ⊢
          have hle : outer.length + 1 ≤ (ms.drop label).length := by rw [hd, List.length_cons]
          exact ((before.trans h).trans (skip _ s₁ hle)).weaken (by omega)

theorem Moves.branches {label named : Nat} (h : Moves functions K a p q)
    (hb : Branches functions K ms stop q label named s) :
    Branches functions K ms stop p label named s :=
  hb.carry rfl h fun _ _ _ => .refl _

/-- A branch out of a construct goes on outwards when the construct is closed. -/
theorem Branches.close {label named : Nat} (hK : K.In functions)
    (h : Branches functions K (m :: ms) stop p (label + 1) named s)
    (hp : StandsAt K.function.body stop Instruction.endMark.encode) (hms : ms ≠ []) :
    Branches functions K ms (stop + Instruction.endMark.encode.length) p label named s := by
  refine h.carry (List.drop_succ_cons).symm (.refl p) fun d s₁ hd => ?_
  rw [List.drop_succ_cons, List.length_drop] at hd
  exact (moves_skip_end hK hp hms (afterEnd_of_lt (by omega))).weaken (Nat.zero_le 1)

theorem Moves.lands {walk : Walk} {l : Nat} (h : Moves functions K a p q)
    (hw : Lands functions K ms stop j q walk) (hl : l ≤ a + j) :
    Lands functions K ms stop l p walk := by
  match walk with
  | .ok .fall s => exact (h.trans hw).weaken hl
  | .ok .ret s => exact h.finishes hw
  | .ok (.branch label named) s => exact h.branches hw
  | .error trap s => exact h.traps hw

theorem Moves.follows {walk : Option Walk} {l k : Nat} (h : Moves functions K a p q)
    (hw : Follows functions K ms stop j n q walk) (hl : l ≤ a + j) (hk : k ≤ a + n) :
    Follows functions K ms stop l k p walk := by
  cases walk with
  | none => exact h.runs hw hk
  | some walk => exact h.lands hw hl

/-- A construct that is not itself branched to is closed behind the code inside it. -/
theorem Lands.lower {walk : Walk} (hK : K.In functions)
    (h : Lands functions K (m :: ms) stop 0 p walk) (hw : ∀ named s, walk ≠ .ok (.branch 0 named) s)
    (hp : StandsAt K.function.body stop Instruction.endMark.encode) (hms : ms ≠ []) :
    Lands functions K ms (stop + Instruction.endMark.encode.length) 0 p (lower walk) := by
  match walk with
  | .ok .fall s₁ => exact (h.trans (moves_end hK hp hms)).weaken (Nat.zero_le _)
  | .ok .ret s₁ => exact h
  | .ok (.branch 0 named) s₁ => exact absurd rfl (hw named s₁)
  | .ok (.branch (label + 1) named) s₁ => exact Branches.close hK h hp hms
  | .error trap s₁ => exact h

/-- A `block` or an `if` is closed behind the code inside it. -/
theorem Lands.leave {walk : Walk} {kind : BlockKind} {type : BlockType} {start : Nat}
    (hK : K.In functions) (hkind : kind ≠ .loop)
    (h : Lands functions K (opened kind type s start :: ms) stop 0 p walk)
    (hp : StandsAt K.function.body stop Instruction.endMark.encode) (hms : ms ≠ []) :
    Lands functions K ms (stop + Instruction.endMark.encode.length) 0 p
      (leave type s.operands.length walk) := by
  match walk with
  | .ok .fall s₁ => exact h.lower hK (fun _ _ hw => by cases hw) hp hms
  | .ok .ret s₁ => exact h.lower hK (fun _ _ hw => by cases hw) hp hms
  | .ok (.branch (label + 1) named) s₁ => exact h.lower hK (fun _ _ hw => by cases hw) hp hms
  | .error trap s₁ => exact h.lower hK (fun _ _ hw => by cases hw) hp hms
  | .ok (.branch 0 named) s₁ =>
    -- the target is the construct itself, so the skipping ends with it
    have hb : Branches functions K (opened kind type s start :: ms) stop p 0 named s₁ := h
    unfold Branches at hb
    simp only [List.drop_zero, opened, Scope.size_stack, if_neg hkind] at hb
    cases hr : Scope.keep type.arity s.operands.length s₁ with
    | error trap s₂ =>
      simp only [hr] at hb
      simp only [Structured.leave, hr]
      exact hb
    | ok u s₂ =>
      simp only [hr, if_neg hms] at hb
      simp only [Structured.leave, hr]
      exact (hb.trans (moves_skip_end hK hp hms (afterEnd_self _ _))).weaken (Nat.zero_le _)

theorem Follows.leave {walk : Option Walk} {kind : BlockKind} {type : BlockType} {start : Nat}
    (hK : K.In functions) (hkind : kind ≠ .loop)
    (h : Follows functions K (opened kind type s start :: ms) stop 0 n p walk)
    (hp : StandsAt K.function.body stop Instruction.endMark.encode) (hms : ms ≠ []) :
    Follows functions K ms (stop + Instruction.endMark.encode.length) 0 n p
      (walk.map (leave type s.operands.length)) := by
  cases walk with
  | none => exact h
  | some walk => exact Lands.leave hK hkind h hp hms

/-- Code is left behind where a first part is not left at its end. -/
theorem Lands.extend {walk : Walk} {stop' : Nat} (h : Lands functions K ms stop j p walk)
    (hw : ∀ s, walk ≠ .ok .fall s)
    (hskip : ∀ d s, d ≤ ms.length → Moves functions K 0 ⟨stop, ms, .skipping .branch d, s⟩
      ⟨stop', ms, .skipping .branch d, s⟩) :
    Lands functions K ms stop' 0 p walk := by
  match walk with
  | .ok .fall s => exact absurd rfl (hw s)
  | .ok .ret s => exact h
  | .ok (.branch label named) s =>
    exact Branches.carry h rfl (.refl p) fun d s hd =>
      hskip d s (hd.trans (by rw [List.length_drop]; exact Nat.sub_le _ _))
  | .error trap s => exact h

/-! ## Parts of code -/

/-- The machine follows a way to run code for `n` steps. -/
structure Simulates (functions : Array Function) (n : Nat) (run : Runner) : Prop where
  shaped : ∀ calls c s, Shaped s (run calls c s)
  follows : ∀ {K : Context} {c : Code} {ms : List Marker} {ip : Nat} {s : Scope}, K.In functions →
    ms ≠ [] → s.shape = K.shape → StandsAt K.function.body ip c.bytes →
    Follows functions K ms (ip + c.bytes.length) 0 n ⟨ip, ms, .normal, s⟩ (run K.calls c s)

variable {run : Runner} {body first second : Code} {kind : BlockKind} {type : BlockType}

theorem andThen_some {w : Walk} (hw : ∀ s, w ≠ .ok .fall s) (next : Scope → Option Walk) :
    andThen (some w) next = some w := by
  unfold andThen
  split
  · rename_i s he
    exact absurd (Option.some.inj he) (hw s)
  · rfl

theorem Simulates.andThen {part : Option Walk} {c : Code} (hrun : Simulates functions n run)
    (hK : K.In functions) (hms : ms ≠ []) (hs : s.shape = K.shape)
    (hpart : Follows functions K ms ip 1 (n + 1) p part) (hshape : Shaped s part)
    (hc : StandsAt K.function.body ip c.bytes) :
    Follows functions K ms (ip + c.bytes.length) 0 (n + 1) p (andThen part (run K.calls c)) := by
  have hskip : ∀ d s, d ≤ ms.length → Moves functions K 0 ⟨ip, ms, .skipping .branch d, s⟩
      ⟨ip + c.bytes.length, ms, .skipping .branch d, s⟩ :=
    fun d s hd => moves_skip_code hK c hc hms hd
  cases part with
  | none => exact hpart
  | some w =>
    by_cases hw : ∃ s₁, w = .ok .fall s₁
    · obtain ⟨s₁, rfl⟩ := hw
      have hnext := hrun.follows hK hms (Eq.trans hshape hs) hc
      exact Moves.follows hpart hnext (by omega) (by omega)
    · have hl : Lands functions K ms ip 1 p w := hpart
      rw [andThen_some (not_exists.mp hw)]
      exact hl.extend (not_exists.mp hw) hskip

/-- A construct other than a loop, from the start of the arm that is run. -/
theorem Simulates.arm {start : Nat} (hrun : Simulates functions n run) (hK : K.In functions)
    (hms : ms ≠ []) (hs : s.shape = K.shape) (hkind : kind ≠ .loop)
    (hb : StandsAt K.function.body ip body.bytes)
    (hend : StandsAt K.function.body (ip + body.bytes.length) Instruction.endMark.encode) :
    Follows functions K ms (ip + body.bytes.length + Instruction.endMark.encode.length) 0 n
      ⟨ip, opened kind type s start :: ms, .normal, s⟩
      ((run K.calls body s).map (leave type s.operands.length)) := by
  have hin := hrun.follows hK (List.cons_ne_nil (opened kind type s start) ms) hs hb
  exact hin.leave hK hkind hend hms

/-- The rounds of a loop. Each one that comes back to the start has taken a step. -/
theorem Simulates.rounds {start : Nat} (hrun : Simulates functions n run) (hK : K.In functions)
    (hms : ms ≠ []) (hb : StandsAt K.function.body start body.bytes)
    (hend : StandsAt K.function.body (start + body.bytes.length) Instruction.endMark.encode)
    {k : Nat} (hk : k ≤ n) {s₁ : Scope} (hs : s₁.shape = K.shape) :
    Follows functions K ms (start + body.bytes.length + Instruction.endMark.encode.length) 0 k
      ⟨start, opened .loop type s start :: ms, .normal, s₁⟩
      (rounds (run K.calls body) s.operands.length k s₁) := by
  induction k generalizing s₁ with
  | zero => exact Runs.zero _
  | succ k ih =>
    have hin := hrun.follows hK (List.cons_ne_nil (opened .loop type s start) ms) hs hb
    have hshape := hrun.shaped K.calls body s₁
    unfold Structured.rounds
    split
    · rename_i named s₂ hr
      rw [hr] at hin hshape
      have hback : Moves functions K 1 ⟨start, opened .loop type s start :: ms, .normal, s₁⟩
          ⟨start, opened .loop type s start :: ms, .normal, s₂.cut s.operands.length⟩ := hin
      exact hback.follows (ih (by omega) (Eq.trans hshape hs)) (by omega) (by omega)
    · rename_i w hw hr
      rw [hr] at hin
      have hl : Lands functions K _ _ 0 _ w := hin
      exact hl.lower hK hw hend hms
    · rename_i hr
      rw [hr] at hin
      exact Moves.runs (.refl _) hin (by omega)

/-- The first arm of an `if` that has two is run, and the second one skipped. -/
theorem Simulates.firstArm {start : Nat} (hrun : Simulates functions n run) (hK : K.In functions)
    (hms : ms ≠ []) (hs : s.shape = K.shape)
    (h₁ : StandsAt K.function.body ip first.bytes)
    (helse : StandsAt K.function.body (ip + first.bytes.length) Instruction.elseMark.encode)
    (h₂ : StandsAt K.function.body
      (ip + first.bytes.length + Instruction.elseMark.encode.length) second.bytes)
    (hend : StandsAt K.function.body
      (ip + first.bytes.length + Instruction.elseMark.encode.length + second.bytes.length)
      Instruction.endMark.encode) :
    Follows functions K ms
      (ip + first.bytes.length + Instruction.elseMark.encode.length + second.bytes.length +
        Instruction.endMark.encode.length) 0 n
      ⟨ip, opened .cond type s start :: ms, .normal, s⟩
      ((run K.calls first s).map (leave type s.operands.length)) := by
  have hin := hrun.follows hK (List.cons_ne_nil (opened .cond type s start) ms) hs h₁
  have hskip : ∀ d s₁, d ≤ (opened .cond type s start :: ms).length →
      Moves functions K 0
        ⟨ip + first.bytes.length, opened .cond type s start :: ms, .skipping .branch d, s₁⟩
        ⟨ip + first.bytes.length + Instruction.elseMark.encode.length + second.bytes.length,
          opened .cond type s start :: ms, .skipping .branch d, s₁⟩ := by
    intro d s₁ hd
    have h := (moves_skip_else hK helse (afterElse_branch d _)).trans
      (moves_skip_code (s := s₁) hK second h₂ (List.cons_ne_nil _ ms) hd)
    exact h.weaken (Nat.zero_le _)
  cases hr : run K.calls first s with
  | none =>
    rw [hr] at hin
    exact hin
  | some w =>
    rw [hr] at hin
    by_cases hw : ∃ s₁, w = .ok .fall s₁
    · obtain ⟨s₁, rfl⟩ := hw
      have hfall : Moves functions K 0 _ ⟨_, opened .cond type s start :: ms, .normal, s₁⟩ := hin
      have hover := hfall.trans ((moves_else hK helse).trans
        ((moves_skip_code hK second h₂ (List.cons_ne_nil _ ms) (Nat.le_refl _)).trans
          (moves_skip_end hK hend hms (afterEnd_self .takenIf _))))
      exact hover.weaken (Nat.zero_le _)
    · have hl : Lands functions K _ _ 0 _ w := hin
      exact (hl.extend (not_exists.mp hw) hskip).leave hK (by decide) hend hms

/-- An `if`, given what becomes of it in either state it may be entered in. -/
theorem follows_choose {first second : Scope → Option Walk} (hK : K.In functions)
    (hs : s.shape = K.shape)
    (he : StandsAt K.function.body ip (Instruction.enter .cond type).encode)
    (hnext : next = ip + (Instruction.enter .cond type).encode.length)
    (taken : ∀ s₁, s₁.shape = K.shape → Follows functions K ms stop 0 n
      ⟨next, opened .cond type s₁ next :: ms, .normal, s₁⟩
      ((first s₁).map (leave type s₁.operands.length)))
    (inactive : ∀ s₁, s₁.shape = K.shape → Follows functions K ms stop 0 n
      ⟨next, opened .cond type s₁ next :: ms, .skipping .inactiveIf (ms.length + 1), s₁⟩
      ((second s₁).map (leave type s₁.operands.length))) :
    Follows functions K ms stop 1 (n + 1) ⟨ip, ms, .normal, s⟩ (choose type first second s) := by
  subst hnext
  unfold choose
  cases hp : Scope.pop s with
  | error trap s₁ => exact traps_if hK he hp
  | ok condition s₁ =>
    have hs₁ := (shape_of_pop hp).trans hs
    have hif : Moves functions K 1 ⟨ip, ms, .normal, s⟩ _ := moves_if hK he hp
    unfold ifState at hif
    by_cases h0 : condition = 0
    · rw [if_pos h0] at hif
      simp only [if_pos h0]
      exact hif.follows (inactive s₁ hs₁) (by omega) (by omega)
    · rw [if_neg h0] at hif
      simp only [if_neg h0]
      exact hif.follows (taken s₁ hs₁) (by omega) (by omega)

/-! ## Calls -/

/-- The end of a body, which is the end of its function. -/
theorem Lands.finish {walk : Walk} (hK : K.In functions)
    (h : Lands functions K [Frame.bodyMarker K.function K.base] stop 0 p walk)
    (hp : StandsAt K.function.body stop Instruction.endMark.encode) :
    Finishes functions K p (finish K.function K.base walk) := by
  match walk with
  | .ok .fall s₁ => exact Moves.finishes h (finishes_end hK hp)
  | .ok .ret s₁ => exact h
  | .error trap s₁ => exact h
  | .ok (.branch (label + 1) named) s₁ =>
    have hb : Branches functions K [Frame.bodyMarker K.function K.base] stop p (label + 1) named
      s₁ := h
    unfold Branches at hb
    rwa [List.drop_succ_cons, List.drop_nil] at hb
  | .ok (.branch 0 named) s₁ =>
    have hb : Branches functions K [Frame.bodyMarker K.function K.base] stop p 0 named s₁ := h
    have harity : (Frame.bodyMarker K.function K.base).type.arity =
        if K.function.resultCount = 0 then 0 else 1 := by
      unfold Frame.bodyMarker
      by_cases hc : K.function.resultCount = 0
      · simp only [if_pos hc]
        rfl
      · simp only [if_neg hc]
        rfl
    have hheight : (Frame.bodyMarker K.function K.base).height = K.base := rfl
    have hkind : (Frame.bodyMarker K.function K.base).kind ≠ .loop := by
      change BlockKind.block ≠ .loop
      decide
    unfold Branches at hb
    simp only [List.drop_zero, if_neg hkind, harity, hheight] at hb
    unfold Structured.finish
    cases hr : Scope.keep (if K.function.resultCount = 0 then 0 else 1) K.base s₁ with
    | error trap s₂ =>
      simp only [hr] at hb ⊢
      exact hb
    | ok u s₂ =>
      simp only [hr, if_pos] at hb ⊢
      exact hb

/-- The arguments fill the first locals exactly, so that nothing of them is cut off. -/
theorem create_locals {f : Function} {args : Array Word} (h : args.size = f.parameterCount)
    (index base : Nat) :
    (Frame.create index f args base).locals = args ++ Array.replicate f.localCount 0 := by
  have htake : args.take f.frameSize = args := by
    rw [Function.frameSize, ← h]
    simp
  have hrest : f.frameSize - args.size = f.localCount := by
    rw [Function.frameSize, h, Nat.add_sub_cancel_left]
  rw [Frame.create, htake, hrest]

theorem exhausted_iff (frames : List Frame) (calls : Calls) (s : Scope) (t size : Nat) :
    Machine.Exhausted ⟨frames, calls.depth, calls.live, s.stack, s.memory, t⟩ size ↔
      calls.full size = true := by
  rw [Machine.Exhausted, Calls.full]
  simp

/-- What becomes of a call that a machine with these frames makes. The frames and the locals of the
caller are the same ones when the call is over. -/
def Answers (functions : Array Function) (n : Nat) (frames : List Frame) (calls : Calls)
    (locals : Array Word) (called : EStateM.Result Trap Machine Unit) : Option Walk → Prop
  | none => ∃ m, called = .ok () m ∧ ∃ m', Steps functions n m m'
  | some (.error trap s) =>
    (∃ m, called = .error trap m ∧ m.memory = s.memory) ∨
      ∃ m, called = .ok () m ∧ Ends functions m (.trap trap s.memory)
  | some (.ok exit s) =>
    exit = .fall ∧ s.locals = locals ∧ ∃ m, called = .ok () m ∧
      ∃ k t, Steps functions k m ⟨frames, calls.depth, calls.live, s.stack, s.memory, t⟩

/-- The context of a call. -/
def callee (index : Nat) (f : Function) (base : Nat) (frames : List Frame) (calls : Calls) :
    Context :=
  ⟨index, f, base, frames, calls.into f⟩

theorem shape_entry {f : Function} {args : List Word} (h : args.length = f.parameterCount)
    (below : List Word) (memory : Memory) :
    (entry f args below memory).shape = (below.length, f.frameSize) := by
  refine Prod.ext rfl ?_
  change (args.toArray ++ Array.replicate f.localCount 0).size = f.frameSize
  rw [Array.size_append, Array.size_replicate, List.size_toArray, h, Function.frameSize]

theorem activate_eq {f : Function} {args : List Word} (h : args.length = f.parameterCount)
    (index : Nat) (frames : List Frame) (calls : Calls) (s : Scope) (t : Nat) :
    Machine.activate ⟨frames, calls.depth, calls.live, s.stack, s.memory, t⟩ index f args.toArray =
      (callee index f s.operands.length frames calls).machine
        ⟨0, [Frame.bodyMarker f s.operands.length], .normal, entry f args s.operands s.memory⟩
        t := by
  have hframe : Frame.create index f args.toArray s.operands.length =
      (callee index f s.operands.length frames calls).frame
        ⟨0, [Frame.bodyMarker f s.operands.length], .normal,
          entry f args s.operands s.memory⟩ := by
    have hsize : args.toArray.size = f.parameterCount := h
    have hl := create_locals hsize index s.operands.length
    rw [Frame.create] at hl ⊢
    simp only at hl
    rw [hl]
    rfl
  rw [Machine.activate]
  simp only [Scope.size_stack, hframe]
  rfl

theorem returned_callee {f : Function} {base : Nat} {frames : List Frame} {calls : Calls}
    (hs : s.shape = (base, f.frameSize)) (index t : Nat) :
    (callee index f base frames calls).returned s t =
      ⟨frames, calls.depth, calls.live, s.stack.withFloor (Machine.baseOf frames), s.memory,
        t⟩ := by
  have hsize : s.locals.size = f.frameSize := congrArg Prod.snd hs
  simp only [Context.returned, callee, Calls.into, hsize, Nat.add_sub_cancel]

section Called

variable {procedure : Procedure} {index base : Nat} {frames : List Frame} {calls : Calls}

theorem Simulates.called (hrun : Simulates functions n run)
    (hK : (callee index procedure.function base frames calls).In functions)
    (hs : s.shape = (base, procedure.function.frameSize)) :
    Follows functions (callee index procedure.function base frames calls)
      [Frame.bodyMarker procedure.function base] procedure.code.bytes.length 0 n
      ⟨0, [Frame.bodyMarker procedure.function base], .normal, s⟩
      (run (calls.into procedure.function) procedure.code s) := by
  have hcode := (standsAt_append.mp procedure.standsAt).1
  have hms := List.cons_ne_nil (Frame.bodyMarker procedure.function base) []
  have h := hrun.follows hK hms hs hcode
  rwa [Nat.zero_add] at h

theorem Simulates.runs_of_none (hrun : Simulates functions n run)
    (hK : (callee index procedure.function base frames calls).In functions)
    (hs : s.shape = (base, procedure.function.frameSize))
    (hw : run (calls.into procedure.function) procedure.code s = none) :
    Runs functions (callee index procedure.function base frames calls) n
      ⟨0, [Frame.bodyMarker procedure.function base], .normal, s⟩ := by
  have h := hrun.called hK hs
  rwa [hw] at h

theorem Simulates.finishes_of_some {walk : Walk} (hrun : Simulates functions n run)
    (hK : (callee index procedure.function base frames calls).In functions)
    (hs : s.shape = (base, procedure.function.frameSize))
    (hw : run (calls.into procedure.function) procedure.code s = some walk) :
    Finishes functions (callee index procedure.function base frames calls)
      ⟨0, [Frame.bodyMarker procedure.function base], .normal, s⟩
      (finish procedure.function base walk) := by
  have h := hrun.called hK hs
  rw [hw] at h
  have hend := (standsAt_append.mp procedure.standsAt).2
  rw [Nat.zero_add] at hend
  exact Lands.finish hK h hend

end Called

theorem answers_call {program : Array Procedure}
    (hrun : Simulates (program.map Procedure.function) n run) {frames : List Frame}
    (hbase : s.base = Machine.baseOf frames) (calls : Calls) (index t : Nat) :
    Answers (program.map Procedure.function) n frames calls s.locals
      (Machine.call (program.map Procedure.function) index
        ⟨frames, calls.depth, calls.live, s.stack, s.memory, t⟩)
      (call program run calls index s) := by
  unfold Machine.call call
  rw [Array.getElem?_map]
  cases hp : program[index]? with
  | none => exact .inl ⟨_, rfl, rfl⟩
  | some p =>
    simp only [Option.map_some]
    have hfull := exhausted_iff frames calls s t p.function.frameSize
    by_cases hf : calls.full p.function.frameSize = true
    · rw [if_pos hf, if_pos (hfull.mpr hf)]
      exact .inl ⟨_, rfl, rfl⟩
    · rw [if_neg hf, if_neg (mt hfull.mp hf), Scope.popMany_stack]
      obtain hfail | ⟨args, below, -, hargs, hdone⟩ :=
        Scope.popMany_cases p.function.parameterCount s
      · rw [hfail]
        exact .inl ⟨_, rfl, rfl⟩
      · rw [hdone]
        have hK : (callee index p.function below.length frames calls).In
            (program.map Procedure.function) := by
          rw [Context.In, Array.getElem?_map]
          exact congrArg (Option.map Procedure.function) hp
        have hs := shape_entry hargs below s.memory
        have hactivate := activate_eq hargs index frames calls { s with operands := below } t
        simp only [hactivate]
        cases hw : run (calls.into p.function) p.code (entry p.function args below s.memory) with
        | none => exact ⟨_, rfl, hrun.runs_of_none hK hs hw t⟩
        | some walk =>
          have hfin := hrun.finishes_of_some hK hs hw
          have hshape := hrun.shaped (calls.into p.function) p.code
            (entry p.function args below s.memory)
          rw [hw] at hshape
          simp only
          cases hr : finish p.function below.length walk with
          | error trap after =>
            rw [hr] at hfin
            exact .inr ⟨_, rfl, hfin t⟩
          | ok u after =>
            rw [hr] at hfin
            obtain ⟨k, t', hk⟩ := hfin t
            rw [returned_callee ((shape_finish hr hshape).trans hs), ← hbase] at hk
            exact ⟨rfl, rfl, _, rfl, k, t', hk⟩

/-! ## Code as a whole -/

variable {program : Array Procedure}

theorem follows_call {function : Word} (hrun : Simulates (program.map Procedure.function) n run)
    (hK : K.In (program.map Procedure.function)) (hs : s.shape = K.shape)
    (hp : StandsAt K.function.body ip (Instruction.call function).encode) :
    Follows (program.map Procedure.function) K ms (ip + (Instruction.call function).encode.length)
      1 (n + 1) ⟨ip, ms, .normal, s⟩ (call program run K.calls function.toNat s) := by
  have hbase : s.base = Machine.baseOf
      (K.frame ⟨ip + (Instruction.call function).encode.length, ms, .normal, s⟩ :: K.callers) :=
    congrArg Prod.fst hs
  have hstep : ∀ t, step (program.map Procedure.function) (K.machine ⟨ip, ms, .normal, s⟩ t) =
      Machine.call (program.map Procedure.function) function.toNat
        ⟨K.frame ⟨ip + (Instruction.call function).encode.length, ms, .normal, s⟩ :: K.callers,
          K.calls.depth, K.calls.live, s.stack, s.memory, t + 1⟩ := step_executing hK hp rfl
  have hcall := answers_call hrun hbase K.calls function.toNat
  have hne := K.machine_frames_ne_nil ⟨ip, ms, .normal, s⟩
  match hr : call program run K.calls function.toNat s with
  | none =>
    simp only [hr] at hcall
    intro t
    obtain ⟨m, hm, m', hm'⟩ := hcall (t + 1)
    exact ⟨m', .head (hne t) ((hstep t).trans hm) hm'⟩
  | some (.error trap s₁) =>
    simp only [hr] at hcall
    intro t
    obtain ⟨m, hm, hmem⟩ | ⟨m, hm, hend⟩ := hcall (t + 1)
    · rw [← hmem]
      exact Machine.ends_of_step_error (hne t) ((hstep t).trans hm)
    · exact Machine.ends_of_steps (.single (hne t) ((hstep t).trans hm)) hend
  | some (.ok exit s₁) =>
    simp only [hr] at hcall
    obtain ⟨rfl, hlocals, -⟩ := hcall 0
    intro t
    obtain ⟨-, -, m, hm, k, t', hk⟩ := hcall (t + 1)
    rw [Context.frame, ← hlocals] at hk
    exact ⟨k + 1, t', Nat.le_add_left 1 k, .head (hne t) ((hstep t).trans hm) hk⟩

theorem follows_basic {i : Instruction} (hi : i.isBasic = true) (hK : K.In functions)
    (hp : StandsAt K.function.body ip i.encode) :
    Follows functions K ms (ip + i.encode.length) 1 (n + 1) ⟨ip, ms, .normal, s⟩
      (instruction program run K.calls i s) := by
  rw [instruction_basic K.calls hi]
  cases hr : Scope.effect i s with
  | ok u s₁ => exact moves_basic hK hp hi hr
  | error trap s₁ => exact traps_basic hK hp hi hr

theorem follows_brIf {label : Word} (hK : K.In functions)
    (hp : StandsAt K.function.body ip (Instruction.brIf label).encode) :
    Follows functions K ms (ip + (Instruction.brIf label).encode.length) 1 (n + 1)
      ⟨ip, ms, .normal, s⟩ (instruction program run K.calls (.brIf label) s) := by
  rw [instruction_brIf]
  cases hr : Scope.pop s with
  | error trap s₁ => exact step_trapping hK hp (bind_of_error (pop_error hr))
  | ok condition s₁ =>
    by_cases h0 : condition = 0
    · simp only [if_pos h0]
      refine moves_executing hK hp
        (a := K.activation (ip + (Instruction.brIf label).encode.length) ms s₁)
        ((bind_of_ok (pop_ok hr)).trans ?_) fun t => rfl
      rw [if_pos h0]
      rfl
    · simp only [if_neg h0]
      refine branches_executing hK hp ((bind_of_ok (pop_ok hr)).trans ?_)
      rw [if_neg h0]

theorem follows_instruction (hrun : Simulates (program.map Procedure.function) n run)
    (hK : K.In (program.map Procedure.function)) (hs : s.shape = K.shape) (i : Plain)
    (hp : StandsAt K.function.body ip i.val.encode) :
    Follows (program.map Procedure.function) K ms (ip + i.val.encode.length) 1 (n + 1)
      ⟨ip, ms, .normal, s⟩ (instruction program run K.calls i.val s) := by
  obtain ⟨i, hi⟩ := i
  cases i with
  | enter | elseMark | endMark => cases hi
  | br label => exact branches_executing hK hp rfl
  | brIf label => exact follows_brIf hK hp
  | ret => exact finishes_ret hK hp
  | call function => exact follows_call hrun hK hs hp
  | _ => exact follows_basic rfl hK hp

section Constructs

variable {functions : Array Function} (hrun : Simulates functions n run) (hK : K.In functions)
  (hms : ms ≠ []) (hs : s.shape = K.shape)
include hrun hK hms hs

theorem follows_block (hnext : next = ip + (Instruction.enter .block type).encode.length)
    (he : StandsAt K.function.body ip (Instruction.enter .block type).encode)
    (hb : StandsAt K.function.body next body.bytes)
    (hend : StandsAt K.function.body (next + body.bytes.length) Instruction.endMark.encode) :
    Follows functions K ms (next + body.bytes.length + Instruction.endMark.encode.length) 1 (n + 1)
      ⟨ip, ms, .normal, s⟩ ((run K.calls body s).map (leave type s.operands.length)) := by
  have henter : Moves functions K 1 ⟨ip, ms, .normal, s⟩ _ := moves_enter hK (by decide) he
  rw [← hnext] at henter
  exact henter.follows (hrun.arm hK hms hs (by decide) hb hend) (by omega) (by omega)

theorem follows_loop (hnext : next = ip + (Instruction.enter .loop type).encode.length)
    (he : StandsAt K.function.body ip (Instruction.enter .loop type).encode)
    (hb : StandsAt K.function.body next body.bytes)
    (hend : StandsAt K.function.body (next + body.bytes.length) Instruction.endMark.encode) :
    Follows functions K ms (next + body.bytes.length + Instruction.endMark.encode.length) 1 (n + 1)
      ⟨ip, ms, .normal, s⟩ (rounds (run K.calls body) s.operands.length n s) := by
  have henter : Moves functions K 1 ⟨ip, ms, .normal, s⟩ _ := moves_enter hK (by decide) he
  rw [← hnext] at henter
  exact henter.follows (hrun.rounds hK hms hb hend (Nat.le_refl n) hs) (by omega) (by omega)

theorem follows_cond (hnext : next = ip + (Instruction.enter .cond type).encode.length)
    (he : StandsAt K.function.body ip (Instruction.enter .cond type).encode)
    (hb : StandsAt K.function.body next body.bytes)
    (hend : StandsAt K.function.body (next + body.bytes.length) Instruction.endMark.encode) :
    Follows functions K ms (next + body.bytes.length + Instruction.endMark.encode.length) 1 (n + 1)
      ⟨ip, ms, .normal, s⟩ (choose type (run K.calls body) (fun s => some (.ok .fall s)) s) := by
  refine follows_choose hK hs he hnext (fun s₁ hs₁ => hrun.arm hK hms hs₁ (by decide) hb hend) ?_
  intro s₁ hs₁
  have h := (moves_skip_code (s := s₁) hK body hb (List.cons_ne_nil (opened .cond type s₁ next) ms)
    (Nat.le_refl _)).trans (moves_skip_end hK hend hms (afterEnd_self .inactiveIf _))
  exact h.weaken (Nat.zero_le _)

theorem follows_ifElse (hnext : next = ip + (Instruction.enter .cond type).encode.length)
    (he : StandsAt K.function.body ip (Instruction.enter .cond type).encode)
    (h₁ : StandsAt K.function.body next first.bytes)
    (helse : StandsAt K.function.body (next + first.bytes.length) Instruction.elseMark.encode)
    (h₂ : StandsAt K.function.body
      (next + first.bytes.length + Instruction.elseMark.encode.length) second.bytes)
    (hend : StandsAt K.function.body
      (next + first.bytes.length + Instruction.elseMark.encode.length + second.bytes.length)
      Instruction.endMark.encode) :
    Follows functions K ms
      (next + first.bytes.length + Instruction.elseMark.encode.length + second.bytes.length +
        Instruction.endMark.encode.length) 1 (n + 1)
      ⟨ip, ms, .normal, s⟩ (choose type (run K.calls first) (run K.calls second) s) := by
  refine follows_choose hK hs he hnext
    (fun s₁ hs₁ => hrun.firstArm hK hms hs₁ h₁ helse h₂ hend) ?_
  intro s₁ hs₁
  have h := (moves_skip_code (s := s₁) hK first h₁ (List.cons_ne_nil (opened .cond type s₁ next) ms)
    (Nat.le_refl _)).trans (moves_skip_else hK helse (afterElse_self _))
  exact h.follows (hrun.arm hK hms hs₁ (by decide) h₂ hend) (by omega) (by omega)

end Constructs

/-- One more level of the reference is one more step of the machine at least. -/
theorem Simulates.walk (hrun : Simulates (program.map Procedure.function) n run) :
    Simulates (program.map Procedure.function) (n + 1) (walk program run n) := by
  refine ⟨shaped_walk hrun.shaped n, ?_⟩
  intro K c ms ip s hK hms hs hp
  match c with
  | .done => exact Moves.refl _
  | .plain i next =>
    rw [bytes_plain] at hp ⊢
    obtain ⟨hi, hc⟩ := standsAt_append.mp hp
    rw [List.length_append, ← Nat.add_assoc]
    exact hrun.andThen hK hms hs (follows_instruction hrun hK hs i hi)
      (shaped_instruction K.calls i s) hc
  | .construct .block type body next =>
    rw [bytes_construct] at hp ⊢
    obtain ⟨he, hp⟩ := standsAt_append.mp hp
    obtain ⟨hb, hp⟩ := standsAt_append.mp hp
    obtain ⟨hend, hc⟩ := standsAt_append.mp hp
    simp only [List.length_append, ← Nat.add_assoc]
    exact hrun.andThen hK hms hs (follows_block hrun hK hms hs rfl he hb hend)
      (shaped_map_leave type _ (hrun.shaped K.calls body s)) hc
  | .construct .loop type body next =>
    rw [bytes_construct] at hp ⊢
    obtain ⟨he, hp⟩ := standsAt_append.mp hp
    obtain ⟨hb, hp⟩ := standsAt_append.mp hp
    obtain ⟨hend, hc⟩ := standsAt_append.mp hp
    simp only [List.length_append, ← Nat.add_assoc]
    exact hrun.andThen hK hms hs (follows_loop hrun hK hms hs rfl he hb hend)
      (shaped_rounds (hrun.shaped K.calls body) _ n s) hc
  | .construct .cond type body next =>
    rw [bytes_construct] at hp ⊢
    obtain ⟨he, hp⟩ := standsAt_append.mp hp
    obtain ⟨hb, hp⟩ := standsAt_append.mp hp
    obtain ⟨hend, hc⟩ := standsAt_append.mp hp
    simp only [List.length_append, ← Nat.add_assoc]
    exact hrun.andThen hK hms hs (follows_cond hrun hK hms hs rfl he hb hend)
      (shaped_choose (hrun.shaped K.calls body) shaped_fall s) hc
  | .ifElse type first second next =>
    rw [bytes_ifElse] at hp ⊢
    obtain ⟨he, hp⟩ := standsAt_append.mp hp
    obtain ⟨h₁, hp⟩ := standsAt_append.mp hp
    obtain ⟨helse, hp⟩ := standsAt_append.mp hp
    obtain ⟨h₂, hp⟩ := standsAt_append.mp hp
    obtain ⟨hend, hc⟩ := standsAt_append.mp hp
    simp only [List.length_append, ← Nat.add_assoc]
    exact hrun.andThen hK hms hs (follows_ifElse hrun hK hms hs rfl he h₁ helse h₂ hend)
      (shaped_choose (hrun.shaped K.calls first) (hrun.shaped K.calls second) s) hc

theorem simulates_eval (program : Array Procedure) (bound : Nat) :
    Simulates (program.map Procedure.function) bound (eval program bound) := by
  induction bound with
  | zero => exact ⟨fun _ _ _ => trivial, fun _ _ _ _ => Runs.zero _⟩
  | succ bound ih => exact ih.walk

end WasmI32.Structured
