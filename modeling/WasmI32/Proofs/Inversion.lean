import WasmI32.Proofs.Structured.Effect

/-!
# What an outcome tells

A branch, a call, a return or a step succeeds in a few ways and traps in a few others. Here they are
told apart, each with what has held before it and what it leaves, and so are the ends of an
invocation. What running code preserves can then be shown way by way.
-/

namespace WasmI32

theorem Instruction.decodeAt_of_size_le {code : Array UInt8} {ip : Nat} (h : code.size ≤ ip) :
    decodeAt code ip = .error (.unexpectedEnd ip) := by
  have hnone : code[ip]? = none := Array.getElem?_eq_none h
  rw [decodeAt, window, hnone]
  rfl

theorem FlowState.normal_or_skipping (state : FlowState) :
    state = .normal ∨ ∃ reason depth, state = .skipping reason depth := by
  cases state with
  | normal => exact .inl rfl
  | skipping reason depth => exact .inr ⟨reason, depth, rfl⟩

/-! ## Instructions -/

namespace Activation

variable {α : Type} {a a' : Activation} {flow : Flow}

theorem onScope_eq_ok {x : EStateM Trap Structured.Scope α} {v : α}
    (h : onScope x a = .ok v a') : ∃ s, x a.scope = .ok v s ∧ a' = a.withScope s := by
  unfold onScope at h
  cases hx : x a.scope with
  | ok v₁ s =>
    simp only [hx] at h
    cases h
    exact ⟨s, rfl, rfl⟩
  | error trap s =>
    simp only [hx] at h
    cases h

theorem onScope_eq_error {x : EStateM Trap Structured.Scope α} {trap : Trap}
    (h : onScope x a = .error trap a') : ∃ s, x a.scope = .error trap s ∧ a' = a.withScope s := by
  unfold onScope at h
  cases hx : x a.scope with
  | ok v s =>
    simp only [hx] at h
    cases h
  | error trap₁ s =>
    simp only [hx] at h
    cases h
    exact ⟨s, rfl, rfl⟩

theorem onStack_eq_ok {x : StackM α} {v : α} (h : onStack x a = .ok v a') :
    x a.stack = .ok v a'.stack ∧ a'.frame = a.frame ∧ a'.memory = a.memory := by
  obtain ⟨frame, stack, memory⟩ := a
  unfold onStack at h
  cases hr : x stack with
  | ok v₁ stack₁ =>
    simp only [hr] at h
    cases h
    exact ⟨rfl, rfl, rfl⟩
  | error trap stack₁ =>
    simp only [hr] at h
    cases h

theorem andNext_eq_ok {x : ActivationM Unit} (h : andNext x a = .ok flow a') :
    x a = .ok () a' := by
  obtain ⟨u, a₁, hx, hr⟩ := bind_eq_ok_iff.mp h
  cases hr
  exact hx

theorem flow_of_andNext {x : ActivationM Unit} (h : andNext x a = .ok flow a') : flow = .next := by
  obtain ⟨u, a₁, -, hr⟩ := bind_eq_ok_iff.mp h
  cases hr
  rfl

theorem onStack_eq_error {x : StackM α} {trap : Trap} (h : onStack x a = .error trap a') :
    ∃ stack, x a.stack = .error trap stack ∧ a' = { a with stack } := by
  obtain ⟨frame, stack, memory⟩ := a
  unfold onStack at h
  cases hr : x stack with
  | ok v stack₁ =>
    simp only [hr] at h
    cases h
  | error trap₁ stack₁ =>
    simp only [hr] at h
    cases h
    exact ⟨stack₁, rfl, rfl⟩

theorem andNext_eq_error {x : ActivationM Unit} {trap : Trap} (h : andNext x a = .error trap a') :
    x a = .error trap a' := by
  obtain hx | ⟨u, a₁, -, hr⟩ := bind_eq_error h
  · exact hx
  · cases hr

/-! ### Branches -/

/-- What a branch does: it goes back to a loop, or skips to the end of a construct, or leaves the
function. -/
inductive Branches (label : Word) (a : Activation) : Flow → Activation → Prop
  | restart {target : Marker} {outer : List Marker}
    (hm : a.frame.markers = a.frame.markers.take label.toNat ++ target :: outer)
    (hk : target.kind = .loop) :
    Branches label a .next ⟨{ a.frame with markers := target :: outer, ip := target.start },
      a.stack.truncate target.height, a.memory⟩
  | skip {target : Marker} {outer : List Marker} {results : Array Word} {stack : OperandStack}
    (hm : a.frame.markers = a.frame.markers.take label.toNat ++ target :: outer)
    (hk : target.kind ≠ .loop) (ho : outer ≠ [])
    (hpop : OperandStack.popMany target.branchArity a.stack = .ok results stack) :
    Branches label a .next ⟨{ a.frame with state := .skipping .branch (outer.length + 1) },
      (stack.truncate target.height).append results, a.memory⟩
  | ret {target : Marker} {results : Array Word} {stack : OperandStack}
    (hm : a.frame.markers = a.frame.markers.take label.toNat ++ [target])
    (hk : target.kind ≠ .loop)
    (hpop : OperandStack.popMany target.branchArity a.stack = .ok results stack) :
    Branches label a .ret ⟨{ a.frame with markers := [] },
      (stack.truncate target.height).append results, a.memory⟩

/-- Why a branch traps: no open construct has its label, or operands to keep are missing. -/
inductive BranchTraps (label : Word) (a : Activation) : Trap → Prop
  | depth (h : a.frame.markers.length ≤ label.toNat) :
    BranchTraps label a (.branchDepth label.toNat)
  | underflow {target : Marker} {outer : List Marker}
    (hm : a.frame.markers = a.frame.markers.take label.toNat ++ target :: outer)
    (hk : target.kind ≠ .loop) (h : a.stack.size < a.stack.floor + target.branchArity) :
    BranchTraps label a .stackUnderflow

theorem branches_of_branch {label : Word} (h : branch label a = .ok flow a') :
    Branches label a flow a' := by
  unfold branch at h
  split at h
  · cases h
  · rename_i target outer hd
    have hm : a.frame.markers = a.frame.markers.take label.toNat ++ target :: outer := by
      rw [← hd, List.take_append_drop]
    split at h
    · rename_i hk
      cases h
      exact .restart hm hk
    · rename_i hk
      obtain ⟨results, a₁, hpop, h⟩ := bind_eq_ok_iff.mp h
      obtain ⟨u, a₂, hcut, h⟩ := bind_eq_ok_iff.mp h
      obtain ⟨hpop, hframe, hmemory⟩ := onStack_eq_ok hpop
      cases hcut
      by_cases ho : outer = []
      · subst ho
        cases h
        rw [hframe, hmemory]
        exact .ret hm hk hpop
      · rw [if_neg (by simpa using ho)] at h
        cases h
        rw [hframe, hmemory]
        exact .skip hm hk ho hpop

/-- A branch that traps changes nothing. -/
theorem branchTraps_of_branch {label : Word} {trap : Trap} (h : branch label a = .error trap a') :
    BranchTraps label a trap ∧ a' = a := by
  unfold branch at h
  split at h
  · rename_i hd
    cases h
    exact ⟨.depth (List.drop_eq_nil_iff.mp hd), rfl⟩
  · rename_i target outer hd
    have hm : a.frame.markers = a.frame.markers.take label.toNat ++ target :: outer := by
      rw [← hd, List.take_append_drop]
    split at h
    · cases h
    · rename_i hk
      obtain hx | ⟨results, a₁, -, h⟩ := bind_eq_error h
      · obtain ⟨stack, hpop, rfl⟩ := onStack_eq_error hx
        obtain ⟨hlt, rfl, rfl⟩ := OperandStack.popMany_eq_error hpop
        exact ⟨.underflow hm hk hlt, rfl⟩
      · obtain hcut | ⟨u, a₂, -, h⟩ := bind_eq_error h
        · cases hcut
        · split at h
          · cases h
          · cases h

/-! ### Instructions that transfer control -/

/-- What an instruction that transfers control does: how the machine goes on, and what is left. -/
inductive Controls (a : Activation) : Instruction → Flow → Activation → Prop
  | enter {kind : BlockKind} (type : BlockType) (hk : kind ≠ .cond) :
    Controls a (.enter kind type) .next { a with frame := a.frame.enter kind type a.stack.size }
  | enterIf {type : BlockType} {condition : Word} {stack : OperandStack}
    (hpop : OperandStack.pop a.stack = .ok condition stack) :
    Controls a (.enter .cond type) .next
      ⟨{ a.frame.enter .cond type stack.size with
          state := if condition = 0 then .skipping .inactiveIf (a.frame.depth + 1)
            else a.frame.state }, stack, a.memory⟩
  | elseMark {type : BlockType} {height start : Nat} {outer : List Marker}
    (hm : a.frame.markers = ⟨.cond, type, height, start⟩ :: outer) :
    Controls a .elseMark .next
      { a with frame := { a.frame with state := .skipping .takenIf a.frame.depth } }
  | endMark : Controls a .endMark a.frame.close.1 { a with frame := a.frame.close.2 }
  | br {label : Word} {flow : Flow} {a' : Activation} (h : Branches label a flow a') :
    Controls a (.br label) flow a'
  | brIf {label condition : Word} {stack : OperandStack} {flow : Flow} {a' : Activation}
    (hpop : OperandStack.pop a.stack = .ok condition stack) (hc : condition ≠ 0)
    (h : Branches label { a with stack } flow a') : Controls a (.brIf label) flow a'
  | stay (label : Word) {stack : OperandStack} (hpop : OperandStack.pop a.stack = .ok 0 stack) :
    Controls a (.brIf label) .next { a with stack }
  | ret : Controls a .ret .ret a
  | call (callee : Word) : Controls a (.call callee) (.call callee.toNat) a

/-- Why an instruction that transfers control traps, and the stack it leaves. Only a condition may
have been popped. -/
inductive ControlTraps (a : Activation) : Instruction → Trap → OperandStack → Prop
  | enterIf (type : BlockType) (h : a.stack.size ≤ a.stack.floor) :
    ControlTraps a (.enter .cond type) .stackUnderflow a.stack
  | elseMark (h : ∀ m ∈ a.frame.markers.head?, m.kind ≠ .cond) :
    ControlTraps a .elseMark .unexpectedElse a.stack
  | br {label : Word} {trap : Trap} (h : BranchTraps label a trap) :
    ControlTraps a (.br label) trap a.stack
  | brIf {label condition : Word} {stack : OperandStack} {trap : Trap}
    (hpop : OperandStack.pop a.stack = .ok condition stack) (hc : condition ≠ 0)
    (h : BranchTraps label { a with stack } trap) : ControlTraps a (.brIf label) trap stack
  | condition (label : Word) (h : a.stack.size ≤ a.stack.floor) :
    ControlTraps a (.brIf label) .stackUnderflow a.stack

theorem controls_of_enterIf {type : BlockType} (h : enterIf type a = .ok () a') :
    Controls a (.enter .cond type) .next a' := by
  obtain ⟨condition, a₁, hpop, h⟩ := bind_eq_ok_iff.mp h
  obtain ⟨u, a₂, henter, h⟩ := bind_eq_ok_iff.mp h
  obtain ⟨frame₁, stack₁, memory₁⟩ := a₁
  obtain ⟨hpop, rfl, rfl⟩ := onStack_eq_ok hpop
  cases henter
  have hif : Controls a (.enter .cond type) .next _ := .enterIf hpop
  by_cases hc : condition = 0
  · rw [if_pos hc] at h hif
    cases h
    exact hif
  · rw [if_neg hc] at h hif
    cases h
    exact hif

theorem controls_of_branchIf {label : Word} (h : branchIf label a = .ok flow a') :
    Controls a (.brIf label) flow a' := by
  obtain ⟨condition, a₁, hpop, h⟩ := bind_eq_ok_iff.mp h
  obtain ⟨frame₁, stack₁, memory₁⟩ := a₁
  obtain ⟨hpop, rfl, rfl⟩ := onStack_eq_ok hpop
  by_cases hc : condition = 0
  · rw [if_pos hc] at h
    cases h
    exact .stay label (hc ▸ hpop)
  · rw [if_neg hc] at h
    exact .brIf hpop hc (branches_of_branch h)

theorem controlTraps_of_enterIf {type : BlockType} {trap : Trap}
    (h : enterIf type a = .error trap a') :
    ControlTraps a (.enter .cond type) trap a.stack ∧ a' = a := by
  obtain hx | ⟨condition, a₁, -, h⟩ := bind_eq_error h
  · obtain ⟨stack, hpop, rfl⟩ := onStack_eq_error hx
    obtain ⟨hle, rfl, rfl⟩ := OperandStack.pop_eq_error hpop
    exact ⟨.enterIf type hle, rfl⟩
  · obtain henter | ⟨u, a₂, -, h⟩ := bind_eq_error h
    · cases henter
    · split at h
      · cases h
      · cases h

theorem controlTraps_of_branchIf {label : Word} {trap : Trap}
    (h : branchIf label a = .error trap a') :
    ∃ stack, ControlTraps a (.brIf label) trap stack ∧ a' = { a with stack } := by
  obtain hx | ⟨condition, a₁, hx, h⟩ := bind_eq_error h
  · obtain ⟨stack, hpop, rfl⟩ := onStack_eq_error hx
    obtain ⟨hle, rfl, rfl⟩ := OperandStack.pop_eq_error hpop
    exact ⟨_, .condition label hle, rfl⟩
  · obtain ⟨frame₁, stack₁, memory₁⟩ := a₁
    obtain ⟨hpop, rfl, rfl⟩ := onStack_eq_ok hx
    by_cases hc : condition = 0
    · rw [if_pos hc] at h
      cases h
    · rw [if_neg hc] at h
      obtain ⟨hb, rfl⟩ := branchTraps_of_branch h
      exact ⟨_, .brIf hpop hc hb, rfl⟩

/-! ### All instructions -/

/-- An instruction that succeeds has transferred control or changed the scope. -/
theorem execute_eq_ok {i : Instruction} (h : execute i a = .ok flow a') :
    Controls a i flow a' ∨ i.isBasic = true ∧ flow = .next ∧
      ∃ s, Structured.Scope.effect i a.scope = .ok () s ∧ a' = a.withScope s := by
  by_cases hb : i.isBasic = true
  · rw [execute_basic hb] at h
    exact .inr ⟨hb, flow_of_andNext h, onScope_eq_ok (andNext_eq_ok h)⟩
  · refine .inl ?_
    cases i with
    | enter kind type =>
      cases kind with
      | cond =>
        obtain rfl := flow_of_andNext h
        exact controls_of_enterIf (andNext_eq_ok h)
      | block =>
        cases h
        exact .enter type (by decide)
      | loop =>
        cases h
        exact .enter type (by decide)
    | elseMark =>
      obtain rfl := flow_of_andNext h
      have helse := andNext_eq_ok h
      unfold reachElse at helse
      split at helse
      · rename_i hm
        cases helse
        exact .elseMark hm
      · cases helse
    | endMark =>
      cases h
      exact .endMark
    | br label => exact .br (branches_of_branch h)
    | brIf label => exact controls_of_branchIf h
    | ret =>
      cases h
      exact .ret
    | call callee =>
      cases h
      exact .call callee
    | _ => exact absurd rfl hb

/-- An instruction that traps has transferred no control. -/
theorem execute_eq_error {i : Instruction} {trap : Trap} (h : execute i a = .error trap a') :
    (∃ stack, ControlTraps a i trap stack ∧ a' = { a with stack }) ∨ i.isBasic = true ∧
      ∃ s, Structured.Scope.effect i a.scope = .error trap s ∧ a' = a.withScope s := by
  by_cases hb : i.isBasic = true
  · rw [execute_basic hb] at h
    exact .inr ⟨hb, onScope_eq_error (andNext_eq_error h)⟩
  · refine .inl ?_
    cases i with
    | enter kind type =>
      cases kind with
      | cond =>
        obtain ⟨htrap, rfl⟩ := controlTraps_of_enterIf (andNext_eq_error h)
        exact ⟨_, htrap, rfl⟩
      | block => cases h
      | loop => cases h
    | elseMark =>
      have helse := andNext_eq_error h
      unfold reachElse at helse
      split at helse
      · cases helse
      · rename_i hm
        cases helse
        refine ⟨_, .elseMark ?_, rfl⟩
        intro m hmem hk
        obtain ⟨outer, houter⟩ := List.head?_eq_some_iff.mp hmem
        obtain ⟨kind, type, height, start⟩ := m
        cases hk
        exact hm type height start outer houter
    | endMark => cases h
    | br label =>
      obtain ⟨htrap, rfl⟩ := branchTraps_of_branch h
      exact ⟨_, .br htrap, rfl⟩
    | brIf label => exact controlTraps_of_branchIf h
    | ret => cases h
    | call callee => cases h
    | _ => exact absurd rfl hb

end Activation

namespace Machine

variable {functions : Array Function} {m m' : Machine} {trap : Trap} {index : Nat}
  {args : Array Word} {frame : Frame} {callers : List Frame} {body : Array UInt8}
  {stack : OperandStack} {memory : Memory} {flow : Flow} {a : Activation}

/-! ## Calls and returns -/

theorem call_eq_ok (h : call functions index m = .ok () m') :
    ∃ f args stack, functions[index]? = some f ∧ ¬ m.Exhausted f.frameSize ∧
      OperandStack.popMany f.parameterCount m.stack = .ok args stack ∧
      m' = ⟨Frame.create index f args stack.size :: m.frames, m.depth + 1,
        m.liveLocals + f.frameSize, stack.withFloor stack.size, m.memory, m.steps⟩ := by
  unfold call at h
  cases hf : functions[index]? with
  | none =>
    simp only [hf] at h
    cases h
  | some f =>
    simp only [hf] at h
    split at h
    · cases h
    · rename_i hroom
      cases hp : OperandStack.popMany f.parameterCount m.stack with
      | error trap stack =>
        simp only [hp] at h
        cases h
      | ok args stack =>
        simp only [hp] at h
        cases h
        exact ⟨f, args, stack, rfl, hroom, hp, rfl⟩

/-- A call that fails changes nothing. -/
theorem call_eq_error (h : call functions index m = .error trap m') :
    m' = m ∧ (functions[index]? = none ∧ trap = .unknownFunction index ∨
      ∃ f, functions[index]? = some f ∧ (m.Exhausted f.frameSize ∧ trap = .callStackExhausted ∨
        ¬ m.Exhausted f.frameSize ∧ m.stack.size < m.stack.floor + f.parameterCount ∧
          trap = .stackUnderflow)) := by
  unfold call at h
  cases hf : functions[index]? with
  | none =>
    simp only [hf] at h
    cases h
    exact ⟨rfl, .inl ⟨rfl, rfl⟩⟩
  | some f =>
    simp only [hf] at h
    split at h
    · rename_i hroom
      cases h
      exact ⟨rfl, .inr ⟨f, rfl, .inl ⟨hroom, rfl⟩⟩⟩
    · rename_i hroom
      cases hp : OperandStack.popMany f.parameterCount m.stack with
      | ok args stack =>
        simp only [hp] at h
        cases h
      | error trap' stack =>
        simp only [hp] at h
        cases h
        obtain ⟨hlt, rfl, rfl⟩ := OperandStack.popMany_eq_error hp
        exact ⟨rfl, .inr ⟨f, rfl, .inr ⟨hroom, hlt, rfl⟩⟩⟩

theorem eq_of_call_error (h : call functions index m = .error trap m') : m' = m :=
  (call_eq_error h).1

theorem ret_eq_ok (hm : m.frames = frame :: callers) (h : ret m = .ok () m') :
    m.stack.size - frame.base = frame.resultCount ∧
      m' = ⟨callers, m.depth - 1, m.liveLocals - frame.locals.size,
        m.stack.withFloor (baseOf callers), m.memory, m.steps⟩ := by
  obtain ⟨frames, depth, liveLocals, stack, memory, steps⟩ := m
  subst hm
  simp only [ret] at h
  split at h
  · rename_i hr
    cases h
    exact ⟨hr, rfl⟩
  · cases h

/-- A return that fails changes nothing. -/
theorem ret_eq_error (h : ret m = .error trap m') :
    m' = m ∧ ∃ frame callers, m.frames = frame :: callers ∧
      m.stack.size - frame.base ≠ frame.resultCount ∧
      trap = .arityMismatch frame.resultCount (m.stack.size - frame.base) := by
  obtain ⟨frames, depth, liveLocals, stack, memory, steps⟩ := m
  cases frames with
  | nil => cases h
  | cons frame callers =>
    simp only [ret] at h
    split at h
    · cases h
    · rename_i hsize
      cases h
      exact ⟨rfl, frame, callers, rfl, hsize, rfl⟩

/-- What the call stack does when the running frame asks for it. -/
inductive Follows (functions : Array Function) (m : Machine) (frame : Frame)
    (callers : List Frame) : Flow → Machine → Prop
  | next : Follows functions m frame callers .next m
  | call {index : Nat} {f : Function} {args : Array Word} {stack : OperandStack}
    (hf : functions[index]? = some f) (hroom : ¬ m.Exhausted f.frameSize)
    (hpop : OperandStack.popMany f.parameterCount m.stack = .ok args stack) :
    Follows functions m frame callers (.call index)
      ⟨Frame.create index f args stack.size :: frame :: callers, m.depth + 1,
        m.liveLocals + f.frameSize, stack.withFloor stack.size, m.memory, m.steps⟩
  | ret (hr : m.stack.size - frame.base = frame.resultCount) :
    Follows functions m frame callers .ret
      ⟨callers, m.depth - 1, m.liveLocals - frame.locals.size, m.stack.withFloor (baseOf callers),
        m.memory, m.steps⟩

theorem follows_of_follow (hm : m.frames = frame :: callers)
    (h : follow functions flow m = .ok () m') : Follows functions m frame callers flow m' := by
  cases flow with
  | next =>
    cases h
    exact .next
  | call index =>
    obtain ⟨f, args, stack, hf, hroom, hpop, rfl⟩ := call_eq_ok h
    rw [hm]
    exact .call hf hroom hpop
  | ret =>
    obtain ⟨hr, rfl⟩ := ret_eq_ok hm h
    exact .ret hr

theorem eq_of_follow_error (h : follow functions flow m = .error trap m') :
    m' = m ∧ flow ≠ .next := by
  cases flow with
  | next => cases h
  | call index => exact ⟨eq_of_call_error h, by simp⟩
  | ret => exact ⟨(ret_eq_error h).1, by simp⟩

/-! ## Steps -/

/-- The end of the code is no exception: there too nothing can be read. -/
theorem fetch_eq (body : Array UInt8) (ip : Nat) :
    fetch body ip = (Instruction.decodeAt body ip).mapError .ofInstructionError := by
  unfold fetch
  split
  · rename_i hip
    rw [Instruction.decodeAt_of_size_le hip]
    rfl
  · cases Instruction.decodeAt body ip <;> rfl

theorem fetch_eq_ok_iff {ip next : Nat} {i : Instruction} :
    fetch body ip = .ok (i, next) ↔ Instruction.decodeAt body ip = .ok (i, next) := by
  rw [fetch_eq]
  cases Instruction.decodeAt body ip <;> simp [Except.mapError]

theorem advance_of_normal {i : Instruction} {next : Nat} (hs : frame.state = .normal)
    (hi : fetch body frame.ip = .ok (i, next)) :
    advance body ⟨frame, stack, memory⟩ =
      Activation.execute i ⟨{ frame with ip := next }, stack, memory⟩ := by
  simp only [advance, hi, hs]
  rfl

theorem advance_of_skipping {i : Instruction} {next depth : Nat} {reason : SkipReason}
    (hs : a.frame.state = .skipping reason depth) (hi : fetch body a.frame.ip = .ok (i, next)) :
    advance body a = .ok (({ a.frame with ip := next } : Frame).skip a.stack.size i).1
      ⟨(({ a.frame with ip := next } : Frame).skip a.stack.size i).2, a.stack, a.memory⟩ := by
  have hskip : a.frame.state.isSkipping = true := by rw [hs]; rfl
  simp only [advance, hi, hskip, if_true]

/-- A frame goes on by running an instruction or by reading over it. -/
theorem advance_eq_ok (h : advance body ⟨frame, stack, memory⟩ = .ok flow a) :
    ∃ i next, fetch body frame.ip = .ok (i, next) ∧
      (frame.state = .normal ∧
          Activation.execute i ⟨{ frame with ip := next }, stack, memory⟩ = .ok flow a ∨
        ∃ reason depth frame₁, frame.state = .skipping reason depth ∧
          ({ frame with ip := next } : Frame).skip stack.size i = (flow, frame₁) ∧
          a = ⟨frame₁, stack, memory⟩) := by
  cases hi : fetch body frame.ip with
  | error trap =>
    simp only [advance, hi] at h
    cases h
  | ok found =>
    obtain ⟨i, next⟩ := found
    refine ⟨i, next, rfl, ?_⟩
    obtain hs | ⟨reason, depth, hs⟩ := frame.state.normal_or_skipping
    · rw [advance_of_normal hs hi] at h
      exact .inl ⟨hs, h⟩
    · rw [advance_of_skipping (a := ⟨frame, stack, memory⟩) hs hi] at h
      cases h
      exact .inr ⟨reason, depth, _, hs, rfl, rfl⟩

/-- It traps where nothing can be read, or in an instruction that it runs. -/
theorem advance_eq_error (h : advance body ⟨frame, stack, memory⟩ = .error trap a) :
    fetch body frame.ip = .error trap ∧ a = ⟨frame, stack, memory⟩ ∨
      ∃ i next, fetch body frame.ip = .ok (i, next) ∧ frame.state = .normal ∧
        Activation.execute i ⟨{ frame with ip := next }, stack, memory⟩ = .error trap a := by
  cases hi : fetch body frame.ip with
  | error e =>
    simp only [advance, hi] at h
    cases h
    exact .inl ⟨rfl, rfl⟩
  | ok found =>
    obtain ⟨i, next⟩ := found
    obtain hs | ⟨reason, depth, hs⟩ := frame.state.normal_or_skipping
    · rw [advance_of_normal hs hi] at h
      exact .inr ⟨i, next, rfl, hs, h⟩
    · rw [advance_of_skipping (a := ⟨frame, stack, memory⟩) hs hi] at h
      cases h

/-- A step runs or skips an instruction and then does what it asks of the call stack. -/
theorem step_eq_ok (hm : m.frames = frame :: callers) (h : step functions m = .ok () m') :
    ∃ f flow a, functions[frame.function]? = some f ∧
      advance f.body ⟨frame, m.stack, m.memory⟩ = .ok flow a ∧
      follow functions flow
        ⟨a.frame :: callers, m.depth, m.liveLocals, a.stack, a.memory, m.steps + 1⟩ =
          .ok () m' := by
  obtain ⟨frames, depth, liveLocals, stack, memory, steps⟩ := m
  subst hm
  simp only [step] at h
  cases hf : functions[frame.function]? with
  | none =>
    simp only [hf] at h
    cases h
  | some f =>
    simp only [hf] at h
    cases ha : advance f.body ⟨frame, stack, memory⟩ with
    | error trap a =>
      simp only [ha] at h
      cases h
    | ok flow a =>
      simp only [ha] at h
      exact ⟨f, flow, a, rfl, ha, h⟩

/-- A step traps in its instruction, or in what that asks of the call stack. -/
theorem step_eq_error {f : Function} (hm : m.frames = frame :: callers)
    (hf : functions[frame.function]? = some f) (h : step functions m = .error trap m') :
    ∃ a, m' = ⟨a.frame :: callers, m.depth, m.liveLocals, a.stack, a.memory, m.steps + 1⟩ ∧
      (advance f.body ⟨frame, m.stack, m.memory⟩ = .error trap a ∨
        ∃ flow, flow ≠ .next ∧ advance f.body ⟨frame, m.stack, m.memory⟩ = .ok flow a ∧
          follow functions flow m' = .error trap m') := by
  obtain ⟨frames, depth, liveLocals, stack, memory, steps⟩ := m
  subst hm
  simp only [step, hf] at h
  cases ha : advance f.body ⟨frame, stack, memory⟩ with
  | error trap' a =>
    simp only [ha] at h
    cases h
    exact ⟨a, rfl, .inl rfl⟩
  | ok flow a =>
    simp only [ha] at h
    obtain ⟨rfl, hflow⟩ := eq_of_follow_error h
    exact ⟨a, rfl, .inr ⟨flow, hflow, rfl, h⟩⟩

theorem step_of_advance {f : Function} (hm : m.frames = frame :: callers)
    (hf : functions[frame.function]? = some f)
    (ha : advance f.body ⟨frame, m.stack, m.memory⟩ = .ok flow a) :
    step functions m = follow functions flow
      ⟨a.frame :: callers, m.depth, m.liveLocals, a.stack, a.memory, m.steps + 1⟩ := by
  obtain ⟨frames, depth, liveLocals, stack, memory, steps⟩ := m
  subst hm
  simp only [step, hf, ha]

theorem step_of_advance_error {f : Function} (hm : m.frames = frame :: callers)
    (hf : functions[frame.function]? = some f)
    (ha : advance f.body ⟨frame, m.stack, m.memory⟩ = .error trap a) :
    step functions m = .error trap
      ⟨a.frame :: callers, m.depth, m.liveLocals, a.stack, a.memory, m.steps + 1⟩ := by
  obtain ⟨frames, depth, liveLocals, stack, memory, steps⟩ := m
  subst hm
  simp only [step, hf, ha]

/-! ## Invocations -/

/-- The machine before the first instruction of an invocation. -/
def started (index : Nat) (f : Function) (args : Array Word) (memory : Memory) : Machine :=
  ⟨[Frame.create index f args 0], 1, f.frameSize, {}, memory, 0⟩

theorem popMany_all (args : Array Word) :
    OperandStack.popMany args.size { values := args } = .ok args {} := by
  simp [OperandStack.popMany, OperandStack.size]

/-- An invocation that gets to its first instruction has a function, the arguments for it and room
for its locals. -/
theorem start_eq_running_iff : m.start functions index args = .running m' ↔
    ∃ f, functions[index]? = some f ∧ args.size = f.parameterCount ∧
      ¬ (create m.memory).Exhausted f.frameSize ∧ m' = started index f args m.memory := by
  unfold start enter
  cases hf : functions[index]? with
  | none => simp
  | some f =>
    simp only [Option.some.injEq, exists_eq_left']
    by_cases hargs : args.size = f.parameterCount
    · have happend : OperandStack.append {} args = { values := args } := by
        rw [OperandStack.append, Array.empty_append]
      simp only [hargs, ne_eq, not_true_eq_false, if_false, create, call, hf, happend, true_and]
      by_cases hroom : Exhausted ⟨[], 0, 0, {}, m.memory, 0⟩ f.frameSize
      · have hroom' : Exhausted ⟨[], 0, 0, { values := args }, m.memory, 0⟩ f.frameSize := hroom
        simp [hroom, hroom']
      · have hroom' : ¬ Exhausted ⟨[], 0, 0, { values := args }, m.memory, 0⟩ f.frameSize := hroom
        rw [← hargs, popMany_all]
        simp only [hroom, hroom', if_false, not_false_eq_true, true_and, Progress.running.injEq,
          activate, started]
        constructor
        · rintro rfl
          simp [OperandStack.withFloor, OperandStack.size]
        · rintro rfl
          simp [OperandStack.withFloor, OperandStack.size]
    · simp [hargs]

/-- An invocation does not end before its first instruction. -/
theorem start_ne_finished (results : Array Word) :
    m.start functions index args ≠ .finished results m' := by
  intro h
  unfold start at h
  split at h <;> cases h

/-- The states between the steps of an invocation are those a run comes to from its start. -/
theorem invoke_eq_running_iff {n : Nat} : m.invoke functions index args n = .running m' ↔
    ∃ m₁, m.start functions index args = .running m₁ ∧ Steps functions n m₁ m' := by
  unfold invoke
  cases hs : m.start functions index args with
  | running m₁ =>
    simp only [Progress.resume, run_eq_running_iff, Progress.running.injEq, exists_eq_left']
  | finished results m₁ => simp [Progress.resume]
  | trapped report m₁ => simp [Progress.resume]

/-- An invocation that traps has been refused, or one of its steps traps. -/
theorem invoke_eq_trapped {n : Nat} {report : TrapReport}
    (h : m.invoke functions index args n = .trapped report m') :
    m.start functions index args = .trapped report m' ∨
      ∃ k < n, ∃ m₁, m.invoke functions index args k = .running m₁ ∧
        step functions m₁ = .error report.trap m' := by
  unfold invoke at h
  cases hs : m.start functions index args with
  | finished results m₀ => exact absurd hs (start_ne_finished results)
  | trapped report₀ m₀ =>
    rw [hs] at h
    cases h
    exact .inl rfl
  | running m₀ =>
    rw [hs] at h
    obtain ⟨k, hk, m₁, frame, callers, hsteps, -, ht⟩ := run_eq_trapped_iff.mp h
    obtain ⟨trap, hstep, rfl⟩ := stepAt_eq_error ht
    exact .inr ⟨k, hk, m₁, invoke_eq_running_iff.mpr ⟨m₀, hs, hsteps⟩, hstep⟩

/-- An invocation ends when its last frame has returned. -/
theorem invoke_eq_finished {n : Nat} {results : Array Word}
    (h : m.invoke functions index args n = .finished results m') :
    ∃ k < n, ∃ m₁, m.invoke functions index args k = .running m₁ ∧ m₁.frames = [] ∧
      m₁.drain = .finished results m' := by
  unfold invoke at h
  cases hs : m.start functions index args with
  | finished results₀ m₀ => exact absurd hs (start_ne_finished results₀)
  | trapped report₀ m₀ =>
    rw [hs] at h
    cases h
  | running m₀ =>
    rw [hs] at h
    obtain ⟨k, hk, m₁, hsteps, hnil, hdrain⟩ := run_eq_finished_iff.mp h
    exact ⟨k, hk, m₁, invoke_eq_running_iff.mpr ⟨m₀, hs, hsteps⟩, hnil, hdrain⟩

/-- What holds at the start of an invocation and is preserved by a step holds between any two
steps. -/
theorem running_induction {P : Machine → Prop} {n : Nat}
    (h : m.invoke functions index args n = .running m')
    (hstart : ∀ f, functions[index]? = some f → args.size = f.parameterCount →
      ¬ (create m.memory).Exhausted f.frameSize → P (started index f args m.memory))
    (hstep : ∀ {m m' : Machine}, m.frames ≠ [] → step functions m = .ok () m' → P m → P m') :
    P m' := by
  obtain ⟨m₁, hs, hsteps⟩ := invoke_eq_running_iff.mp h
  obtain ⟨f, hf, hargs, hroom, rfl⟩ := start_eq_running_iff.mp hs
  exact hsteps.preserves hstep (hstart f hf hargs hroom)

end Machine

end WasmI32
