import WasmI32.Proofs.Skipping

/-!
# What a trap leaves

An instruction may trap after it has popped some of its operands, and a call or a return may be
refused after the instruction that asks for it has run. Whatever fails, and wherever it does, the
memory, the locals and the callers are as they were before the instruction. Only operands above the
floor may be gone, and the running frame may stand elsewhere, with other constructs open.
-/

namespace WasmI32

/-! ## Computations that fail -/

section Spares

variable {ε σ α β γ : Type} {f : σ → γ}

/-- A computation that fails leaves what `f` sees of the state as it was. -/
def Spares (f : σ → γ) (x : EStateM ε σ α) : Prop := ∀ s e s', x s = .error e s' → f s' = f s

theorem spares_of_keeps {x : EStateM ε σ α} (h : Keeps f x) : Spares f x := by
  intro s e s' hx
  have hs := h s
  rwa [hx] at hs

/-- A computation that cannot fail. -/
theorem spares_of_ok {x : EStateM ε σ α} (h : ∀ s, ∃ a s', x s = .ok a s') : Spares f x := by
  intro s e s' hx
  obtain ⟨a, s₁, hok⟩ := h s
  rw [hok] at hx
  cases hx

/-- What comes first must leave the state alone also when it succeeds, since the rest may fail. -/
theorem spares_bind {x : EStateM ε σ α} {g : α → EStateM ε σ β} (hx : Keeps f x)
    (hg : ∀ a, Spares f (g a)) : Spares f (x >>= g) := by
  intro s e s' h
  have hs := hx s
  cases hr : x s with
  | ok a s₁ =>
    rw [hr] at hs
    rw [bind_of_ok hr] at h
    exact (hg a _ _ _ h).trans hs
  | error e₁ s₁ =>
    rw [hr] at hs
    rw [bind_of_error hr] at h
    cases h
    exact hs

end Spares

namespace Structured.Scope

/-- All of the scope but the operand stack. -/
def storage (s : Scope) : Array Word × Memory := (s.locals, s.memory)

theorem keeps_storage_push (v : Word) : Keeps storage (push v) := fun _ => rfl

theorem keeps_storage_pop : Keeps storage pop := by
  intro s
  unfold pop
  split <;> rfl

theorem keeps_storage_peek : Keeps storage peek := by
  intro s
  unfold peek
  split <;> rfl

theorem spares_setLocal (index : Nat) (v : Word) : Spares storage (setLocal index v) :=
  spares_of_ok fun _ => ⟨_, _, rfl⟩

/-- An instruction changes locals and memory last, when nothing can fail any more. -/
theorem spares_effect (i : Instruction) : Spares storage (effect i) := by
  have hpop := keeps_storage_pop
  cases i with
  | unreachable => exact spares_of_keeps (keeps_throw _)
  | drop => exact spares_bind hpop fun _ => spares_of_keeps (keeps_pure _)
  | localGet index =>
    intro s e s' h
    simp only [effect] at h
    split at h
    · exact spares_of_keeps (keeps_storage_push _) _ _ _ h
    · cases h
      rfl
  | localSet index =>
    intro s e s' h
    simp only [effect] at h
    split at h
    · cases h
      rfl
    · exact spares_bind hpop (spares_setLocal index.toNat) _ _ _ h
  | localTee index =>
    refine spares_bind keeps_storage_peek fun v s e s' h => ?_
    split at h
    · cases h
      rfl
    · exact spares_setLocal index.toNat v _ _ _ h
  | load op arg =>
    refine spares_bind hpop fun address s e s' h => ?_
    split at h
    · exact spares_of_keeps (keeps_storage_push _) _ _ _ h
    · cases h
      rfl
  | store width arg =>
    refine spares_bind hpop fun value => spares_bind hpop fun address s e s' h => ?_
    simp only [Memory.store] at h
    by_cases hfits : s.memory.Holds address arg.offset width.size
    · rw [if_pos hfits] at h
      cases h
    · rw [if_neg hfits] at h
      cases h
      rfl
  | memorySize => exact spares_of_keeps fun s => keeps_storage_push _ s
  | memoryGrow =>
    refine spares_bind hpop fun delta => spares_of_ok fun s => ?_
    cases Memory.grow delta s.memory with
    | ok pages memory => exact ⟨_, _, rfl⟩
    | error cause memory => exact ⟨_, _, rfl⟩
  | const value => exact spares_of_keeps (keeps_storage_push value)
  | unary op => exact spares_bind hpop fun v => spares_of_keeps (keeps_storage_push _)
  | compare op =>
    exact spares_bind hpop fun b => spares_bind hpop fun a => spares_of_keeps (keeps_storage_push _)
  | binary op =>
    refine spares_bind hpop fun b => spares_bind hpop fun a => ?_
    cases op.apply a b with
    | ok v => exact spares_of_keeps (keeps_storage_push v)
    | error fault => exact spares_of_keeps (keeps_throw _)
  | nop | enter | elseMark | endMark | br | brIf | ret | call =>
    exact spares_of_keeps (keeps_pure _)

end Structured.Scope

namespace Activation

variable {a a' : Activation} {flow : Flow}

/-- All of an activation but the operand stack. -/
def holdings (a : Activation) : Frame × Memory := (a.frame, a.memory)

/-- An instruction that traps has changed the operand stack at most. -/
theorem spares_execute (i : Instruction) : Spares holdings (execute i) := by
  intro a trap a' h
  obtain ⟨stack, -, rfl⟩ | ⟨-, s, hs, rfl⟩ := execute_eq_error h
  · rfl
  · have hkept := Structured.Scope.spares_effect i _ _ _ hs
    simp only [Structured.Scope.storage, scope, Prod.mk.injEq] at hkept
    simp only [holdings, withScope, hkept]

/-- A branch that leaves the function closes all constructs, and changes neither locals nor
memory. -/
theorem Branches.holdings_eq {label : Word} (h : Branches label a flow a') (hflow : flow ≠ .next) :
    a'.holdings = ({ a.frame with markers := [] }, a.memory) := by
  cases h with
  | restart | skip => exact absurd rfl hflow
  | ret => rfl

/-- An instruction that asks for a call or a return has changed neither locals nor memory. -/
theorem Controls.holdings_eq {i : Instruction} (h : Controls a i flow a') (hflow : flow ≠ .next) :
    ∃ markers, a'.holdings = ({ a.frame with markers }, a.memory) := by
  cases h with
  | enter | enterIf | elseMark | stay => exact absurd rfl hflow
  | endMark | ret | call => exact ⟨_, rfl⟩
  | br h => exact ⟨[], h.holdings_eq hflow⟩
  | brIf _ _ h => exact ⟨[], h.holdings_eq hflow⟩

theorem holdings_of_execute {i : Instruction} (h : execute i a = .ok flow a')
    (hflow : flow ≠ .next) : ∃ markers, a'.holdings = ({ a.frame with markers }, a.memory) := by
  obtain hc | ⟨-, hnext, -⟩ := execute_eq_ok h
  · exact hc.holdings_eq hflow
  · exact absurd hnext hflow

end Activation

namespace Machine

variable {functions : Array Function} {m m' : Machine} {trap : Trap} {index : Nat} {frame : Frame}
  {callers : List Frame}

/-! ## Steps that trap -/

theorem holdings_of_advance_error {body : Array UInt8} {stack : OperandStack} {memory : Memory}
    {a : Activation} (h : advance body ⟨frame, stack, memory⟩ = .error trap a) :
    ∃ ip, a.holdings = ({ frame with ip }, memory) := by
  obtain ⟨-, rfl⟩ | ⟨i, next, -, -, hrun⟩ := advance_eq_error h
  · exact ⟨frame.ip, rfl⟩
  · exact ⟨next, Activation.spares_execute i _ _ _ hrun⟩

theorem holdings_of_advance {body : Array UInt8} {stack : OperandStack} {memory : Memory}
    {flow : Flow} {a : Activation} (hf : frame.Formed) (hbase : frame.base ≤ stack.size)
    (h : advance body ⟨frame, stack, memory⟩ = .ok flow a) (hflow : flow ≠ .next) :
    ∃ ip markers, a.holdings = ({ frame with ip, markers }, memory) := by
  obtain ⟨i, next, -, hgoes⟩ := advance_eq_ok h
  obtain ⟨-, hrun⟩ | ⟨reason, depth, frame₁, hs, hskip, rfl⟩ := hgoes
  · exact ⟨next, Activation.holdings_of_execute hrun hflow⟩
  · -- a skipped instruction asks nothing of the call stack
    have hf₁ : ({ frame with ip := next } : Frame).Formed := ⟨hf.body, hf.heights, hf.pending⟩
    obtain ⟨hnext, -⟩ := hf₁.skip hs hbase i
    rw [hskip] at hnext
    exact absurd hnext hflow

/-- What a step that traps leaves of the machine: of the running frame all but its place and the
constructs open there, and of the operands those below the floor. -/
structure Spared (m m' : Machine) : Prop where
  memory : m'.memory = m.memory
  frames : ∃ frame callers ip markers, m.frames = frame :: callers ∧
    m'.frames = { frame with ip, markers } :: callers
  depth : m'.depth = m.depth
  liveLocals : m'.liveLocals = m.liveLocals
  operands : m.stack.SameBelow m'.stack
  steps : m'.steps = m.steps + 1

theorem spared_of_step_error (hf : m.Formed) (hl : m.Layout) (ha : m.Accounted functions)
    (h : step functions m = .error trap m') : m.Spared m' := by
  have hm : m.frames ≠ [] := by
    intro hnil
    obtain ⟨frames, depth, liveLocals, stack, memory, steps⟩ := m
    subst hnil
    cases h
  obtain ⟨frame, callers, hframes⟩ := List.exists_cons_of_ne_nil hm
  have hmem : frame ∈ m.frames := by simp [hframes]
  obtain ⟨f, hfun, -⟩ := ha.known frame hmem
  obtain ⟨a, rfl, hadvance⟩ := step_eq_error hframes hfun h
  have hbelow : m.stack.SameBelow a.stack := by
    have hg := sameBelow_advance f.body (a := ⟨frame, m.stack, m.memory⟩) hl.floor_le
    rcases hadvance with hadvance | ⟨flow, -, hadvance, -⟩
    · rwa [hadvance] at hg
    · rwa [hadvance] at hg
  obtain ⟨ip, markers, hkept⟩ :
      ∃ ip markers, a.holdings = ({ frame with ip, markers }, m.memory) := by
    rcases hadvance with hadvance | ⟨flow, hflow, hadvance, -⟩
    · obtain ⟨ip, hkept⟩ := holdings_of_advance_error hadvance
      exact ⟨ip, frame.markers, hkept⟩
    · have hbase : frame.base ≤ m.stack.size := (hl.base_le hmem).trans hl.floor_le
      exact holdings_of_advance (hf.frames frame hmem) hbase hadvance hflow
  simp only [Activation.holdings, Prod.mk.injEq] at hkept
  obtain ⟨hframe, hmemory⟩ := hkept
  exact ⟨hmemory, ⟨frame, callers, ip, markers, hframes, by rw [hframe]⟩, rfl, rfl, hbelow, rfl⟩

/-- What an entry that fails leaves: no frames, and at most the arguments on the stack. -/
theorem enter_eq_error {args : Array Word} (h : enter functions index args m = .error trap m') :
    ∃ stack, m' = { create m.memory with stack } := by
  unfold enter at h
  split at h
  · cases h
    exact ⟨_, rfl⟩
  · split at h
    · cases h
      exact ⟨_, rfl⟩
    · rw [eq_of_call_error h]
      exact ⟨_, rfl⟩

theorem start_eq_trapped {args : Array Word} {report : TrapReport}
    (h : m.start functions index args = .trapped report m') :
    ∃ stack, m' = { create m.memory with stack } := by
  unfold start at h
  split at h
  · cases h
  · rename_i he
    cases h
    exact enter_eq_error he

/-- A step that traps has no lasting effect, in any state that an invocation comes to. So the memory
that a trapped invocation leaves is the one behind its last instruction that did not trap, or the
one it was given if it was refused. -/
theorem trap_has_no_lasting_effect (functions : Array Function) (m : Machine) (index : Nat)
    (args : Array Word) :
    (∀ n m₁ trap m₂, m.invoke functions index args n = .running m₁ →
      step functions m₁ = .error trap m₂ → m₁.Spared m₂) ∧
    ∀ n report m₂, m.invoke functions index args n = .trapped report m₂ →
      (m.start functions index args = .trapped report m₂ ∧ m₂.memory = m.memory) ∨
        ∃ k < n, ∃ m₁, m.invoke functions index args k = .running m₁ ∧
          step functions m₁ = .error report.trap m₂ ∧ m₂.memory = m₁.memory := by
  have hspared : ∀ n m₁ trap m₂, m.invoke functions index args n = .running m₁ →
      step functions m₁ = .error trap m₂ → m₁.Spared m₂ := by
    intro n m₁ trap m₂ hrun hstep
    obtain ⟨hf, hl⟩ := formed_running hrun
    exact spared_of_step_error hf hl (accounted_running hrun) hstep
  refine ⟨hspared, fun n report m₂ h => ?_⟩
  rcases invoke_eq_trapped h with hrefused | ⟨k, hk, m₁, hrun, hstep⟩
  · obtain ⟨stack, rfl⟩ := start_eq_trapped hrefused
    exact .inl ⟨hrefused, rfl⟩
  · exact .inr ⟨k, hk, m₁, hrun, hstep, (hspared k m₁ report.trap m₂ hrun hstep).memory⟩

/-- A function with an operand of its own that calls another one, which stores where there is no
memory. -/
def strayStore : Array Function :=
  #[⟨0, 0, 0, 0, #[0x41, 0x07, 0x10, 0x01, 0x0b], 0⟩,
    ⟨0, 0, 0, 1, #[0x41, 0x05, 0x41, 0x09, 0x36, 0x00, 0x00, 0x0b], 0⟩]

def strayStoreCaller : Frame := ⟨0, 4, #[], 0, 0, [⟨.block, .empty, 0, 0⟩], .normal⟩

/-- The machine in front of the store. -/
def beforeStrayStore : Machine :=
  ⟨[⟨1, 4, #[0], 1, 0, [⟨.block, .empty, 1, 0⟩], .normal⟩, strayStoreCaller], 2, 1, ⟨#[7, 5, 9], 1⟩,
    .empty, 4⟩

/-- The machine that the store leaves. Its two operands are gone. -/
def afterStrayStore : Machine :=
  ⟨[⟨1, 7, #[0], 1, 0, [⟨.block, .empty, 1, 0⟩], .normal⟩, strayStoreCaller], 2, 1, ⟨#[7], 1⟩,
    .empty, 5⟩

theorem spared_afterStrayStore :
    (create .empty).invoke strayStore 0 #[] 4 = .running beforeStrayStore ∧
      step strayStore beforeStrayStore = .error (.memory (.outOfBounds 5 0 4 0)) afterStrayStore ∧
      beforeStrayStore.Spared afterStrayStore := by
  have hrun : (create .empty).invoke strayStore 0 #[] 4 = .running beforeStrayStore := by
    decide +kernel
  have hstep : step strayStore beforeStrayStore =
      .error (.memory (.outOfBounds 5 0 4 0)) afterStrayStore := by rfl
  exact ⟨hrun, hstep, (trap_has_no_lasting_effect strayStore (create .empty) 0 #[]).1 4 _ _ _ hrun
    hstep⟩

end Machine

end WasmI32
