import WasmI32.Proofs.CallLimits
import WasmI32.Proofs.Module.Denotation

/-!
# Linear memory over whole runs

Accesses are checked against the number of bytes, and growth against the number of pages, which is
kept apart. The two agree in every state that a machine comes to, through any number of invocations
and also behind traps. A step changes memory only by a store or by growing, and only if the
instruction is run and not skipped: a store changes bytes at its own address, and growing puts zeros
behind the bytes that are there. This does not depend on the code, nor on what a trap has left.
-/

namespace WasmI32

namespace Memory

/-! ## Sizes -/

/-- The bytes are those of the pages, and there are no more pages than allowed. -/
structure Sound (m : Memory) : Prop where
  size_eq : m.data.size = m.pages * 65536
  pages_le : m.pages ≤ m.maxPages
  maxPages_le : m.maxPages ≤ 128

/-- The memories that a machine is given. -/
inductive Made : Memory → Prop
  | empty : Made .empty
  | create {initial maxPages : Nat} {m : Memory} (h : create initial maxPages = .ok m) : Made m
  | decode {bytes : List UInt8} {module : Module} (h : Module.decode bytes = .ok module) :
    Made module.memory

open Format in
theorem pageLimits_le {o : Nat} {bs : List UInt8} {limits : Option (Nat × Nat)}
    (h : memory o bs limits) :
    (pageLimits limits).1 ≤ (pageLimits limits).2 ∧ (pageLimits limits).2 ≤ 128 := by
  cases h with
  | absent => decide
  | unbounded hc hi hle => exact ⟨hle, Nat.le_refl 128⟩
  | bounded hc hi hm hpos hmax hle => exact ⟨hle, hmax⟩

open Format in
theorem sound_of_decode {bytes : List UInt8} {module : Module}
    (h : Module.decode bytes = .ok module) : module.memory.Sound := by
  obtain ⟨rest, rfl⟩ := Module.eq_append_of_decode h
  obtain ⟨ss, d, -, hall, hfinish⟩ := Module.decode_append_eq_finish.mp h
  obtain ⟨limits, segments, hlimits, -, -, -, himage⟩ :=
    (Module.describes_of_addsAll hall hfinish).memory
  have hle : (pageLimits limits).1 ≤ (pageLimits limits).2 ∧ (pageLimits limits).2 ≤ 128 := by
    unfold Says at hlimits
    split at hlimits
    · exact pageLimits_le hlimits
    · rw [hlimits]
      decide
  refine ⟨?_, ?_, ?_⟩
  · rw [himage.size_eq, himage.pages_eq]
  · rw [himage.pages_eq, himage.maxPages_eq]
    exact hle.1
  · rw [himage.maxPages_eq]
    exact hle.2

theorem Made.sound {m : Memory} (h : m.Made) : m.Sound := by
  cases h with
  | empty => exact ⟨rfl, Nat.le_refl 0, Nat.zero_le 128⟩
  | create h =>
    obtain ⟨-, hmax, hle, rfl⟩ := create_eq_ok_iff.mp h
    exact ⟨size_zeroed _ _, hle, hmax⟩
  | decode h => exact sound_of_decode h

/-! ## Changes -/

/-- Only the `width` bytes from `address` on, all inside the memory, may differ. -/
structure StoredAt (address width : Nat) (m m' : Memory) : Prop where
  inside : address + width ≤ m.data.size
  size_eq : m'.data.size = m.data.size
  pages_eq : m'.pages = m.pages
  maxPages_eq : m'.maxPages = m.maxPages
  byte_eq : ∀ k, k < address ∨ address + width ≤ k → m'.byteAt k = m.byteAt k

/-- There are `delta` pages of zeros behind the bytes that were there, as the maximum allows. -/
structure GrownBy (delta : Nat) (m m' : Memory) : Prop where
  room : m.pages + delta ≤ m.maxPages
  data_eq : m'.data.data = m.data.data ++ Array.replicate (delta * 65536) 0
  pages_eq : m'.pages = m.pages + delta
  maxPages_eq : m'.maxPages = m.maxPages

theorem data_appendPages (data : ByteArray) (n : Nat) :
    (appendPages data n).data = data.data ++ Array.replicate (n * 65536) 0 := by
  induction n generalizing data with
  | zero => simp [appendPages]
  | succ n ih =>
    have hpages : (n + 1) * 65536 = 65536 + n * 65536 := by omega
    rw [appendPages, ih, ByteArray.data_append, hpages, Array.append_assoc, zeroPage, pageSize,
      Array.replicate_append_replicate]

theorem storedAt_put {m : Memory} {address offset : Word} {width : Width} (value : Word)
    (h : m.Holds address offset width.size) :
    m.StoredAt (address.toNat + offset.toNat) width.size
      (m.put (address.toNat + offset.toNat) (lowBytes value width.size)) := by
  have hinside : address.toNat + offset.toNat + width.size ≤ m.data.size := h
  refine ⟨h, size_put m _ _, rfl, rfl, fun k hk => ?_⟩
  rw [byteAt_eq, byteAt_eq]
  change ((overwrite m.data _ _).data[k]?).getD 0 = _
  rw [getElem?_overwrite (by rwa [length_lowBytes]), length_lowBytes, if_neg (by omega)]

theorem grownBy_extend {m : Memory} {delta : Word} (h : m.CanGrow delta) :
    m.GrownBy delta.toNat (m.extend delta.toNat) :=
  ⟨h, data_appendPages m.data delta.toNat, rfl, rfl⟩

/-- What no change to a memory undoes. -/
structure Extends (m m' : Memory) : Prop where
  maxPages_eq : m'.maxPages = m.maxPages
  pages_le : m.pages ≤ m'.pages
  sound : m.Sound → m'.Sound

theorem Extends.refl (m : Memory) : m.Extends m := ⟨rfl, Nat.le_refl _, id⟩

theorem Extends.trans {m₁ m₂ m₃ : Memory} (h : m₁.Extends m₂) (h' : m₂.Extends m₃) :
    m₁.Extends m₃ :=
  ⟨h'.maxPages_eq.trans h.maxPages_eq, h.pages_le.trans h'.pages_le, h'.sound ∘ h.sound⟩

theorem StoredAt.extends {address width : Nat} {m m' : Memory} (h : m.StoredAt address width m') :
    m.Extends m' := by
  refine ⟨h.maxPages_eq, Nat.le_of_eq h.pages_eq.symm, fun hs => ⟨?_, ?_, ?_⟩⟩
  · rw [h.size_eq, h.pages_eq, hs.size_eq]
  · rw [h.pages_eq, h.maxPages_eq]
    exact hs.pages_le
  · rw [h.maxPages_eq]
    exact hs.maxPages_le

theorem GrownBy.extends {delta : Nat} {m m' : Memory} (h : m.GrownBy delta m') : m.Extends m' := by
  refine ⟨h.maxPages_eq, by rw [h.pages_eq]; omega, fun hs => ⟨?_, ?_, ?_⟩⟩
  · have hsize : m.data.data.size = m.pages * 65536 := hs.size_eq
    show m'.data.data.size = _
    rw [h.data_eq, Array.size_append, Array.size_replicate, hsize, h.pages_eq, Nat.add_mul]
  · rw [h.pages_eq, h.maxPages_eq]
    exact h.room
  · rw [h.maxPages_eq]
    exact hs.maxPages_le

end Memory

/-! ## Instructions -/

namespace Structured.Scope

theorem keeps_memory_of_storage {α : Type} {x : EStateM Trap Scope α} (h : Keeps storage x) :
    Keeps memory x :=
  fun s => congrArg Prod.snd (h s)

/-- Only stores and growing change memory. -/
theorem keeps_memory_effect {i : Instruction} (hs : ∀ width arg, i ≠ .store width arg)
    (hg : i ≠ .memoryGrow) : Keeps memory (effect i) := by
  have hpush (v : Word) := keeps_memory_of_storage (keeps_storage_push v)
  have hpop := keeps_memory_of_storage keeps_storage_pop
  have hpeek := keeps_memory_of_storage keeps_storage_peek
  cases i with
  | store width arg => exact absurd rfl (hs width arg)
  | memoryGrow => exact absurd rfl hg
  | drop => exact keeps_bind hpop fun _ => keeps_pure _
  | localGet index =>
    intro s
    simp only [effect]
    split
    · exact hpush _ s
    · rfl
  | localSet index =>
    intro s
    simp only [effect]
    split
    · rfl
    · exact keeps_bind hpop (fun _ _ => rfl) s
  | localTee index =>
    refine keeps_bind hpeek fun v s => ?_
    split <;> rfl
  | load op arg =>
    refine keeps_bind hpop fun address s => ?_
    split
    · exact hpush _ s
    · rfl
  | memorySize => exact fun s => hpush _ s
  | const value => exact hpush value
  | unary op => exact keeps_bind hpop fun v => hpush _
  | compare op => exact keeps_bind hpop fun b => keeps_bind hpop fun a => hpush _
  | binary op =>
    refine keeps_bind hpop fun b => keeps_bind hpop fun a => ?_
    cases op.apply a b with
    | ok v => exact hpush v
    | error fault => exact keeps_throw _
  | unreachable => exact keeps_throw _
  | nop | enter | elseMark | endMark | br | brIf | ret | call => exact keeps_pure _

end Structured.Scope

namespace Activation

variable {a a' : Activation}

theorem Controls.memory_eq {i : Instruction} {flow : Flow} (h : Controls a i flow a') :
    a'.memory = a.memory := by
  cases h with
  | enter | enterIf | elseMark | endMark | stay | ret | call => rfl
  | br h => cases h <;> rfl
  | brIf _ _ h => cases h <;> rfl

theorem keeps_memory_execute {i : Instruction} (hs : ∀ width arg, i ≠ .store width arg)
    (hg : i ≠ .memoryGrow) : Keeps memory (execute i) := by
  intro a
  have hbasic := Structured.Scope.keeps_memory_effect hs hg a.scope
  cases h : execute i a with
  | ok flow a' =>
    obtain hc | ⟨-, -, s, hs, rfl⟩ := execute_eq_ok h
    · exact hc.memory_eq
    · rw [hs] at hbasic
      exact hbasic
  | error trap a' =>
    obtain ⟨stack, -, rfl⟩ | ⟨-, s, hs, rfl⟩ := execute_eq_error h
    · rfl
    · rw [hs] at hbasic
      exact hbasic

theorem keeps_memory_onStack {α : Type} (x : StackM α) : Keeps memory (onStack x) := by
  rintro ⟨frame, stack, memory⟩
  unfold onStack
  cases hr : x stack <;> simp only [hr] <;> rfl

theorem stateOf_andNext (x : ActivationM Unit) (a : Activation) :
    stateOf (andNext x a) = stateOf (x a) := by
  cases hx : x a with
  | ok u a₁ =>
    rw [andNext, bind_of_ok hx]
    rfl
  | error trap a₁ =>
    rw [andNext, bind_of_error hx]
    rfl

/-- A store that changes memory has its value and, below it, its address on the stack. -/
theorem storedAt_of_store {width : Width} {arg : MemArg} (a : Activation) :
    (stateOf (store width arg a)).memory = a.memory ∨
      ∃ (values : Array Word) (address value : Word),
        a.stack.values = (values.push address).push value ∧
        a.memory.StoredAt (address.toNat + arg.offset.toNat) width.size
          (stateOf (store width arg a)).memory := by
  cases hvalue : onStack OperandStack.pop a with
  | error trap a₁ =>
    have hkept := keeps_memory_onStack OperandStack.pop a
    rw [hvalue] at hkept
    rw [store, bind_of_error hvalue]
    exact .inl hkept
  | ok value a₁ =>
    obtain ⟨hpop₁, -, hmemory₁⟩ := onStack_eq_ok hvalue
    cases haddress : onStack OperandStack.pop a₁ with
    | error trap a₂ =>
      have hkept := keeps_memory_onStack OperandStack.pop a₁
      rw [haddress] at hkept
      rw [store, bind_of_ok hvalue, bind_of_error haddress]
      exact .inl (hkept.trans hmemory₁)
    | ok address a₂ =>
      obtain ⟨hpop₂, -, hmemory₂⟩ := onStack_eq_ok haddress
      have hmemory : a₂.memory = a.memory := hmemory₂.trans hmemory₁
      rw [store, bind_of_ok hvalue, bind_of_ok haddress, ← hmemory]
      simp only [onMemory, Memory.store]
      by_cases hfits : a₂.memory.Holds address arg.offset width.size
      · refine .inr ⟨a₂.stack.values, address, value, ?_, ?_⟩
        · rw [(OperandStack.pop_eq_ok hpop₁).1, (OperandStack.pop_eq_ok hpop₂).1]
        · rw [if_pos hfits]
          exact Memory.storedAt_put value hfits
      · rw [if_neg hfits]
        exact .inl rfl

/-- Growing answers the number of pages there were, or minus one if the maximum does not allow
it. -/
theorem execute_memoryGrow {values : Array Word} {delta : Word}
    (hv : a.stack.values = values.push delta) (hfloor : a.stack.floor ≤ values.size) :
    execute .memoryGrow a = .ok .next
      (if a.memory.CanGrow delta then
        ⟨a.frame, ⟨values.push (BitVec.ofNat 32 a.memory.pages), a.stack.floor⟩,
          a.memory.extend delta.toNat⟩
      else ⟨a.frame, ⟨values.push (BitVec.allOnes 32), a.stack.floor⟩, a.memory⟩) := by
  obtain ⟨frame, ⟨stack, floor⟩, memory⟩ := a
  simp only at hv hfloor
  subst hv
  have hpop : onStack OperandStack.pop ⟨frame, ⟨values.push delta, floor⟩, memory⟩ =
      .ok delta ⟨frame, ⟨values, floor⟩, memory⟩ := by
    rw [onStack, OperandStack.pop_push delta hfloor]
  refine bind_of_ok (a := ()) ((bind_of_ok hpop).trans ?_)
  by_cases hg : memory.CanGrow delta
  · simp only [Memory.grow, if_pos hg]
    rfl
  · simp only [Memory.grow, if_neg hg]
    rfl

theorem grownBy_of_memoryGrow (a : Activation) :
    (stateOf (execute .memoryGrow a)).memory = a.memory ∨
      ∃ (values : Array Word) (delta : Word), a.stack.values = values.push delta ∧
        a.memory.GrownBy delta.toNat (stateOf (execute .memoryGrow a)).memory := by
  cases hpop : onStack OperandStack.pop a with
  | error trap a₁ =>
    have hkept := keeps_memory_onStack OperandStack.pop a
    rw [hpop] at hkept
    have hfails : memoryGrow a = .error trap a₁ := bind_of_error hpop
    rw [execute, andNext, bind_of_error hfails]
    exact .inl hkept
  | ok delta a₁ =>
    obtain ⟨hvalues, -, hle⟩ := OperandStack.pop_eq_ok (onStack_eq_ok hpop).1
    rw [execute_memoryGrow hvalues hle]
    by_cases hg : a.memory.CanGrow delta
    · refine .inr ⟨a₁.stack.values, delta, hvalues, ?_⟩
      rw [if_pos hg]
      exact Memory.grownBy_extend hg
    · rw [if_neg hg]
      exact .inl rfl

/-- All that an instruction can do to memory. -/
theorem memory_execute (i : Instruction) (a : Activation) :
    (stateOf (execute i a)).memory = a.memory ∨
      (∃ (width : Width) (arg : MemArg) (values : Array Word) (address value : Word),
        i = .store width arg ∧ a.stack.values = (values.push address).push value ∧
        a.memory.StoredAt (address.toNat + arg.offset.toNat) width.size
          (stateOf (execute i a)).memory) ∨
      ∃ (values : Array Word) (delta : Word), i = .memoryGrow ∧
        a.stack.values = values.push delta ∧
        a.memory.GrownBy delta.toNat (stateOf (execute i a)).memory := by
  cases i with
  | store width arg =>
    rw [execute, stateOf_andNext]
    rcases storedAt_of_store a with hsame | ⟨values, address, value, hv, hs⟩
    · exact .inl hsame
    · exact .inr (.inl ⟨width, arg, values, address, value, rfl, hv, hs⟩)
  | memoryGrow =>
    rcases grownBy_of_memoryGrow a with hsame | ⟨values, delta, hv, hg⟩
    · exact .inl hsame
    · exact .inr (.inr ⟨values, delta, rfl, hv, hg⟩)
  | _ => exact .inl (keeps_memory_execute (by simp) (by simp) a)

end Activation

/-! ## Steps -/

namespace Machine

variable {functions : Array Function} {m m' : Machine} {index n : Nat} {args : Array Word}
  {memory : Memory}

/-- The next instruction of the machine is `i`, and it is run and not skipped. -/
def Executes (functions : Array Function) (m : Machine) (i : Instruction) : Prop :=
  ∃ frame callers f next, m.frames = frame :: callers ∧ frame.state = .normal ∧
    functions[frame.function]? = some f ∧ fetch f.body frame.ip = .ok (i, next)

/-- What a step does to memory. A store and growing are run, with their operands on the stack. -/
inductive MemoryStep (functions : Array Function) (m m' : Machine) : Prop
  | same (h : m'.memory = m.memory)
  | store {width : Width} {arg : MemArg} {values : Array Word} {address value : Word}
    (hi : m.Executes functions (.store width arg))
    (hv : m.stack.values = (values.push address).push value)
    (hs : m.memory.StoredAt (address.toNat + arg.offset.toNat) width.size m'.memory)
  | grow {values : Array Word} {delta : Word} (hi : m.Executes functions .memoryGrow)
    (hv : m.stack.values = values.push delta) (hg : m.memory.GrownBy delta.toNat m'.memory)

theorem keeps_memory_call (index : Nat) : Keeps Machine.memory (call functions index) := by
  intro m
  cases h : call functions index m with
  | ok u m' =>
    obtain ⟨f, args, stack, -, -, -, rfl⟩ := call_eq_ok h
    rfl
  | error trap m' =>
    rw [eq_of_call_error h]
    rfl

theorem keeps_memory_ret : Keeps Machine.memory ret := by
  intro m
  obtain ⟨frames, depth, liveLocals, stack, memory, steps⟩ := m
  cases frames with
  | nil => rfl
  | cons frame callers =>
    unfold ret
    dsimp only
    split <;> rfl

theorem keeps_memory_follow (flow : Flow) : Keeps Machine.memory (follow functions flow) := by
  cases flow with
  | next => exact keeps_pure ()
  | call index => exact keeps_memory_call index
  | ret => exact keeps_memory_ret

/-- What a step asks of the call stack leaves memory alone. -/
theorem memory_step {frame : Frame} {callers : List Frame} {f : Function}
    (hm : m.frames = frame :: callers) (hf : functions[frame.function]? = some f) :
    (stateOf (step functions m)).memory =
      (stateOf (advance f.body ⟨frame, m.stack, m.memory⟩)).memory := by
  obtain ⟨frames, depth, liveLocals, stack, memory, steps⟩ := m
  subst hm
  simp only [step, hf]
  cases advance f.body ⟨frame, stack, memory⟩ with
  | error trap a => rfl
  | ok flow a => exact keeps_memory_follow flow _

theorem memoryStep_step (functions : Array Function) (m : Machine) :
    MemoryStep functions m (stateOf (step functions m)) := by
  cases hm : m.frames with
  | nil =>
    obtain ⟨frames, depth, liveLocals, stack, memory, steps⟩ := m
    subst hm
    exact .same rfl
  | cons frame callers =>
    cases hf : functions[frame.function]? with
    | none =>
      obtain ⟨frames, depth, liveLocals, stack, memory, steps⟩ := m
      subst hm
      refine .same ?_
      simp only [step, hf]
      rfl
    | some f =>
      have hmemory := memory_step hm hf
      cases hi : fetch f.body frame.ip with
      | error trap =>
        refine .same ?_
        simp only [hmemory, advance, hi]
        rfl
      | ok found =>
        obtain ⟨i, next⟩ := found
        cases hs : frame.state with
        | skipping reason depth =>
          refine .same ?_
          simp only [hmemory, advance, hi, hs]
          rfl
        | normal =>
          have hruns : m.Executes functions i := ⟨frame, callers, f, next, hm, hs, hf, hi⟩
          rw [advance_of_normal hs hi] at hmemory
          rcases Activation.memory_execute i ⟨{ frame with ip := next }, m.stack, m.memory⟩ with
            hsame | ⟨width, arg, values, address, value, rfl, hv, hstored⟩ |
            ⟨values, delta, rfl, hv, hgrown⟩
          · exact .same (hmemory.trans hsame)
          · rw [← hmemory] at hstored
            exact .store hruns hv hstored
          · rw [← hmemory] at hgrown
            exact .grow hruns hv hgrown

theorem MemoryStep.extends (h : MemoryStep functions m m') : m.memory.Extends m'.memory := by
  cases h with
  | same h =>
    rw [h]
    exact .refl _
  | store _ _ hs => exact hs.extends
  | grow _ _ hg => exact hg.extends

/-! ## Runs -/

theorem extends_run_one (m : Machine) : m.memory.Extends (run functions 1 m).machine.memory := by
  cases hm : m.frames with
  | nil =>
    rw [run_of_frames_nil hm]
    exact .refl _
  | cons frame callers =>
    have hstep := (memoryStep_step functions m).extends
    cases hs : step functions m with
    | ok u m₁ =>
      rw [hs] at hstep
      rw [run_of_step_ok (by simp [hm]) hs]
      exact hstep
    | error trap m₁ =>
      rw [hs] at hstep
      obtain ⟨report, -, hrun⟩ := run_of_step_error (by simp [hm]) hs 0
      rw [hrun]
      exact hstep

theorem memory_start (functions : Array Function) (index : Nat) (args : Array Word) (m : Machine) :
    (m.start functions index args).machine.memory = m.memory := by
  cases hs : m.start functions index args with
  | running m₀ =>
    obtain ⟨f, -, -, -, rfl⟩ := start_eq_running_iff.mp hs
    rfl
  | finished results m₀ => exact absurd hs (start_ne_finished results)
  | trapped report m₀ =>
    obtain ⟨stack, rfl⟩ := start_eq_trapped hs
    rfl

theorem extends_invoke_succ (m : Machine) (index : Nat) (args : Array Word) (n : Nat) :
    (m.invoke functions index args n).machine.memory.Extends
      (m.invoke functions index args (n + 1)).machine.memory := by
  rw [invoke_succ]
  cases m.invoke functions index args n with
  | running m₁ => exact extends_run_one m₁
  | finished results m₁ => exact .refl _
  | trapped report m₁ => exact .refl _

theorem extends_invoke_of_le (m : Machine) (index : Nat) (args : Array Word) {k n : Nat}
    (h : k ≤ n) : (m.invoke functions index args k).machine.memory.Extends
      (m.invoke functions index args n).machine.memory := by
  induction h with
  | refl => exact .refl _
  | step _ ih => exact ih.trans (extends_invoke_succ m index args _)

theorem extends_invoke (m : Machine) (index : Nat) (args : Array Word) (n : Nat) :
    m.memory.Extends (m.invoke functions index args n).machine.memory := by
  have hstart : (m.invoke functions index args 0).machine.memory = m.memory := by
    rw [← memory_start functions index args m, invoke]
    cases m.start functions index args <;> rfl
  rw [← hstart]
  exact extends_invoke_of_le m index args (Nat.zero_le n)

theorem Visited.extends (h : Visited functions memory m) : memory.Extends m.memory := by
  induction h with
  | create => exact .refl _
  | invoke _ index args fuel ih => exact ih.trans (extends_invoke _ index args fuel)

theorem step_memoryGrow {values : Array Word} {delta : Word}
    (hi : m.Executes functions .memoryGrow) (hv : m.stack.values = values.push delta)
    (hfloor : m.stack.floor ≤ values.size) :
    ∃ m', step functions m = .ok () m' ∧
      if m.memory.CanGrow delta then
        m'.memory = m.memory.extend delta.toNat ∧
          m'.stack.values = values.push (BitVec.ofNat 32 m.memory.pages)
      else m'.memory = m.memory ∧ m'.stack.values = values.push (BitVec.allOnes 32) := by
  obtain ⟨frame, callers, f, next, hm, hs, hf, hi⟩ := hi
  have hstep := step_of_advance hm hf <| (advance_of_normal hs hi).trans <|
    Activation.execute_memoryGrow hv hfloor
  refine ⟨_, hstep, ?_⟩
  by_cases hg : m.memory.CanGrow delta
  · simp only [if_pos hg, and_self]
  · simp only [if_neg hg, and_self]

/-- The memory of a machine that was given `memory`, and what the next step and further invocations
do to it. -/
structure MemorySafe (functions : Array Function) (memory : Memory) (m : Machine) : Prop where
  size_eq : m.memory.data.size = m.memory.pages * 65536
  pages_le : m.memory.pages ≤ m.memory.maxPages
  maxPages_le : m.memory.maxPages ≤ 128
  maxPages_eq : m.memory.maxPages = memory.maxPages
  given_le : memory.pages ≤ m.memory.pages
  /-- The number of pages does not fall in the course of an invocation, however it ends. -/
  grows : ∀ index args k n, k ≤ n →
    m.memory.pages ≤ (m.invoke functions index args k).machine.memory.pages ∧
    (m.invoke functions index args k).machine.memory.pages ≤
      (m.invoke functions index args n).machine.memory.pages
  /-- A step, be it one that traps, leaves memory alone, stores or grows. -/
  effect : MemoryStep functions m (stateOf (step functions m))
  /-- Growing that the maximum allows answers the number of pages there were. -/
  grown : ∀ (values : Array Word) (delta : Word), m.Executes functions .memoryGrow →
    m.stack.values = values.push delta → m.stack.floor ≤ values.size →
    m.memory.pages + delta.toNat ≤ m.memory.maxPages →
    ∃ m' answer, step functions m = .ok () m' ∧ m.memory.GrownBy delta.toNat m'.memory ∧
      m'.stack.values = values.push answer ∧ answer.toNat = m.memory.pages
  /-- Growing that it does not allow answers minus one and changes nothing. -/
  refused : ∀ (values : Array Word) (delta : Word), m.Executes functions .memoryGrow →
    m.stack.values = values.push delta → m.stack.floor ≤ values.size →
    m.memory.maxPages < m.memory.pages + delta.toNat →
    ∃ m' answer, step functions m = .ok () m' ∧ m'.memory = m.memory ∧
      m'.stack.values = values.push answer ∧ answer.toInt = -1

/-- In every state that a machine comes to, through any invocations and traps, the bytes of its
memory are those of its pages, and each step keeps to the rules for memory. -/
theorem memorySafe_of_visited (hmade : memory.Made) (h : Visited functions memory m) :
    m.MemorySafe functions memory := by
  obtain ⟨hmax, hpages, hsound⟩ := h.extends
  obtain ⟨hsize, hle, hlimit⟩ := hsound hmade.sound
  refine ⟨hsize, hle, hlimit, hmax, hpages, ?_, memoryStep_step functions m, ?_, ?_⟩
  · intro index args k n hk
    exact ⟨(extends_invoke m index args k).pages_le,
      (extends_invoke_of_le m index args hk).pages_le⟩
  · intro values delta hi hv hfloor hg
    have hgrow : m.memory.CanGrow delta := hg
    obtain ⟨m', hstep, hout⟩ := step_memoryGrow hi hv hfloor
    rw [if_pos hgrow] at hout
    obtain ⟨hmemory, hvalues⟩ := hout
    refine ⟨m', _, hstep, ?_, hvalues, ?_⟩
    · rw [hmemory]
      exact Memory.grownBy_extend hgrow
    · rw [BitVec.toNat_ofNat, Nat.mod_eq_of_lt (by omega)]
  · intro values delta hi hv hfloor hg
    have hgrow : ¬ m.memory.CanGrow delta := Nat.not_le.mpr hg
    obtain ⟨m', hstep, hout⟩ := step_memoryGrow hi hv hfloor
    rw [if_neg hgrow] at hout
    obtain ⟨hmemory, hvalues⟩ := hout
    exact ⟨m', _, hstep, hmemory, hvalues, by decide⟩

/-- A function that asks for all pages there are, and then for one. -/
def growing : Array Function :=
  #[⟨0, 0, 0, 0, #[0x41, 0x7f, 0x40, 0x00, 0x1a, 0x41, 0x01, 0x40, 0x00, 0x1a, 0x0b], 0⟩]

/-- The machine that runs it at `ip`, with `operand` on the stack. -/
def inGrowing (ip : Nat) (operand : Word) (steps : Nat) : Machine :=
  ⟨[⟨0, ip, #[], 0, 0, [⟨.block, .empty, 0, 0⟩], .normal⟩], 1, 0, ⟨#[operand], 0⟩, .zeroed 0 1,
    steps⟩

/-- The first request is refused, and the second one granted. -/
theorem memorySafe_inGrowing :
    (Memory.zeroed 0 1).Made ∧
      Visited growing (.zeroed 0 1) (inGrowing 2 (-1) 1) ∧
      Visited growing (.zeroed 0 1) (inGrowing 7 1 4) ∧
      (∃ m' answer, step growing (inGrowing 2 (-1) 1) = .ok () m' ∧ m'.memory = .zeroed 0 1 ∧
        m'.stack.values = #[answer] ∧ answer.toInt = -1) ∧
      ∃ m' answer, step growing (inGrowing 7 1 4) = .ok () m' ∧
        (Memory.zeroed 0 1).GrownBy 1 m'.memory ∧ m'.stack.values = #[answer] ∧
        answer.toNat = 0 := by
  have hmade : (Memory.zeroed 0 1).Made :=
    .create (Memory.create_eq_ok_iff.mpr ⟨by decide, by decide, by decide, rfl⟩)
  have hfirst : Visited growing (.zeroed 0 1) (inGrowing 2 (-1) 1) := by
    have hrun : ((create (.zeroed 0 1)).invoke growing 0 #[] 1).machine = inGrowing 2 (-1) 1 := by
      decide +kernel
    exact hrun ▸ .invoke .create 0 #[] 1
  have hsecond : Visited growing (.zeroed 0 1) (inGrowing 7 1 4) := by
    have hrun : ((create (.zeroed 0 1)).invoke growing 0 #[] 4).machine = inGrowing 7 1 4 := by
      decide +kernel
    exact hrun ▸ .invoke .create 0 #[] 4
  refine ⟨hmade, hfirst, hsecond, ?_, ?_⟩
  · exact (memorySafe_of_visited hmade hfirst).refused #[] (-1) ⟨_, _, _, _, rfl, rfl, rfl, rfl⟩ rfl
      (by decide) (by decide)
  · exact (memorySafe_of_visited hmade hsecond).grown #[] 1 ⟨_, _, _, _, rfl, rfl, rfl, rfl⟩ rfl
      (by decide) (by decide)

end Machine

end WasmI32
