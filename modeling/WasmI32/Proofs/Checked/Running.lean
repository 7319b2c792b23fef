import WasmI32.Proofs.Checked.Partial
import WasmI32.Proofs.Image
import WasmI32.Proofs.Isolation

/-!
# Running without misuse

The instructions that use partial operations, and the machine, in checked form. An instruction asks
for no more than it has made sure of itself, whatever the state. A return and a step rely on the
machine: the stack reaches up to the base of the running frame, the local slots of that frame are
among those counted, and the function of a frame exists. So the checked machine and the plain one
take the same steps from the start of every invocation.
-/

namespace WasmI32.Checked

open Partial

variable {α : Type}

/-! ## Operands -/

def popMany (n : Nat) : Checked Trap OperandStack (Array Word) := do
  let s ← get
  if s.size < s.floor + n then throw (.declared .stackUnderflow)
  else
    let height ← ask (difference s.size n)
    let (kept, taken) ← ask (cut s.values height)
    set { s with values := kept }
    return taken

theorem popMany_eq (n : Nat) : popMany n = total (OperandStack.popMany n) := by
  funext s
  rw [popMany, get_bind]
  by_cases hn : s.size < s.floor + n
  · have hplain : OperandStack.popMany n s = .error .stackUnderflow s := if_pos hn
    rw [if_pos hn, total_of_error hplain]
    rfl
  · have hplain : OperandStack.popMany n s =
        .ok (s.values.extract (s.size - n) s.size)
          { s with values := s.values.shrink (s.size - n) } := if_neg hn
    rw [if_neg hn, total_of_ok hplain, difference_of_le (by omega), ask_ok, pure_bind,
      cut_of_le (show s.size - n ≤ s.values.size from Nat.sub_le _ _)]
    rfl

/-- The result of an operation. Quotients and remainders have a divisor. -/
def apply : BinaryOp → Word → Word → Except (Failure ArithmeticFault) Word
  | .divS, a, b =>
    if b = 0 then .error (.declared .divisionByZero)
    else if a = BitVec.intMin 32 ∧ b = BitVec.allOnes 32 then .error (.declared .integerOverflow)
    else do return a.sdiv (← askValue (divisor b))
  | .divU, a, b =>
    if b = 0 then .error (.declared .divisionByZero) else do return a / (← askValue (divisor b))
  | .remS, a, b =>
    if b = 0 then .error (.declared .divisionByZero) else do return a.srem (← askValue (divisor b))
  | .remU, a, b =>
    if b = 0 then .error (.declared .divisionByZero) else do return a % (← askValue (divisor b))
  | op, a, b => totalValue (op.apply a b)

theorem apply_eq (op : BinaryOp) (a b : Word) : apply op a b = totalValue (op.apply a b) := by
  by_cases hb : b = 0
  · subst hb
    cases op <;> rfl
  · cases op with
    | divS =>
      simp only [apply, BinaryOp.apply, if_neg hb, divisor_of_ne hb]
      split <;> rfl
    | divU | remS | remU =>
      simp only [apply, BinaryOp.apply, if_neg hb, divisor_of_ne hb]
      rfl
    | add | sub | mul | and | or | xor | shl | shrS | shrU | rotl | rotr => rfl

def binary (op : BinaryOp) : Checked Trap OperandStack Unit := do
  let b ← total OperandStack.pop
  let a ← total OperandStack.pop
  match apply op a b with
  | .ok v => total (OperandStack.push v)
  | .error e => throw (e.map .arithmetic)

theorem binary_eq (op : BinaryOp) : binary op = total (OperandStack.binary op) := by
  simp only [binary, OperandStack.binary, total_bind, apply_eq]
  congr 1
  funext b
  congr 1
  funext a
  cases op.apply a b <;> rfl

/-! ## Memory -/

/-- A number is read from the part of the memory that is asked for. -/
def loadFrom (m : Memory) (address offset : Word) (width : Width) (signed : Bool) :
    Except (Failure MemoryError) Word :=
  if m.Holds address offset width.size then do
    let start := address.toNat + offset.toNat
    let data ← askValue (bytes m.data start (start + width.size))
    let value := ({ m with data } : Memory).number 0 width.size
    return if signed then (BitVec.ofNat (8 * width.size) value).signExtend 32
      else BitVec.ofNat 32 value
  else .error (.declared (m.refusal address offset width.size))

theorem byteAt_extract (m : Memory) (start stop : Nat) {k : Nat} (hk : start + k < stop) :
    ({ m with data := m.data.extract start stop } : Memory).byteAt k = m.byteAt (start + k) := by
  rw [Memory.byteAt_eq, Memory.byteAt_eq]
  simp only [ByteArray.data_extract, Array.getElem?_extract]
  by_cases hsize : start + k < m.data.data.size
  · rw [if_pos (by omega)]
  · rw [if_neg (by omega), Array.getElem?_eq_none (by omega)]

theorem number_extract (m : Memory) (start stop width k : Nat) (h : start + k + width ≤ stop) :
    ({ m with data := m.data.extract start stop } : Memory).number k width =
      m.number (start + k) width := by
  induction width generalizing k with
  | zero => rfl
  | succ width ih =>
    rw [Memory.number, Memory.number, byteAt_extract m start stop (by omega), ih (k + 1) (by omega)]
    rfl

theorem loadFrom_eq (m : Memory) (address offset : Word) (width : Width) (signed : Bool) :
    loadFrom m address offset width signed = totalValue (m.load address offset width signed) := by
  unfold loadFrom Memory.load
  by_cases h : m.Holds address offset width.size
  · have hpart := bytes_of_le (Nat.le_add_right (address.toNat + offset.toNat) width.size) h
    have hnumber := number_extract m (address.toNat + offset.toNat)
      (address.toNat + offset.toNat + width.size) width.size 0 le_rfl
    rw [Nat.add_zero] at hnumber
    rw [if_pos h, if_pos h]
    simp only [hpart, askValue_ok, bind, Except.bind, hnumber]
    rfl
  · rw [if_neg h, if_neg h]
    rfl

/-- The part of the memory that is to be changed is asked for. -/
def putAt (start : Nat) (data : List UInt8) : Checked MemoryError Memory Unit := do
  let m ← get
  let _ ← ask (bytes m.data start (start + data.length))
  set (m.put start data)

theorem putAt_of_le {m : Memory} {start : Nat} {data : List UInt8}
    (h : start + data.length ≤ m.data.size) : putAt start data m = .ok () (m.put start data) := by
  rw [putAt, get_bind, bytes_of_le (Nat.le_add_right _ _) h]
  rfl

def storeTo (address offset : Word) (width : Width) (value : Word) :
    Checked MemoryError Memory Unit := do
  let m ← get
  if m.Holds address offset width.size then
    putAt (address.toNat + offset.toNat) (Memory.lowBytes value width.size)
  else throw (.declared (m.refusal address offset width.size))

/-- What the memory holds is a part of it. -/
theorem putAt_if_holds {address offset : Word} {width : Nat} {data : List UInt8} {m : Memory}
    {x : EStateM MemoryError Memory Unit} (hwidth : data.length = width)
    (hx : x m = if m.Holds address offset width then
        .ok () (m.put (address.toNat + offset.toNat) data)
      else .error (m.refusal address offset width) m) :
    (if m.Holds address offset width then putAt (address.toNat + offset.toNat) data
      else throw (.declared (m.refusal address offset width))) m = total x m := by
  subst hwidth
  by_cases h : m.Holds address offset data.length
  · rw [if_pos h] at hx
    rw [if_pos h, putAt_of_le h, total_of_ok hx]
  · rw [if_neg h] at hx
    rw [if_neg h, total_of_error hx]
    rfl

theorem storeTo_eq (address offset : Word) (width : Width) (value : Word) :
    storeTo address offset width value = total (Memory.store address offset width value) := by
  funext m
  rw [storeTo, get_bind]
  exact putAt_if_holds (Memory.length_lowBytes value width.size) rfl

/-- Writes `data` from `address` on. -/
def writeTo (address : Word) (data : List UInt8) : Checked MemoryError Memory Unit := do
  let m ← get
  if m.Holds address 0 data.length then putAt address.toNat data
  else throw (.declared (m.refusal address 0 data.length))

theorem writeTo_eq (address : Word) (data : List UInt8) :
    writeTo address data = total (Memory.write address data) := by
  funext m
  rw [writeTo, get_bind]
  exact putAt_if_holds rfl rfl

/-! ## Instructions -/

/-- Runs a computation on the operand stack. -/
def onStack (x : Checked Trap OperandStack α) : Checked Trap Activation α := fun a =>
  match x a.stack with
  | .ok v stack => .ok v { a with stack }
  | .error e stack => .error e { a with stack }

/-- Runs a computation on the memory. -/
def onMemory (x : Checked MemoryError Memory α) : Checked Trap Activation α := fun a =>
  match x a.memory with
  | .ok v memory => .ok v { a with memory }
  | .error e memory => .error (e.map .memory) { a with memory }

theorem onStack_total (x : StackM α) : onStack (total x) = total (Activation.onStack x) := by
  funext ⟨frame, stack, memory⟩
  simp only [onStack, total, EStateM.adaptExcept, Activation.onStack]
  cases x stack <;> rfl

theorem onMemory_total (x : EStateM MemoryError Memory α) :
    onMemory (total x) = total (Activation.onMemory x) := by
  funext ⟨frame, stack, memory⟩
  simp only [onMemory, total, EStateM.adaptExcept, Activation.onMemory]
  cases x memory <;> rfl

def leave (target : Marker) (depth : Nat) : Checked Trap Activation Flow := do
  let results ← onStack (popMany target.branchArity)
  total (Activation.modifyStack fun s => (s.truncate target.height).append results)
  if depth = 1 then
    total (Activation.modifyFrame fun f => { f with markers := [] })
    return .ret
  else
    total (Activation.modifyFrame fun f => { f with state := .skipping .branch depth })
    return .next

theorem leave_eq (target : Marker) (depth : Nat) :
    leave target depth = total (Activation.leave target depth) := by
  simp only [leave, Activation.leave, popMany_eq, onStack_total, total_bind, total_ite]
  rfl

/-- The open constructs from the function body inwards are numbered from zero, and the one that a
branch goes to is asked for by its number. -/
def branch (label : Word) : Checked Trap Activation Flow := do
  let a ← get
  let markers := a.frame.markers
  if markers.length ≤ label.toNat then throw (.declared (.branchDepth label.toNat))
  else
    let last ← ask (difference markers.length 1)
    let number ← ask (difference last label.toNat)
    let target ← ask (element markers.reverse.toArray number)
    if target.kind = .loop then
      total (Activation.restart target (markers.drop (markers.length - (number + 1))))
    else leave target (number + 1)

theorem branch_eq (label : Word) : branch label = total (Activation.branch label) := by
  funext a
  rw [branch, get_bind]
  cases hdrop : a.frame.markers.drop label.toNat with
  | nil =>
    have hplain : Activation.branch label a = .error (.branchDepth label.toNat) a := by
      rw [Activation.branch, hdrop]
    rw [if_pos (List.drop_eq_nil_iff.mp hdrop), total_of_error hplain]
    rfl
  | cons target outer =>
    have hlength : a.frame.markers.length - label.toNat = outer.length + 1 := by
      rw [← List.length_drop, hdrop, List.length_cons]
    have htarget : a.frame.markers.reverse.toArray[outer.length]? = some target := by
      have hhead : a.frame.markers[label.toNat]? = some target := by
        have h : (a.frame.markers.drop label.toNat)[0]? = a.frame.markers[label.toNat + 0]? :=
          List.getElem?_drop
        rw [hdrop] at h
        exact h.symm
      rw [List.getElem?_toArray, List.getElem?_reverse (by omega), ← hhead]
      congr 1
      omega
    have hplain : Activation.branch label a =
        (if target.kind = .loop then Activation.restart target (target :: outer)
          else Activation.leave target (outer.length + 1)) a := by
      simp only [Activation.branch, hdrop]
      split <;> rfl
    rw [if_neg (by omega), difference_of_le (by omega), ask_ok, pure_bind,
      difference_of_le (by omega), ask_ok, pure_bind,
      show a.frame.markers.length - 1 - label.toNat = outer.length by omega,
      element_of_some htarget, ask_ok, pure_bind,
      show a.frame.markers.length - (outer.length + 1) = label.toNat by omega, hdrop, leave_eq,
      total_congr hplain, total_ite]

def branchIf (label : Word) : Checked Trap Activation Flow := do
  let condition ← total (Activation.onStack OperandStack.pop)
  if condition = 0 then return .next else branch label

theorem branchIf_eq (label : Word) : branchIf label = total (Activation.branchIf label) := by
  simp only [branchIf, Activation.branchIf, branch_eq, total_bind, total_ite]
  rfl

def load (op : LoadOp) (arg : MemArg) : Checked Trap Activation Unit := do
  let address ← total (Activation.onStack OperandStack.pop)
  fun a =>
    match loadFrom a.memory address arg.offset op.width op.signed with
    | .ok v => total (Activation.onStack (OperandStack.push v)) a
    | .error e => .error (e.map .memory) a

theorem load_eq (op : LoadOp) (arg : MemArg) : load op arg = total (Activation.load op arg) := by
  refine Eq.trans (congrArg (_ >>= ·) (funext fun address => funext fun a => ?_))
    (total_bind _ _).symm
  simp only [loadFrom_eq, total, EStateM.adaptExcept]
  cases a.memory.load address arg.offset op.width op.signed <;> rfl

def store (width : Width) (arg : MemArg) : Checked Trap Activation Unit := do
  let value ← total (Activation.onStack OperandStack.pop)
  let address ← total (Activation.onStack OperandStack.pop)
  onMemory (storeTo address arg.offset width value)

theorem store_eq (width : Width) (arg : MemArg) :
    store width arg = total (Activation.store width arg) := by
  simp only [store, Activation.store, storeTo_eq, onMemory_total, total_bind]

def andNext (x : Checked Trap Activation Unit) : Checked Trap Activation Flow := do
  x
  return .next

/-- Runs an instruction. Most have no partial operation in them. -/
def execute : Instruction → Checked Trap Activation Flow
  | .br label => branch label
  | .brIf label => branchIf label
  | .load op arg => andNext (load op arg)
  | .store width arg => andNext (store width arg)
  | .binary op => andNext (onStack (binary op))
  | i => total (Activation.execute i)

theorem andNext_total (x : ActivationM Unit) :
    andNext (total x) = total (Activation.andNext x) := by
  simp only [andNext, Activation.andNext, total_bind]
  rfl

/-- No instruction uses a partial operation outside its domain, in any state. -/
theorem execute_eq (i : Instruction) : execute i = total (Activation.execute i) := by
  cases i with
  | br label => exact branch_eq label
  | brIf label => exact branchIf_eq label
  | load op arg => simp only [execute, load_eq, andNext_total, Activation.execute]
  | store width arg => simp only [execute, store_eq, andNext_total, Activation.execute]
  | binary op =>
    simp only [execute, binary_eq, onStack_total, andNext_total, Activation.execute]
  | _ => rfl

/-! ## The machine -/

def call (functions : Array Function) (index : Nat) : Checked Trap Machine Unit := do
  let m ← get
  match functions[index]? with
  | none => throw (.declared (.unknownFunction index))
  | some f =>
    if m.Exhausted f.frameSize then throw (.declared .callStackExhausted)
    else
      match popMany f.parameterCount m.stack with
      | .ok args stack => set ({ m with stack }.activate index f args)
      | .error e stack => do
        set { m with stack }
        throw e

theorem call_eq (functions : Array Function) (index : Nat) :
    call functions index = total (Machine.call functions index) := by
  funext ⟨frames, depth, liveLocals, stack, memory, steps⟩
  rw [call, get_bind]
  unfold total EStateM.adaptExcept Machine.call
  cases functions[index]? with
  | none => rfl
  | some f =>
    simp only [popMany_eq, total, EStateM.adaptExcept]
    split
    · rfl
    · cases OperandStack.popMany f.parameterCount stack <;> rfl

/-- Ends the running frame. -/
def ret : Checked Trap Machine Unit := do
  let m ← get
  match m.frames with
  | [] => return ()
  | frame :: callers =>
    let actual ← ask (difference m.stack.size frame.base)
    if actual = frame.resultCount then
      let liveLocals ← ask (difference m.liveLocals frame.locals.size)
      set (⟨callers, m.depth - 1, liveLocals, m.stack.withFloor (Machine.baseOf callers), m.memory,
        m.steps⟩ : Machine)
    else throw (.declared (.arityMismatch frame.resultCount actual))

theorem ret_eq {m : Machine} {frame : Frame} {callers : List Frame}
    (hm : m.frames = frame :: callers) (hbase : frame.base ≤ m.stack.size)
    (hlive : frame.locals.size ≤ m.liveLocals) : ret m = total Machine.ret m := by
  obtain ⟨frames, depth, liveLocals, stack, memory, steps⟩ := m
  subst hm
  rw [ret, get_bind]
  simp only [difference_of_le hbase, difference_of_le hlive, ask_ok, pure_bind]
  by_cases hactual : stack.size - frame.base = frame.resultCount
  · simp only [if_pos hactual, total, EStateM.adaptExcept, Machine.ret]
    rfl
  · simp only [if_neg hactual, total, EStateM.adaptExcept, Machine.ret]
    rfl

/-- A frame whose base lies above the stack cannot return. -/
example : ret ⟨[⟨0, 0, #[], 1, 0, [], .normal⟩], 1, 0, {}, .empty, 0⟩ =
    .error (.misuse (.difference 0 1)) ⟨[⟨0, 0, #[], 1, 0, [], .normal⟩], 1, 0, {}, .empty, 0⟩ :=
  rfl

def follow (functions : Array Function) : Flow → Checked Trap Machine Unit
  | .next => pure ()
  | .call index => call functions index
  | .ret => ret

/-- Runs or skips the next instruction of an activation. -/
def advance (body : Array UInt8) : Checked Trap Activation Flow := do
  let a ← get
  match Machine.fetch body a.frame.ip with
  | .error trap => throw (.declared trap)
  | .ok (instruction, next) =>
    let frame := { a.frame with ip := next }
    if frame.state.isSkipping then
      set { a with frame := (frame.skip a.stack.size instruction).2 }
      return (frame.skip a.stack.size instruction).1
    else
      set { a with frame }
      execute instruction

theorem advance_eq (body : Array UInt8) : advance body = total (Machine.advance body) := by
  funext ⟨frame, stack, memory⟩
  rw [advance, get_bind]
  unfold total EStateM.adaptExcept Machine.advance
  cases Machine.fetch body frame.ip with
  | error trap => rfl
  | ok found =>
    simp only [execute_eq]
    split <;> rfl

/-- Runs one instruction of the running frame. -/
def step (functions : Array Function) : Checked Trap Machine Unit := do
  let m ← get
  match m.frames with
  | [] => return ()
  | frame :: callers =>
    let f ← ask (element functions frame.function)
    match advance f.body ⟨frame, m.stack, m.memory⟩ with
    | .ok flow a =>
      set (⟨a.frame :: callers, m.depth, m.liveLocals, a.stack, a.memory, m.steps + 1⟩ : Machine)
      follow functions flow
    | .error e a =>
      set (⟨a.frame :: callers, m.depth, m.liveLocals, a.stack, a.memory, m.steps + 1⟩ : Machine)
      throw e

variable {functions : Array Function} {m : Machine}

/-- A return finds the results above the base of its frame, and the local slots of that frame
counted. -/
theorem follow_eq {frame : Frame} {callers : List Frame} {f : Function} {flow : Flow}
    {a : Activation} (hl : m.Layout) (ha : m.Accounted functions)
    (hm : m.frames = frame :: callers)
    (hadvance : Machine.advance f.body ⟨frame, m.stack, m.memory⟩ = .ok flow a) :
    let m₁ : Machine :=
      ⟨a.frame :: callers, m.depth, m.liveLocals, a.stack, a.memory, m.steps + 1⟩
    follow functions flow m₁ = total (Machine.follow functions flow) m₁ := by
  cases flow with
  | next => rfl
  | call index => exact congrFun (call_eq functions index) _
  | ret =>
    have hid := Machine.keeps_identity_advance f.body ⟨frame, m.stack, m.memory⟩
    have hguard := Machine.sameBelow_advance f.body (a := ⟨frame, m.stack, m.memory⟩)
      hl.floor_le
    rw [hadvance] at hid hguard
    have hbase : a.frame.base = frame.base := congrArg Frame.Identity.base hid
    have hlocals : a.frame.locals.size = frame.locals.size :=
      congrArg Frame.Identity.localCount hid
    refine ret_eq rfl ?_ ?_
    · have hfloor := hguard.floor_le
      rw [hguard.floor_eq, hl.floor_eq, hm] at hfloor
      exact hbase ▸ hfloor
    · show a.frame.locals.size ≤ m.liveLocals
      rw [hlocals, ha.live_eq, hm, List.map_cons, List.sum_cons]
      exact Nat.le_add_right _ _

theorem step_eq (hl : m.Layout) (ha : m.Accounted functions) :
    step functions m = total (Machine.step functions) m := by
  cases hm : m.frames with
  | nil =>
    obtain ⟨frames, depth, liveLocals, stack, memory, steps⟩ := m
    subst hm
    rfl
  | cons frame callers =>
    obtain ⟨f, hf, -⟩ := ha.known frame (by simp [hm])
    have hfollow {flow : Flow} {a : Activation}
        (h : Machine.advance f.body ⟨frame, m.stack, m.memory⟩ = .ok flow a) :=
      follow_eq hl ha hm h
    obtain ⟨frames, depth, liveLocals, stack, memory, steps⟩ := m
    subst hm
    rw [step, get_bind]
    simp only [element_of_some hf, ask_ok, pure_bind, advance_eq]
    cases hadvance : Machine.advance f.body ⟨frame, stack, memory⟩ with
    | error trap a =>
      simp only [total, EStateM.adaptExcept, Machine.step, hf, hadvance]
      rfl
    | ok flow a =>
      have hplain :
          Machine.step functions ⟨frame :: callers, depth, liveLocals, stack, memory, steps⟩ =
            Machine.follow functions flow
              ⟨a.frame :: callers, depth, liveLocals, a.stack, a.memory, steps + 1⟩ := by
        simp only [Machine.step, hf, hadvance]
      simp only [total_of_ok hadvance]
      refine Eq.trans (hfollow hadvance) ?_
      simp only [total, EStateM.adaptExcept, hplain]

/-- Runs at most `fuel` instructions. A trap is an answer, a misuse is not. -/
def run (functions : Array Function) : Nat → Machine → Except Misuse Machine.Progress
  | 0, m => .ok (.running m)
  | fuel + 1, m =>
    match m.frames with
    | [] => .ok m.drain
    | frame :: _ =>
      match step functions m with
      | .ok _ m => run functions fuel m
      | .error (.declared trap) m =>
        .ok (.trapped ⟨trap, frame.function, frame.ip,
          Machine.opcodeAt functions frame.function frame.ip, m.depth⟩ m)
      | .error (.misuse cause) _ => .error cause

theorem run_eq (fuel : Nat) (hl : m.Layout) (ha : m.Accounted functions) :
    run functions fuel m = .ok (m.run functions fuel) := by
  induction fuel generalizing m with
  | zero => rfl
  | succ fuel ih =>
    cases hm : m.frames with
    | nil => simp only [run, Machine.run, hm]
    | cons frame callers =>
      have hne : m.frames ≠ [] := by simp [hm]
      simp only [run, Machine.run, Machine.stepAt, hm, step_eq hl ha, total, EStateM.adaptExcept]
      cases hs : Machine.step functions m with
      | ok u m₁ => exact ih (hl.step hne hs) (ha.step hne hs)
      | error trap m₁ => rfl

/-- Begins an invocation. -/
def start (functions : Array Function) (index : Nat) (args : Array Word) (m : Machine) :
    Except Misuse Machine.Progress :=
  let m := Machine.create m.memory
  match functions[index]? with
  | none => .ok (.trapped (.atEntry (.unknownFunction index) index) m)
  | some f =>
    if args.size ≠ f.parameterCount then
      .ok (.trapped (.atEntry (.argumentCount f.parameterCount args.size) index) m)
    else
      match call functions index { m with stack := m.stack.append args } with
      | .ok _ m => .ok (.running m)
      | .error (.declared trap) m => .ok (.trapped (.atEntry trap index) m)
      | .error (.misuse cause) _ => .error cause

theorem start_eq (functions : Array Function) (index : Nat) (args : Array Word) (m : Machine) :
    start functions index args m = .ok (m.start functions index args) := by
  unfold start Machine.start Machine.enter
  cases functions[index]? with
  | none => rfl
  | some f =>
    simp only [call_eq]
    split
    · rfl
    · simp only [total, EStateM.adaptExcept]
      cases Machine.call functions index { Machine.create m.memory with
        stack := (Machine.create m.memory).stack.append args } <;> rfl

/-- Invokes a function and runs at most `fuel` instructions. -/
def invoke (functions : Array Function) (index : Nat) (args : Array Word) (fuel : Nat)
    (m : Machine) : Except Misuse Machine.Progress := do
  match ← start functions index args m with
  | .running m => run functions fuel m
  | p => .ok p

/-- The checked machine comes to what the plain one comes to, whatever is invoked and whatever an
earlier invocation has left. -/
theorem invoke_eq (functions : Array Function) (index : Nat) (args : Array Word) (fuel : Nat)
    (m : Machine) :
    invoke functions index args fuel m = .ok (m.invoke functions index args fuel) := by
  rw [invoke, start_eq, Machine.invoke]
  cases hs : m.start functions index args with
  | running m₁ =>
    obtain ⟨f, hf, -, -, rfl⟩ := Machine.start_eq_running_iff.mp hs
    exact run_eq fuel (Machine.layout_started index f args m.memory)
      (Machine.accounted_started hf args m.memory)
  | finished results m₁ => rfl
  | trapped report m₁ => rfl

end WasmI32.Checked
