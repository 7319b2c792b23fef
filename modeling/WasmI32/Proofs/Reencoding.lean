import WasmI32.Proofs.Displacement.Machine
import WasmI32.Proofs.Structured.Stepping

/-!
# Code written anew

Integers in code need not be written in the fewest bytes, so that one list of instructions has many
binary forms. A machine does not tell them apart: when the bodies of all functions are replaced by
the shortest form of their instructions, every invocation takes the same steps, though at other
places in the code. Only bodies that can be read to their end are spoken of.
-/

namespace WasmI32

namespace Instruction

open Structured (encodeAll_append encodeAll_cons)

/-- The code with its instructions in their shortest form. -/
def reencode (code : Array UInt8) : Array UInt8 :=
  (encodeAll ((scan code).instructions.toList.map Prod.snd)).toArray

/-- Where what stands at `ip` stands in the shortest form. -/
def movedTo (code : Array UInt8) (ip : Nat) : Nat :=
  (encodeAll ((before code ip).map Prod.snd)).length

/-- The offsets are those of instructions of the same number, or both the end of the code. -/
def SameNumber (code code' : Array UInt8) (ip ip' : Nat) : Prop :=
  (∃ (k : Nat) (i : Instruction), (scan code).instructions[k]? = some (ip, i) ∧
    (scan code').instructions[k]? = some (ip', i)) ∨ ip = code.size ∧ ip' = code'.size

variable {code : Array UInt8} {ip next : Nat} {i : Instruction} {front : List (Nat × Instruction)}

theorem length_encodeAll_concat (is : List Instruction) (i : Instruction) :
    (encodeAll (is ++ [i])).length = (encodeAll is).length + i.encode.length := by
  rw [encodeAll_append, List.length_append]
  simp [encodeAll]

/-! ## Bytes and instructions -/

theorem opcode_of_form {b : UInt8} {form : Form} {bs : List UInt8} (hf : form? b = some form)
    (hd : form.Denotes bs i) : i.opcode = b := by
  unfold form? at hf
  split at hf <;> cases hf <;> cases hd <;> rfl

/-- However an instruction is written, it starts with its opcode. -/
theorem getElem?_of_decodeAt (h : decodeAt code ip = .ok (i, next)) :
    code[ip]? = some i.opcode := by
  obtain ⟨bs, hd, ⟨rest, hr⟩, -⟩ := decodeAt_eq_ok_iff.mp h
  cases hd with
  | @intro b form bs i hf hi =>
    have hfirst : (code.toList.drop ip)[0]? = some b := by
      rw [hr]
      rfl
    rw [opcode_of_form hf hi]
    simpa using hfirst

theorem standsAt_encodeAll (is js : List Instruction) (i : Instruction) :
    StandsAt (encodeAll (is ++ i :: js)).toArray (encodeAll is).length i.encode := by
  refine ⟨encodeAll js, ?_⟩
  rw [encodeAll_append, List.drop_left, encodeAll_cons]

/-- A scan of instructions in their shortest form comes to each of them. -/
theorem scansTo_encodeAll (is js : List Instruction) :
    ∃ front, ScansTo (encodeAll (is ++ js)).toArray front (encodeAll is).length ∧
      front.map Prod.snd = is := by
  induction is using List.reverseRecOn generalizing js with
  | nil => exact ⟨[], .start _, rfl⟩
  | append_singleton is i ih =>
    obtain ⟨front, hscan, hfront⟩ := ih (i :: js)
    have hnext := hscan.step (decodeAt_encode (standsAt_encodeAll is js i))
    refine ⟨front ++ [((encodeAll is).length, i)], ?_, by simp [hfront]⟩
    rw [List.append_assoc, List.singleton_append, length_encodeAll_concat]
    exact hnext

/-- A scan that finds no fault comes to the end of the code. -/
theorem stop_scanFrom (fuel : Nat) (found : Array (Nat × Instruction)) {w : Window} {size : Nat}
    (hw : w.offset + w.rest.length = size) (hf : w.rest.length ≤ fuel)
    (he : (scanFrom fuel found w).error = none) : (scanFrom fuel found w).stop = size := by
  induction fuel generalizing found w with
  | zero =>
    change w.offset = size
    omega
  | succ fuel ih =>
    unfold scanFrom at he ⊢
    by_cases hempty : w.isEmpty = true
    · rw [if_pos hempty]
      have hnil : w.rest = [] := List.isEmpty_iff.mp hempty
      rw [hnil] at hw
      exact hw
    · rw [if_neg hempty] at he ⊢
      cases hr : read w with
      | error e w' =>
        simp only [hr] at he
        cases he
      | ok i w' =>
        simp only [hr] at he ⊢
        obtain ⟨bs, rest, hb, rfl, hd⟩ := (accepts_read w i w').mp hr
        have hpos := hd.length_pos
        rw [hb, List.length_append] at hw hf
        refine ih _ ?_ ?_ he
        · simp only [Window.behind_offset, Window.behind_rest]
          omega
        · simp only [Window.behind_rest]
          omega

theorem stop_eq_size (he : (scan code).error = none) : (scan code).stop = code.size := by
  refine stop_scanFrom code.size #[] ?_ ?_ he
  · simp [Window.ofBytes]
  · simp [Window.ofBytes]

/-! ## Where a scan comes to -/

section Scanned

variable (hs : ScansTo code front ip)
include hs

theorem movedTo_eq : movedTo code ip = (encodeAll (front.map Prod.snd)).length := by
  rw [movedTo, hs.before_eq]

theorem reencode_eq_of_decodeAt (hd : decodeAt code ip = .ok (i, next)) :
    ∃ back, reencode code = (encodeAll (front.map Prod.snd ++ i :: back)).toArray := by
  obtain ⟨back, hall, hrow⟩ := hs.row
  obtain ⟨rest, rfl, -⟩ := hrow.uncons hd
  exact ⟨rest.map Prod.snd, by rw [reencode, hall, List.map_append, List.map_cons]⟩

theorem decodeAt_reencode (hd : decodeAt code ip = .ok (i, next)) :
    decodeAt (reencode code) (movedTo code ip) = .ok (i, movedTo code next) := by
  obtain ⟨back, hall⟩ := reencode_eq_of_decodeAt hs hd
  have hmoved : movedTo code next = movedTo code ip + i.encode.length := by
    rw [movedTo_eq (hs.step hd), movedTo_eq hs, List.map_append]
    exact length_encodeAll_concat _ i
  rw [hmoved, movedTo_eq hs, hall]
  exact decodeAt_encode (standsAt_encodeAll _ _ _)

/-- Without an instruction to read, a scan without a fault is at the end, in either form. -/
theorem eq_size_of_decodeAt_ne (he : (scan code).error = none)
    (hn : ∀ i next, decodeAt code ip ≠ .ok (i, next)) :
    ip = code.size ∧ movedTo code ip = (reencode code).size := by
  obtain ⟨back, hall, hrow⟩ := hs.row
  rw [movedTo_eq hs, reencode, hall]
  generalize hstop : (scan code).stop = stop at hrow
  cases hrow with
  | nil =>
    rw [← stop_eq_size he, hstop]
    simp
  | cons hd => exact absurd hd (hn _ _)

theorem sameNumber_movedTo (he : (scan code).error = none) :
    SameNumber code (reencode code) ip (movedTo code ip) := by
  cases hd : decodeAt code ip with
  | error e => exact .inr (eq_size_of_decodeAt_ne hs he (by simp [hd]))
  | ok found =>
    obtain ⟨i, next⟩ := found
    left
    obtain ⟨back, hall⟩ := reencode_eq_of_decodeAt hs hd
    obtain ⟨front', hs', hfront'⟩ := scansTo_encodeAll (front.map Prod.snd) (i :: back)
    rw [← hall, ← movedTo_eq hs] at hs'
    have hlength : front'.length = front.length := by
      simpa using congrArg List.length hfront'
    obtain ⟨_, hscan, hrow⟩ := hs.row
    obtain ⟨rest, rfl, -⟩ := hrow.uncons hd
    obtain ⟨_, hscan', hrow'⟩ := hs'.row
    obtain ⟨rest', rfl, -⟩ := hrow'.uncons (decodeAt_reencode hs hd)
    refine ⟨front.length, i, ?_, ?_⟩
    · rw [← Array.getElem?_toList, hscan]
      simp
    · rw [← Array.getElem?_toList, hscan', ← hlength]
      simp

theorem getElem?_movedTo (he : (scan code).error = none) :
    (reencode code)[movedTo code ip]? = code[ip]? := by
  cases hd : decodeAt code ip with
  | error e =>
    obtain ⟨hip, hmoved⟩ := eq_size_of_decodeAt_ne hs he (by simp [hd])
    rw [Array.getElem?_eq_none hmoved.ge, Array.getElem?_eq_none hip.ge]
  | ok found =>
    rw [getElem?_of_decodeAt hd, getElem?_of_decodeAt (decodeAt_reencode hs hd)]

theorem fetch_movedTo (he : (scan code).error = none) :
    Machine.fetch (reencode code) (movedTo code ip) =
      (Machine.fetch code ip).map fun found => (found.1, movedTo code found.2) := by
  cases hd : decodeAt code ip with
  | error e =>
    obtain ⟨hip, hmoved⟩ := eq_size_of_decodeAt_ne hs he (by simp [hd])
    rw [Machine.fetch, Machine.fetch, if_pos hip.ge, if_pos hmoved.ge]
    rfl
  | ok found =>
    rw [Machine.fetch_eq_ok_iff.mpr hd, Machine.fetch_eq_ok_iff.mpr (decodeAt_reencode hs hd)]
    rfl

end Scanned

end Instruction

/-- The function with its body in the shortest form. -/
def Function.reencode (f : Function) : Function := { f with body := Instruction.reencode f.body }

namespace Machine

open Instruction (ScansTo SameNumber movedTo scan)

variable {functions : Array Function} {m : Machine}

/-- All bodies can be read to their end. -/
def Readable (functions : Array Function) : Prop := ∀ f ∈ functions, (scan f.body).error = none

instance (functions : Array Function) : Decidable (Readable functions) :=
  inferInstanceAs (Decidable (∀ f ∈ functions, _))

/-! ## Invocations that differ in places only -/

/-- The reports tell of the same trap, at an instruction of the same number. The offset is that of
no instruction where the invoked function does not exist. -/
structure SameTrap (functions : Array Function) (r r' : TrapReport) : Prop where
  trap : r'.trap = r.trap
  function : r'.function = r.function
  opcode : r'.opcode = r.opcode
  depth : r'.depth = r.depth
  offset : match functions[r.function]? with
    | some f => SameNumber f.body f.reencode.body r.offset r'.offset
    | none => r'.offset = r.offset

/-- Two invocations are equally far, with the same memory: neither is over, or both have ended with
the same results or the same trap. -/
inductive Progress.Alike (functions : Array Function) : Progress → Progress → Prop
  | running {m m' : Machine} (hm : m'.memory = m.memory) (hs : m'.steps = m.steps) :
    Alike functions (.running m) (.running m')
  | finished {results : Array Word} {m m' : Machine} (hm : m'.memory = m.memory)
    (hs : m'.steps = m.steps) : Alike functions (.finished results m) (.finished results m')
  | trapped {r r' : TrapReport} {m m' : Machine} (hr : SameTrap functions r r')
    (hm : m'.memory = m.memory) (hs : m'.steps = m.steps) :
    Alike functions (.trapped r m) (.trapped r' m')

/-! ## The displacement -/

/-- Nothing lies below, and places move to where the shortest form has them. -/
def reencoding (functions : Array Function) : Displacement where
  below := #[]
  place := fun function ip =>
    match functions[function]? with
    | some f => movedTo f.body ip
    | none => ip
  callers := []
  depth := 0
  live := 0
  steps := 0

theorem place_reencoding {index : Nat} {f : Function} (hf : functions[index]? = some f) (ip : Nat) :
    (reencoding functions).place index ip = movedTo f.body ip := by
  simp only [reencoding, hf]

theorem movedTo_zero (code : Array UInt8) : movedTo code 0 = 0 := by
  rw [Instruction.movedTo_eq (ScansTo.start code)]
  rfl

theorem fits_reencoding (functions : Array Function) :
    (reencoding functions).Fits functions (functions.map Function.reencode) where
  known := fun index f hf => ⟨Instruction.reencode f.body, by rw [Array.getElem?_map, hf]; rfl⟩
  unknown := fun index hf => by rw [Array.getElem?_map, hf]; rfl
  start := by
    intro index
    cases hf : functions[index]? with
    | none => simp only [reencoding, hf]
    | some f => rw [place_reencoding hf, movedTo_zero]

theorem Placed.scansTo (hp : m.Placed functions) {frame : Frame} (hframe : frame ∈ m.frames)
    {f : Function} (hf : functions[frame.function]? = some f) :
    ∃ front, ScansTo f.body front frame.ip := by
  obtain ⟨g, hg, cs, hn, -⟩ := hp frame hframe
  obtain rfl : f = g := Option.some.inj (hf.symm.trans hg)
  obtain ⟨front, hscan, -⟩ := hn.scansTo
  exact ⟨front, hscan⟩

theorem carries_reencoding (h : Readable functions) :
    (reencoding functions).Carries functions (functions.map Function.reencode)
      fun m => m.Accounted functions ∧ m.Placed functions where
  fits := fits_reencoding functions
  step := fun hm hs hp => ⟨hp.1.step hm hs, hp.2.step hm hs⟩
  accounted := And.left
  fetches := by
    intro m frame callers hp hm f body hf hf'
    rw [Array.getElem?_map, hf] at hf'
    obtain rfl : f.reencode.body = body := congrArg Function.body (Option.some.inj hf')
    obtain ⟨front, hscan⟩ := hp.2.scansTo (by simp [hm]) hf
    have hfetch := Instruction.fetch_movedTo hscan (h f (Array.mem_of_getElem? hf))
    simp only [Displacement.Fetches, place_reencoding hf]
    exact hfetch

/-! ## Steps and runs -/

theorem step_reencoding (h : Readable functions) (ha : m.Accounted functions)
    (hp : m.Placed functions) (hm : m.frames ≠ []) :
    step (functions.map Function.reencode) ((reencoding functions).machine m) =
      mapState (reencoding functions).machine (step functions m) := by
  obtain hstep | ⟨hcrowd, -⟩ := (carries_reencoding h).step_displaced ⟨ha, hp⟩ hm
  · exact hstep
  · -- nothing lies below, so that nothing takes up room
    exact absurd hcrowd (by simp [reencoding])

theorem opcodeAt_reencode (h : Readable functions) (hp : m.Placed functions) {frame : Frame}
    (hframe : frame ∈ m.frames) :
    opcodeAt (functions.map Function.reencode) frame.function
        ((reencoding functions).place frame.function frame.ip) =
      opcodeAt functions frame.function frame.ip := by
  obtain ⟨f, hf, -⟩ := hp frame hframe
  obtain ⟨front, hscan⟩ := hp.scansTo hframe hf
  simp only [opcodeAt, Array.getElem?_map, hf, Option.map_some, place_reencoding hf]
  exact Instruction.getElem?_movedTo hscan (h f (Array.mem_of_getElem? hf))

theorem sameTrap_of_stepAt (h : Readable functions) (hp : m.Placed functions) {frame : Frame}
    (hframe : frame ∈ m.frames) {r : TrapReport} {m' : Machine}
    (hr : stepAt functions frame.function frame.ip m = .error r m') :
    SameTrap functions r ((reencoding functions).report (functions.map Function.reencode) r) := by
  obtain ⟨trap, -, rfl⟩ := stepAt_eq_error hr
  refine ⟨rfl, rfl, opcodeAt_reencode h hp hframe, Nat.zero_add _, ?_⟩
  obtain ⟨f, hf, -⟩ := hp frame hframe
  obtain ⟨front, hscan⟩ := hp.scansTo hframe hf
  simp only [hf, Displacement.report, place_reencoding hf]
  exact Instruction.sameNumber_movedTo hscan (h f (Array.mem_of_getElem? hf))

theorem alike_drain (hm : m.frames = []) :
    Progress.Alike functions m.drain ((reencoding functions).machine m).drain := by
  have hvalues : ((reencoding functions).machine m).stack.values = m.stack.values := by
    simp only [Displacement.machine, Displacement.stack, hm]
    exact Array.empty_append
  have hdrain : ((reencoding functions).machine m).drain = .finished m.stack.values
      { (reencoding functions).machine m with stack := {} } := by
    rw [← hvalues]
    rfl
  rw [hdrain]
  exact .finished rfl (Nat.zero_add _)

/-- A run of the shortest form keeps up with a run of the code it was made from. -/
theorem alike_run (h : Readable functions) (fuel : Nat) (ha : m.Accounted functions)
    (hp : m.Placed functions) :
    Progress.Alike functions (run functions fuel m)
      (run (functions.map Function.reencode) fuel ((reencoding functions).machine m)) := by
  induction fuel generalizing m with
  | zero => exact .running rfl (Nat.zero_add _)
  | succ fuel ih =>
    cases hm : m.frames with
    | nil =>
      have hm' : ((reencoding functions).machine m).frames = [] := by
        simp only [Displacement.machine, hm]
        rfl
      rw [run_of_frames_nil hm, run_of_frames_nil hm']
      exact alike_drain hm
    | cons frame callers =>
      have hne : m.frames ≠ [] := by simp [hm]
      have hframes : ((reencoding functions).machine m).frames =
          (reencoding functions).frame frame :: callers.map (reencoding functions).frame := by
        simp only [Displacement.machine, hm]
        exact List.append_nil _
      have hne' : ((reencoding functions).machine m).frames ≠ [] := by simp [hframes]
      have hstep := step_reencoding h ha hp hne
      cases hs : step functions m with
      | ok u m₁ =>
        rw [hs] at hstep
        rw [run_of_step_ok hne hs, run_of_step_ok hne' hstep]
        exact ih (ha.step hne hs) (hp.step hne hs)
      | error trap m₁ =>
        have ht : stepAt functions frame.function frame.ip m = .error ⟨trap, frame.function,
            frame.ip, opcodeAt functions frame.function frame.ip, m₁.depth⟩ m₁ := by
          simp only [stepAt, hs]
        have ht' := Displacement.stepAt_displaced hstep ht
        simp only [run, hm, hframes, ht, ht']
        exact .trapped (sameTrap_of_stepAt h hp (by simp [hm]) ht) rfl (Nat.zero_add _)

/-! ## Invocations -/

theorem machine_started (index : Nat) (f : Function) (args : Array Word) (memory : Memory) :
    (reencoding functions).machine (started index f args memory) =
      started index f.reencode args memory := by
  have hframe := Displacement.frame_create (D := reencoding functions) index
    ((fits_reencoding functions).start index) f f.reencode.body args 0
  simp only [Displacement.machine, Displacement.stack, started, List.map_cons, List.map_nil, hframe]
  simp only [reencoding, Nat.zero_add, OperandStack.raise, Array.empty_append]
  rfl

/-- An invocation that is refused is refused for the same reason in the shortest form. -/
theorem sameTrap_atEntry (h : Readable functions) (trap : Trap) (index : Nat) :
    SameTrap functions (.atEntry trap index) (.atEntry trap index) := by
  refine ⟨rfl, rfl, rfl, rfl, ?_⟩
  change match functions[index]? with
    | some f => SameNumber f.body f.reencode.body 0 0
    | none => 0 = 0
  cases hf : functions[index]? with
  | none => rfl
  | some f =>
    have hsame := Instruction.sameNumber_movedTo (ScansTo.start f.body)
      (h f (Array.mem_of_getElem? hf))
    rw [movedTo_zero] at hsame
    exact hsame

theorem start_reencode (functions : Array Function) (m : Machine) (index : Nat)
    (args : Array Word) :
    (∃ f, functions[index]? = some f ∧
      m.start functions index args = .running (started index f args m.memory) ∧
      m.start (functions.map Function.reencode) index args =
        .running (started index f.reencode args m.memory)) ∨
    ∃ trap m₁, m.start functions index args = .trapped (.atEntry trap index) m₁ ∧
      m.start (functions.map Function.reencode) index args = .trapped (.atEntry trap index) m₁ := by
  cases hf : functions[index]? with
  | none =>
    right
    have hf' : (functions.map Function.reencode)[index]? = none := by
      rw [Array.getElem?_map, hf]
      rfl
    exact ⟨.unknownFunction index, create m.memory, by simp only [start, enter, hf],
      by simp only [start, enter, hf']⟩
  | some f =>
    have hf' : (functions.map Function.reencode)[index]? = some f.reencode := by
      rw [Array.getElem?_map, hf]
      rfl
    have hcount : f.reencode.parameterCount = f.parameterCount := rfl
    have hsize : f.reencode.frameSize = f.frameSize := rfl
    by_cases hargs : args.size = f.parameterCount
    · by_cases hroom : (create m.memory).Exhausted f.frameSize
      · right
        have hroom' : Exhausted ⟨[], 0, 0, OperandStack.append {} args, m.memory, 0⟩ f.frameSize :=
          hroom
        refine ⟨.callStackExhausted, ⟨[], 0, 0, OperandStack.append {} args, m.memory, 0⟩, ?_, ?_⟩
        · simp only [start, enter, hf, hargs, ne_eq, not_true_eq_false, if_false, create, call,
            hroom', if_true]
        · simp only [start, enter, hf', hcount, hsize, hargs, ne_eq, not_true_eq_false, if_false,
            create, call, hroom', if_true]
      · left
        exact ⟨f, rfl, start_eq_running_iff.mpr ⟨f, hf, hargs, hroom, rfl⟩,
          start_eq_running_iff.mpr ⟨f.reencode, hf', hargs, hroom, rfl⟩⟩
    · right
      refine ⟨.argumentCount f.parameterCount args.size, create m.memory, ?_, ?_⟩
      · simp only [start, enter, hf, ne_eq, hargs, not_false_eq_true, if_true]
      · simp only [start, enter, hf', hcount, ne_eq, hargs, not_false_eq_true, if_true]

/-- Functions whose bodies can be read to their end run as they do with their bodies in the shortest
form: within any number of steps, an invocation of the one is over if and only if that of the other
is, with the same results or the same trap at the same instruction, and with the same memory. -/
theorem invoke_reencode_alike (h : Readable functions) (m : Machine) (index : Nat)
    (args : Array Word) (fuel : Nat) :
    Progress.Alike functions (m.invoke functions index args fuel)
      (m.invoke (functions.map Function.reencode) index args fuel) := by
  unfold invoke
  obtain ⟨f, hf, hs, hs'⟩ | ⟨trap, m₁, hs, hs'⟩ := start_reencode functions m index args
  · rw [hs, hs', ← machine_started]
    refine alike_run h fuel (accounted_started hf args m.memory) ?_
    exact placed_start hs
  · rw [hs, hs']
    exact .trapped (sameTrap_atEntry h trap index) rfl rfl

/-- A loop that counts down from three and then divides by zero, with its integers written in more
bytes than they need. -/
def paddedCountdown : Array Function :=
  #[⟨0, 1, 0, 0, #[0x03, 0x40, 0x20, 0x80, 0x00, 0x41, 0x81, 0x00, 0x6b, 0x22, 0x80, 0x00, 0x0d,
    0x80, 0x00, 0x0b, 0x20, 0x00, 0x20, 0x80, 0x00, 0x6e, 0x0b], 0⟩]

/-- The machine when it has trapped, with `ip` behind the division. -/
def afterCountdown (ip : Nat) : Machine :=
  ⟨[⟨0, ip, #[0], 0, 0, [⟨.block, .empty, 0, 0⟩], .normal⟩], 1, 1, {}, .empty, 20⟩

theorem alike_paddedCountdown :
    Readable paddedCountdown ∧
      (create .empty).invoke paddedCountdown 0 #[3] 30 =
        .trapped ⟨.arithmetic .divisionByZero, 0, 21, some 0x6e, 1⟩ (afterCountdown 22) ∧
      (create .empty).invoke (paddedCountdown.map Function.reencode) 0 #[3] 30 =
        .trapped ⟨.arithmetic .divisionByZero, 0, 16, some 0x6e, 1⟩ (afterCountdown 17) ∧
      Progress.Alike paddedCountdown ((create .empty).invoke paddedCountdown 0 #[3] 30)
        ((create .empty).invoke (paddedCountdown.map Function.reencode) 0 #[3] 30) := by
  have hread : Readable paddedCountdown := by decide +kernel
  exact ⟨hread, by decide +kernel, by decide +kernel,
    invoke_reencode_alike hread (create .empty) 0 #[3] 30⟩

end Machine

end WasmI32
