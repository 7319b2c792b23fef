import WasmI32.Proofs.Module.RoundTrip

/-!
# Building and reading back

A module is asked for operation by operation. What its binary stands for is told here by the
operations alone: signatures in the order of their first use, a function for each call that adds
one, the last memory and the last start function, data in order.
-/

namespace WasmI32.Builder

/-- One thing that a builder is asked for. -/
inductive Operation where
  | signature (type : FunctionType)
  | function (type : FunctionType) (localCount : Word) (body : List Instruction)
  /-- A function with the code as it is. -/
  | rawFunction (typeIndex localCount : Word) (code : List UInt8)
  | memory (initial : Word) (max : Option Word)
  | start (index : Word)
  | data (address : Word) (bytes : List UInt8)
  | custom (name : String) (payload : List UInt8)
  deriving DecidableEq

namespace Operation

/-- The signature that an operation brings in. -/
def type? : Operation → Option FunctionType
  | signature type => some type
  | function type _ _ => some type
  | _ => none

def addsFunction : Operation → Bool
  | function _ _ _ => true
  | rawFunction _ _ _ => true
  | _ => false

def memory? : Operation → Option Limits
  | memory initial max => some ⟨initial, max⟩
  | _ => none

def start? : Operation → Option Word
  | start index => some index
  | _ => none

def segment? : Operation → Option Memory.Segment
  | data address bytes => some (address, bytes)
  | _ => none

def customName? : Operation → Option String
  | custom name _ => some name
  | _ => none

end Operation

/-- The builder after an operation. -/
def perform (b : Builder) : Operation → Builder
  | .signature type => (b.addSignature type).2
  | .function type localCount body => (b.addFunction type localCount body).2
  | .rawFunction typeIndex localCount code => (b.addCode typeIndex localCount code).2
  | .memory initial max => b.setMemory initial max
  | .start index => b.setStart index
  | .data address bytes => b.addData address bytes
  | .custom name payload => b.addCustom name payload

/-- The builder after operations on an empty one. -/
def build (ops : List Operation) : Builder := ops.foldl perform {}

theorem build_append (ops more : List Operation) :
    build (ops ++ more) = more.foldl perform (build ops) := List.foldl_append

theorem build_concat (ops : List Operation) (op : Operation) :
    build (ops ++ [op]) = (build ops).perform op := build_append ops [op]

variable {α : Type}

/-- What is collected step by step is what all operations bring in. -/
theorem view_build_eq_filterMap (view : Builder → List α) {f : Operation → Option α}
    (hempty : view {} = []) (hstep : ∀ b op, view (b.perform op) = view b ++ (f op).toList)
    (ops : List Operation) : view (build ops) = ops.filterMap f := by
  induction ops using List.reverseRecOn with
  | nil => exact hempty
  | append_singleton ops op ih =>
    rw [build_concat, hstep, ih, List.filterMap_append, filterMap_cons_toList, List.filterMap_nil,
      List.append_nil]

/-- What each step sets anew is what the last operation sets. -/
theorem view_build_eq_getLast? (view : Builder → Option α) {f : Operation → Option α}
    (hempty : view {} = none) (hstep : ∀ b op, view (b.perform op) = (f op).or (view b))
    (ops : List Operation) : view (build ops) = (ops.filterMap f).getLast? := by
  induction ops using List.reverseRecOn with
  | nil => exact hempty
  | append_singleton ops op ih =>
    rw [build_concat, hstep, ih, List.filterMap_append, List.getLast?_append, filterMap_cons_toList]
    cases f op with
    | none => rfl
    | some x => rfl

/-! ## Steps -/

/-- A signature is found or put behind the others. -/
theorem addSignature_cases (b : Builder) (type : FunctionType) :
    (∃ i, b.types.toList[i]? = some type ∧ b.addSignature type = (i, b)) ∨
      type ∉ b.types.toList ∧
        b.addSignature type = (b.types.size, { b with types := b.types.push type }) := by
  unfold addSignature
  cases hfind : b.types.findIdx? (· = type) with
  | some i =>
    obtain ⟨hi, htype, -⟩ := Array.findIdx?_eq_some_iff_getElem.mp hfind
    refine .inl ⟨i, ?_, rfl⟩
    rw [Array.getElem?_toList, Array.getElem?_eq_getElem hi]
    simpa using htype
  | none =>
    refine .inr ⟨fun hmem => ?_, rfl⟩
    simpa using Array.findIdx?_eq_none_iff.mp hfind type (Array.mem_toList_iff.mp hmem)

/-- The entry that an operation adds to the functions. -/
def added (b : Builder) : Operation → Option Function
  | .function type localCount body =>
    some ⟨BitVec.ofNat 32 (b.addSignature type).1, localCount,
      Instruction.encodeAll (body ++ [.endMark])⟩
  | .rawFunction typeIndex localCount code => some ⟨typeIndex, localCount, code⟩
  | _ => none

/-- All that a step does to a builder. -/
structure Performs (b : Builder) (op : Operation) (b' : Builder) : Prop where
  types : b'.types.toList = b.types.toList ++
    (op.type?.toList.filter fun type => type ∉ b.types.toList)
  functions : b'.functions.toList = b.functions.toList ++ (b.added op).toList
  memory : b'.memory = op.memory?.or b.memory
  start : b'.start = op.start?.or b.start
  data : b'.segments = b.segments ++ op.segment?.toList
  custom : b'.custom.toList.map Custom.name = b.custom.toList.map Custom.name ++
    op.customName?.toList

theorem types_addSignature (b : Builder) (type : FunctionType) :
    (b.addSignature type).2.types.toList =
      b.types.toList ++ ([type].filter fun type => type ∉ b.types.toList) := by
  obtain ⟨i, hi, heq⟩ | ⟨hnew, heq⟩ := addSignature_cases b type
  · have hmem : type ∈ b.types.toList := List.mem_of_getElem? hi
    rw [heq, List.filter_cons_of_neg (by simpa using hmem)]
    simp
  · rw [heq, List.filter_cons_of_pos (by simpa using hnew), Array.toList_push]
    simp

/-- Nothing but the signatures changes when one is added. -/
theorem addSignature_frame (b : Builder) (type : FunctionType) :
    (b.addSignature type).2.functions = b.functions ∧ (b.addSignature type).2.memory = b.memory ∧
      (b.addSignature type).2.start = b.start ∧ (b.addSignature type).2.data = b.data ∧
      (b.addSignature type).2.custom = b.custom := by
  obtain ⟨i, -, heq⟩ | ⟨-, heq⟩ := addSignature_cases b type
  · rw [heq]
    exact ⟨rfl, rfl, rfl, rfl, rfl⟩
  · rw [heq]
    exact ⟨rfl, rfl, rfl, rfl, rfl⟩

theorem getElem?_addSignature (b : Builder) (type : FunctionType) :
    (b.addSignature type).2.types.toList[(b.addSignature type).1]? = some type := by
  obtain ⟨i, hi, heq⟩ | ⟨-, heq⟩ := addSignature_cases b type
  · rw [heq]
    exact hi
  · rw [heq]
    simp

theorem performs_perform (b : Builder) (op : Operation) : Performs b op (b.perform op) := by
  have hnil {α : Type} (l : List α) : l = l ++ [] := (List.append_nil l).symm
  cases op with
  | signature type =>
    obtain ⟨hfunctions, hmemory, hstart, hdata, hcustom⟩ := addSignature_frame b type
    refine ⟨types_addSignature b type, ?_, hmemory, hstart, ?_, ?_⟩
    · rw [perform, hfunctions]
      exact hnil _
    · rw [perform, segments, hdata]
      exact hnil _
    · rw [perform, hcustom]
      exact hnil _
  | function type localCount body =>
    obtain ⟨hfunctions, hmemory, hstart, hdata, hcustom⟩ := addSignature_frame b type
    refine ⟨types_addSignature b type, ?_, hmemory, hstart, ?_, ?_⟩
    · change ((b.addSignature type).2.functions.push _).toList = _
      rw [hfunctions]
      exact Array.toList_push ..
    · change (b.addSignature type).2.data.toList.map _ = _
      rw [hdata]
      exact hnil _
    · change (b.addSignature type).2.custom.toList.map _ = _
      rw [hcustom]
      exact hnil _
  | rawFunction typeIndex localCount code =>
    exact ⟨hnil _, Array.toList_push .., rfl, rfl, hnil _, hnil _⟩
  | memory initial max => exact ⟨hnil _, hnil _, rfl, rfl, hnil _, hnil _⟩
  | start index => exact ⟨hnil _, hnil _, rfl, rfl, hnil _, hnil _⟩
  | data address bytes =>
    refine ⟨hnil _, hnil _, rfl, rfl, ?_, hnil _⟩
    simp [perform, addData, segments, Operation.segment?]
  | custom name payload =>
    refine ⟨hnil _, hnil _, rfl, rfl, hnil _, ?_⟩
    simp [perform, addCustom, Operation.customName?]

/-! ## Runs -/

variable (ops : List Operation)

theorem eraseDups_append_toList (types : List FunctionType) (type? : Option FunctionType) :
    (types ++ type?.toList).eraseDups =
      types.eraseDups ++ (type?.toList.filter fun type => type ∉ types.eraseDups) := by
  rw [List.eraseDups_append]
  cases type? with
  | none => rfl
  | some type =>
    by_cases h : type ∈ types
    · simp [List.removeAll, h]
    · simp [List.removeAll, h, List.eraseDups_cons]

/-- The signatures are the distinct ones, in the order of their first use. -/
theorem types_build : (build ops).types.toList = (ops.filterMap Operation.type?).eraseDups := by
  induction ops using List.reverseRecOn with
  | nil => rfl
  | append_singleton ops op ih =>
    rw [build_concat, (performs_perform (build ops) op).types, ih, List.filterMap_append,
      filterMap_cons_toList, List.filterMap_nil, List.append_nil, eraseDups_append_toList]

theorem memory_build : (build ops).memory = (ops.filterMap Operation.memory?).getLast? :=
  view_build_eq_getLast? Builder.memory rfl (fun b op => (performs_perform b op).memory) ops

theorem start_build : (build ops).start = (ops.filterMap Operation.start?).getLast? :=
  view_build_eq_getLast? Builder.start rfl (fun b op => (performs_perform b op).start) ops

theorem segments_build : (build ops).segments = ops.filterMap Operation.segment? :=
  view_build_eq_filterMap segments rfl (fun b op => (performs_perform b op).data) ops

theorem customNames_build :
    (build ops).custom.toList.map Custom.name = ops.filterMap Operation.customName? :=
  view_build_eq_filterMap (fun b => b.custom.toList.map Custom.name) rfl
    (fun b op => (performs_perform b op).custom) ops

theorem length_added (b : Builder) (op : Operation) :
    (b.added op).toList.length = if op.addsFunction then 1 else 0 := by
  cases op with
  | _ => rfl

theorem size_functions_build :
    (build ops).functions.size = ops.countP Operation.addsFunction := by
  induction ops using List.reverseRecOn with
  | nil => rfl
  | append_singleton ops op ih =>
    rw [build_concat, ← Array.length_toList, (performs_perform (build ops) op).functions,
      List.length_append, Array.length_toList, ih, length_added, List.countP_append]
    simp

/-- Signatures and functions stay where they are. -/
theorem prefix_build (more : List Operation) :
    (build ops).types.toList.IsPrefix (build (ops ++ more)).types.toList ∧
      (build ops).functions.toList.IsPrefix (build (ops ++ more)).functions.toList := by
  induction more using List.reverseRecOn with
  | nil =>
    rw [List.append_nil]
    exact ⟨List.prefix_rfl, List.prefix_rfl⟩
  | append_singleton more op ih =>
    have hstep := performs_perform (build (ops ++ more)) op
    rw [← List.append_assoc, build_concat, hstep.types, hstep.functions]
    exact ⟨ih.1.trans (List.prefix_append _ _), ih.2.trans (List.prefix_append _ _)⟩

/-! ## Modules -/

/-- A module has what its builder was asked for. -/
structure Realizes (ops : List Operation) (m : Module) : Prop where
  types : m.types.toList = (ops.filterMap Operation.type?).eraseDups
  functionCount : m.functions.size = ops.countP Operation.addsFunction
  /-- A function stands at the index that the call which added it has answered. -/
  function : ∀ before type localCount body after,
    ops = before ++ .function type localCount body :: after →
    ∃ f, m.functions[((build before).addFunction type localCount body).1]? = some f ∧
      f.parameterCount = type.parameters ∧ f.resultCount = type.results ∧
      f.localCount = localCount.toNat ∧
      f.body.toList = Instruction.encodeAll (body ++ [.endMark])
  rawFunction : ∀ before typeIndex localCount code after,
    ops = before ++ .rawFunction typeIndex localCount code :: after →
    ∃ f type, m.functions[((build before).addCode typeIndex localCount code).1]? = some f ∧
      m.types[typeIndex.toNat]? = some type ∧
      f.parameterCount = type.parameters ∧ f.resultCount = type.results ∧
      f.localCount = localCount.toNat ∧ f.body.toList = code
  start : m.start = ((ops.filterMap Operation.start?).getLast?).map BitVec.toNat
  memoryDeclared : m.memoryDeclared = (ops.filterMap Operation.memory?).getLast?.isSome
  memory : Memory.Image
    (((ops.filterMap Operation.memory?).getLast?.map fun l => l.initial.toNat).getD 0)
    (((ops.filterMap Operation.memory?).getLast?.map Limits.maximum).getD 0)
    (ops.filterMap Operation.segment?) m.memory
  customNames : m.customNames.toList = ops.filterMap Operation.customName?

theorem getElem?_of_forall₂ {α β : Type} {R : α → β → Prop} {xs : List α} {ys : List β}
    (h : List.Forall₂ R xs ys) {i : Nat} {x : α} (hx : xs[i]? = some x) :
    ∃ y, ys[i]? = some y ∧ R x y := by
  induction h generalizing i with
  | nil => simp at hx
  | cons hxy _ ih =>
    cases i with
    | zero =>
      obtain rfl := Option.some.inj hx
      exact ⟨_, rfl, hxy⟩
    | succ i => exact ih hx

variable {ops} {m : Module} {before after : List Operation} {op : Operation}

theorem getElem?_functions_build {e : Function} (hops : ops = before ++ op :: after)
    (he : (build before).added op = some e) :
    (build ops).functions.toList[(build before).functions.size]? = some e := by
  have hsplit : ops = (before ++ [op]) ++ after := by
    rw [hops, List.append_assoc]
    rfl
  have hprefix := (prefix_build (before ++ [op]) after).2
  rw [← hsplit, build_concat, (performs_perform _ op).functions, he] at hprefix
  obtain ⟨rest, hrest⟩ := hprefix
  rw [← hrest, List.append_assoc, List.getElem?_append_right (by simp)]
  simp

theorem exists_function (h : (build ops).Reflects m) (hops : ops = before ++ op :: after)
    {e : Function} (he : (build before).added op = some e) :
    ∃ f, m.functions[(build before).functions.size]? = some f ∧
      Matches (build ops).types e f := by
  obtain ⟨f, hf, hmatches⟩ := getElem?_of_forall₂ h.functions (getElem?_functions_build hops he)
  rw [Array.getElem?_toList] at hf
  exact ⟨f, hf, hmatches⟩

/-- The signature that a function is added with keeps its index. -/
theorem getElem?_types_build {type : FunctionType} {localCount : Word} {body : List Instruction}
    (hops : ops = before ++ .function type localCount body :: after) :
    (build ops).types[((build before).addSignature type).1]? = some type := by
  have hsplit : ops = (before ++ [.function type localCount body]) ++ after := by
    rw [hops, List.append_assoc]
    rfl
  have hprefix := (prefix_build (before ++ [.function type localCount body]) after).1
  rw [← hsplit, build_concat] at hprefix
  obtain ⟨rest, hrest⟩ := hprefix
  have hfound := getElem?_addSignature (build before) type
  have hlt := (List.getElem?_eq_some_iff.mp hfound).1
  rw [← Array.getElem?_toList, ← hrest]
  exact (List.getElem?_append_left hlt).trans hfound

theorem realizes_of_reflects (hb : (build ops).Sized) (h : (build ops).Reflects m) :
    Realizes ops m where
  types := by rw [h.types, types_build]
  functionCount := by
    rw [← size_functions_build, ← Array.length_toList, ← h.functions.length_eq, Array.length_toList]
  function := by
    intro before type localCount body after hops
    obtain ⟨f, hf, t, ht, -, hparameters, hresults, hlocals, hbody⟩ := exists_function h hops rfl
    have htype := getElem?_types_build hops
    have hlt : ((build before).addSignature type).1 < 2 ^ 32 :=
      (Array.getElem?_eq_some_iff.mp htype).1.trans hb.types.1
    rw [BitVec.toNat_ofNat, Nat.mod_eq_of_lt hlt, htype] at ht
    obtain rfl := Option.some.inj ht
    refine ⟨f, ?_, hparameters, hresults, hlocals, by rw [hbody]⟩
    have hindex : ((build before).addFunction type localCount body).1 =
        (build before).functions.size :=
      congrArg Array.size (addSignature_frame (build before) type).1
    rw [hindex, hf]
  rawFunction := by
    intro before typeIndex localCount code after hops
    obtain ⟨f, hf, t, ht, -, hparameters, hresults, hlocals, hbody⟩ := exists_function h hops rfl
    exact ⟨f, t, hf, by rw [h.types, ht], hparameters, hresults, hlocals, by rw [hbody]⟩
  start := by rw [h.start, start_build]
  memoryDeclared := by rw [h.memoryDeclared, memory_build]
  memory := by
    have himage := h.memory
    rwa [pages, maxPages, memory_build, segments_build] at himage
  customNames := by rw [h.customNames, customNames_build]

/-- Decoding inverts building: a binary is accepted exactly if what it was built from keeps to the
limits of the decoder, and then it stands for what the operations have asked for. -/
theorem decode_encode_build (ops : List Operation) (h : (build ops).Sized) :
    ((∃ m, Module.decode (build ops).encode = .ok m) ↔ (build ops).Within) ∧
      ∀ m, Module.decode (build ops).encode = .ok m → Realizes ops m := by
  obtain ⟨hiff, hreflects⟩ := decode_encode h
  exact ⟨hiff, fun m hm => realizes_of_reflects h (hreflects m hm)⟩

/-- A signature used twice, a function of each kind, a memory set anew, data that overlap. -/
def mixedOperations : List Operation :=
  [.signature ⟨0, 1⟩, .function ⟨1, 1⟩ 2 [.localGet 0], .rawFunction 0 0 [0x41, 0x2a, 0x0b],
    .function ⟨0, 1⟩ 0 [.const 7], .memory 0 none, .memory 1 (some 2), .data 65534 [1, 2],
    .data 65535 [7], .start 1, .custom "größe" [1, 2, 3]]

theorem decode_encode_mixedOperations :
    (build mixedOperations).Sized ∧
      ∃ m, Module.decode (build mixedOperations).encode = .ok m ∧ Realizes mixedOperations m := by
  have hsized : (build mixedOperations).Sized := by
    unfold Sized
    decide +kernel
  have hwithin : (build mixedOperations).Within := by
    have hstart : (build mixedOperations).start = some 1 := by decide +kernel
    have hlt : 1 < (build mixedOperations).functions.size := by decide +kernel
    refine ⟨by decide +kernel, by decide +kernel, by decide +kernel, ?_, by decide +kernel⟩
    intro i hi
    rw [hstart] at hi
    obtain rfl := Option.some.inj hi
    exact hlt
  obtain ⟨hiff, hrealizes⟩ := decode_encode_build mixedOperations hsized
  obtain ⟨m, hm⟩ := hiff.mpr hwithin
  exact ⟨hsized, m, hm, hrealizes m hm⟩

end WasmI32.Builder
