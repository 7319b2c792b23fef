import WasmI32.Proofs.Module.Collect

/-!
# The module a binary stands for

Decoding succeeds exactly on the binaries of the grammar, and answers the module that the grammar
says the binary stands for. Which error is reported for any other bytes is not told here.
-/

namespace WasmI32

namespace Format

/-- A function has the signature with the given index and the given body. -/
def Joins (types : List FunctionType) (index : Nat) (b : Body) (f : Function) : Prop :=
  ∃ t, types[index]? = some t ∧
    f = ⟨index, t.parameters, t.results, b.localCount, b.code, b.offset⟩

/-- The functions of a module. Without a function section every signature is that of one function,
unless there is no body at all. -/
def FunctionsOf (types : List FunctionType) (indices : Option (List Nat)) (bodies : List Body)
    (fs : List Function) : Prop :=
  let signatures := indices.getD (if bodies = [] then [] else List.range types.length)
  signatures.length = bodies.length ∧
    List.Forall₂ (fun x f => Joins types x.1 x.2 f) (signatures.zip bodies) fs

/-- The number of pages and the largest number of pages of a memory that may not be declared. -/
def pageLimits (limits : Option (Nat × Nat)) : Nat × Nat := limits.getD (0, 0)

/-- What the sections of a binary say, taken together, is the module `m`. -/
structure Describes (sections : List RawSection) (m : Module) : Prop where
  ascending : Ascending 0 sections
  types : Says sections 1 types [] m.types.toList
  functions : ∃ indices bodies,
    Says sections 3 (fun o bs a => ∃ is, typeIndices m.types.size o bs is ∧ a = some is) none
      indices ∧
    Says sections 10 Format.bodies [] bodies ∧
    FunctionsOf m.types.toList indices bodies m.functions.toList
  memory : ∃ limits segments, Says sections 5 memory none limits ∧
    Says sections 11 Format.segments [] segments ∧ m.memoryDeclared = limits.isSome ∧
    (∀ s ∈ segments, Memory.Segment.Fits ((pageLimits limits).1 * 65536) s) ∧
    Memory.Image (pageLimits limits).1 (pageLimits limits).2 segments m.memory
  start : Says sections 8 (fun o bs a => ∃ i, number o bs i ∧ a = some i) none m.start ∧
    ∀ i ∈ m.start, i < m.functions.size
  customNames : List.Forall₂ (fun s name => HasName s.contents name)
    (sections.filter fun s => s.id = 0) m.customNames.toList

/-- The bytes are a binary of the module `m`. -/
def IsBinary (bytes : List UInt8) (m : Module) : Prop :=
  ∃ rest sections, bytes = Module.header ++ rest ∧ Sections 8 rest sections ∧ Describes sections m

end Format

namespace Format

variable {α : Type} {ss : List RawSection} {id : UInt8}

theorem says_toList {G : Grammar (List α)} {as : Array α} :
    Says ss id (fun o bs as => G o bs as.toList) #[] as ↔ Says ss id G [] as.toList := by
  unfold Says
  cases ss.find? (fun s => s.id = id) with
  | some s => rfl
  | none => exact Array.toList_eq_nil_iff.symm

theorem says_map_toList {G : Grammar (List α)} {as : Option (Array α)} :
    Says ss id (fun o bs as => ∃ l, G o bs l ∧ as = some l.toArray) none as ↔
      Says ss id (fun o bs as => ∃ l, G o bs l ∧ as = some l) none (as.map Array.toList) := by
  unfold Says
  cases ss.find? (fun s => s.id = id) with
  | some s =>
    cases as with
    | none => simp
    | some as => simp [← Array.toList_inj]
  | none => simp

/-- Each function has one of the bodies. -/
theorem FunctionsOf.exists_joins {types : List FunctionType} {indices : Option (List Nat)}
    {bodies : List Body} {fs : List Function} (h : FunctionsOf types indices bodies fs)
    {f : Function} (hf : f ∈ fs) : ∃ index b, b ∈ bodies ∧ Joins types index b f := by
  obtain ⟨hlength, hjoin⟩ := List.forall₂_iff_get.mp h.2
  obtain ⟨k, hk, rfl⟩ := List.mem_iff_getElem.mp hf
  have hzip := hlength ▸ hk
  exact ⟨_, _, (List.of_mem_zip (List.getElem_mem hzip)).2, hjoin k hzip hk⟩

end Format

open Format

/-! ## Functions -/

theorem except_bind_eq_ok_iff {ε α β : Type} {x : Except ε α} {f : α → Except ε β} {b : β} :
    x >>= f = .ok b ↔ ∃ a, x = .ok a ∧ f a = .ok b := by
  cases x with
  | error e => simp [bind, Except.bind]
  | ok a => simp [bind, Except.bind]

theorem mapM_eq_ok_iff {ε α β : Type} {f : α → Except ε β} {as : List α} {bs : List β} :
    as.mapM f = .ok bs ↔ List.Forall₂ (fun a b => f a = .ok b) as bs := by
  induction as generalizing bs with
  | nil =>
    rw [List.mapM_nil, List.forall₂_nil_left_iff]
    exact ⟨fun h => (Except.ok.inj h).symm, fun h => by rw [h]; rfl⟩
  | cons a as ih =>
    rw [List.mapM_cons, except_bind_eq_ok_iff, List.forall₂_cons_left_iff]
    refine exists_congr fun b => ?_
    simp only [except_bind_eq_ok_iff, ih]
    constructor
    · rintro ⟨hb, cs, hcs, h⟩
      exact ⟨cs, hb, hcs, (Except.ok.inj h).symm⟩
    · rintro ⟨cs, hb, hcs, rfl⟩
      exact ⟨hb, cs, hcs, rfl⟩

theorem array_mapM_eq_ok_iff {ε α β : Type} {f : α → Except ε β} {as : Array α} {bs : Array β} :
    as.mapM f = .ok bs ↔ List.Forall₂ (fun a b => f a = .ok b) as.toList bs.toList := by
  rw [Array.mapM_eq_mapM_toList, ← mapM_eq_ok_iff]
  cases as.toList.mapM f with
  | error e => simp [Functor.map, Except.map]
  | ok cs =>
    simp only [Functor.map, Except.map, Except.ok.injEq]
    rw [← Array.toList_inj]

theorem function_eq_ok_iff {types : Array FunctionType} {index : Nat} {b : Body} {f : Function} :
    Decode.function types index b = .ok f ↔ Joins types.toList index b f := by
  unfold Decode.function Joins
  rw [Array.getElem?_toList]
  cases types[index]? with
  | none => simp
  | some t => simp [eq_comm]

namespace Draft

variable {d : Draft} {fs : Array Function} {m : Module}

theorem toList_functionTypes (d : Draft) :
    d.functionTypes.toList = (d.typeIndices.map Array.toList).getD
      (if d.bodies.toList = [] then [] else List.range d.types.toList.length) := by
  unfold functionTypes
  cases d.typeIndices with
  | some indices => rfl
  | none =>
    by_cases h : d.bodies = #[]
    · simp [h]
    · simp [h]

/-- Signatures are checked when they are read, so that each function has one. -/
theorem lt_of_mem_functionTypes {ss : List RawSection} (h : Decode.AddsAll {} ss d) {i : Nat}
    (hi : i ∈ d.functionTypes) : i < d.types.size := by
  have hindices := (Decode.collects_of_addsAll h).typeIndices
  unfold functionTypes at hi
  unfold Says at hindices
  split at hindices
  · obtain ⟨is, ⟨-, -, hlt⟩, heq⟩ := hindices
    rw [heq] at hi
    exact hlt i (by simpa using hi)
  · rw [hindices] at hi
    by_cases hb : d.bodies.isEmpty = true
    · simp [hb] at hi
    · simpa [hb] using hi

theorem functions_eq_ok_iff :
    d.functions = .ok fs ↔ FunctionsOf d.types.toList (d.typeIndices.map Array.toList)
      d.bodies.toList fs.toList := by
  unfold functions FunctionsOf
  simp only
  rw [← toList_functionTypes, Array.length_toList, Array.length_toList]
  by_cases h : d.functionTypes.size = d.bodies.size
  · rw [if_neg (not_not.mpr h), and_iff_right h, ← Array.toList_zip]
    simp only [← function_eq_ok_iff]
    exact array_mapM_eq_ok_iff
  · simp [h]

theorem finish_eq_ok_iff :
    d.finish = .ok m ↔ d.functions = .ok m.functions ∧ (∀ i ∈ d.start, i < m.functions.size) ∧
      m.types = d.types ∧ m.memory = d.memory ∧ m.memoryDeclared = d.memoryDeclared ∧
      m.start = d.start ∧ m.customNames = d.customNames := by
  unfold finish
  rw [except_bind_eq_ok_iff]
  constructor
  · rintro ⟨fs, hfs, h⟩
    cases hs : d.start with
    | none =>
      simp only [hs, pure, Except.pure, Except.ok.injEq] at h
      subst h
      simp [hfs]
    | some index =>
      by_cases hi : fs.size ≤ index
      · simp [hs, hi, bind, Except.bind, throw, throwThe, MonadExceptOf.throw] at h
      · simp only [hs, if_neg hi, bind, Except.bind, pure, Except.pure, Except.ok.injEq] at h
        subst h
        simp [hfs, Nat.not_le.mp hi]
  · obtain ⟨types, fs, memory, declared, start, names⟩ := m
    simp only
    rintro ⟨hfs, hstart, rfl, rfl, rfl, rfl, rfl⟩
    refine ⟨fs, hfs, ?_⟩
    cases hs : d.start with
    | none => rfl
    | some index =>
      have hi : ¬ fs.size ≤ index := Nat.not_le.mpr (hstart index (by simp [hs]))
      simp only [if_neg hi]
      rfl

end Draft

/-! ## Modules -/

namespace Module

variable {bytes rest : List UInt8} {m : Module} {ss : List RawSection}

theorem advance_header (rest : List UInt8) :
    (Window.ofBytes (header ++ rest)).advance header.length = ⟨0, 8, rest⟩ := rfl

theorem decode_of_sections_ok {d : Draft} {w : Window}
    (h : Decode.sections rest.length {} ⟨0, 8, rest⟩ = .ok d w) :
    decode (header ++ rest) = d.finish := by
  unfold decode
  rw [if_neg (by simp)]
  simp only [advance_header, Window.remaining, h]

theorem decode_of_sections_error {e : DecodeError} {w : Window}
    (h : Decode.sections rest.length {} ⟨0, 8, rest⟩ = .error e w) :
    decode (header ++ rest) = .error e := by
  unfold decode
  rw [if_neg (by simp)]
  simp only [advance_header, Window.remaining, h]

theorem decode_append_eq_finish :
    decode (header ++ rest) = .ok m ↔
      ∃ ss d, Sections 8 rest ss ∧ Decode.AddsAll {} ss d ∧ d.finish = .ok m := by
  have hread (d : Draft) : (∃ w', Decode.sections rest.length {} ⟨0, 8, rest⟩ = .ok d w') ↔
      ∃ ss, Sections 8 rest ss ∧ Decode.AddsAll {} ss d :=
    Decode.sections_eq_ok_iff (w := ⟨0, 8, rest⟩) le_rfl
  constructor
  · intro h
    cases hd : Decode.sections rest.length {} ⟨0, 8, rest⟩ with
    | error e w =>
      rw [decode_of_sections_error hd] at h
      cases h
    | ok d w =>
      rw [decode_of_sections_ok hd] at h
      obtain ⟨ss, hss, hall⟩ := (hread d).mp ⟨w, hd⟩
      exact ⟨ss, d, hss, hall, h⟩
  · rintro ⟨ss, d, hss, hall, h⟩
    obtain ⟨w, hd⟩ := (hread d).mpr ⟨ss, hss, hall⟩
    rw [decode_of_sections_ok hd]
    exact h

theorem eq_append_of_decode (h : decode bytes = .ok m) : ∃ rest, bytes = header ++ rest := by
  by_cases hb : bytes.take header.length = header
  · refine ⟨bytes.drop header.length, ?_⟩
    calc bytes = bytes.take header.length ++ bytes.drop header.length :=
          (List.take_append_drop _ bytes).symm
      _ = header ++ bytes.drop header.length := by rw [hb]
  · unfold decode at h
    rw [if_pos hb] at h
    cases h

theorem elim_zeroed (limits : Option (Nat × Nat)) :
    limits.elim Memory.empty (fun l => .zeroed l.1 l.2) =
      .zeroed (pageLimits limits).1 (pageLimits limits).2 := by
  cases limits with
  | none => rfl
  | some l => rfl

theorem describes_of_addsAll {d : Draft} (h : Decode.AddsAll {} ss d) (hm : d.finish = .ok m) :
    Describes ss m := by
  obtain ⟨hfs, hlt, htypes, hmemory, hdeclared, hstart, hnames⟩ := Draft.finish_eq_ok_iff.mp hm
  have hall := Decode.collects_of_addsAll h
  refine ⟨hall.ascending, ?_, ?_, ?_, ?_, ?_⟩
  · rw [htypes]
    exact says_toList.mp hall.types
  · rw [htypes]
    exact ⟨_, _, says_map_toList.mp hall.typeIndices, says_toList.mp hall.bodies,
      Draft.functions_eq_ok_iff.mp hfs⟩
  · obtain ⟨limits, segments, hl, hs, hdecl, hfits, hmem⟩ := hall.memory
    rw [elim_zeroed] at hfits hmem
    rw [Memory.size_zeroed] at hfits
    refine ⟨limits, segments, hl, hs, hdeclared.trans hdecl, hfits, ?_⟩
    rw [hmemory, hmem]
    exact Memory.image_putAll _ hfits
  · rw [hstart]
    exact ⟨hall.start, hlt⟩
  · obtain ⟨names, hforall, heq⟩ := hall.customNames
    rw [hnames, heq]
    exact hforall

/-- What has been read of a module when all of it has been read. -/
def draft (m : Module) (indices : Option (List Nat)) (bodies : List Body) : Draft where
  types := m.types
  typeIndices := indices.map List.toArray
  memory := m.memory
  memoryDeclared := m.memoryDeclared
  start := m.start
  bodies := bodies.toArray
  customNames := m.customNames

theorem exists_addsAll_of_describes (h : Describes ss m) :
    ∃ d, Decode.AddsAll {} ss d ∧ d.finish = .ok m := by
  obtain ⟨indices, bodies, hindices, hbodies, hfs⟩ := h.functions
  obtain ⟨limits, segments, hl, hs, hdecl, hfits, himage⟩ := h.memory
  have hmap : (indices.map List.toArray).map Array.toList = indices := by
    cases indices with
    | none => rfl
    | some indices => rfl
  have hcollects : Decode.Collects {} ss (m.draft indices bodies) := by
    refine ⟨h.ascending, says_toList.mpr h.types, says_map_toList.mpr ?_,
      ⟨limits, segments, hl, hs, hdecl, ?_, ?_⟩, h.start.1, says_toList.mpr hbodies,
      m.customNames.toList, h.customNames, by simp [draft]⟩
    · rw [draft, hmap]
      exact hindices
    · rw [elim_zeroed, Memory.size_zeroed]
      exact hfits
    · rw [elim_zeroed]
      exact himage.unique (Memory.image_putAll _ hfits)
  obtain ⟨previous, hall⟩ := Decode.addsAll_of_collects hcollects
  refine ⟨_, hall, Draft.finish_eq_ok_iff.mpr ⟨?_, h.start.2, rfl, rfl, rfl, rfl, rfl⟩⟩
  refine Draft.functions_eq_ok_iff.mpr ?_
  simp only [draft]
  rw [hmap]
  exact hfs

/-- Behind the header, decoding answers the module that the sections describe. -/
theorem decode_append :
    decode (header ++ rest) = .ok m ↔ ∃ ss, Sections 8 rest ss ∧ Describes ss m := by
  rw [decode_append_eq_finish]
  constructor
  · rintro ⟨ss, d, hss, hall, hm⟩
    exact ⟨ss, hss, describes_of_addsAll hall hm⟩
  · rintro ⟨ss, hss, hm⟩
    obtain ⟨d, hall, hfinish⟩ := exists_addsAll_of_describes hm
    exact ⟨ss, d, hss, hall, hfinish⟩

/-- Decoding accepts exactly the binaries of the format, and answers the module that such a binary
stands for. -/
theorem decode_eq_ok_iff_isBinary : decode bytes = .ok m ↔ IsBinary bytes m := by
  constructor
  · intro h
    obtain ⟨rest, rfl⟩ := eq_append_of_decode h
    obtain ⟨ss, hss, hm⟩ := decode_append.mp h
    exact ⟨rest, ss, rfl, hss, hm⟩
  · rintro ⟨rest, ss, rfl, hss, hm⟩
    exact decode_append.mpr ⟨ss, hss, hm⟩

end Module

end WasmI32
