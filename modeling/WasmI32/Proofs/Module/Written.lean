import WasmI32.Proofs.Module.Denotation
import WasmI32.Proofs.Module.Encoding

/-!
# The sections of a written binary

The binary of a builder is the header and a list of sections. Read as the grammar says, it falls
apart into these sections again, and each of them says what the builder holds.
-/

namespace WasmI32

open Format

namespace Builder

variable {α : Type} {b : Builder} {id : UInt8}

/-- The contents of a section of items, unless there are none. -/
def itemContents (item : α → List UInt8) (items : Array α) : Option (List UInt8) :=
  if items.isEmpty then none else some (encodeItems item items)

/-- The contents of the section with number `id`, if it is written. -/
def contents? (b : Builder) (id : UInt8) : Option (List UInt8) :=
  if id = Section.type then itemContents encodeType b.types
  else if id = Section.function then
    itemContents (fun f => Leb128.encodeUnsigned f.typeIndex) b.functions
  else if id = Section.memory then b.memory.map fun l => encodeCount 1 ++ encodeLimits l
  else if id = Section.start then b.start.map Leb128.encodeUnsigned
  else if id = Section.code then itemContents encodeFunction b.functions
  else if id = Section.data then itemContents encodeData b.data
  else none

@[simp] theorem contents?_type : b.contents? 1 = itemContents encodeType b.types := rfl

@[simp] theorem contents?_function :
    b.contents? 3 = itemContents (fun f => Leb128.encodeUnsigned f.typeIndex) b.functions := rfl

@[simp] theorem contents?_memory :
    b.contents? 5 = b.memory.map fun l => encodeCount 1 ++ encodeLimits l := rfl

@[simp] theorem contents?_start : b.contents? 8 = b.start.map Leb128.encodeUnsigned := rfl

@[simp] theorem contents?_code : b.contents? 10 = itemContents encodeFunction b.functions := rfl

@[simp] theorem contents?_data : b.contents? 11 = itemContents encodeData b.data := rfl

/-- The numbers of the sections that are written, custom ones apart. -/
def numbers : List UInt8 := [1, 3, 5, 8, 10, 11]

/-- The contents of a custom section. -/
def customContents (custom : Custom) : List UInt8 :=
  encodeBytes custom.name.toUTF8.data.toList ++ custom.payload

def customSections (b : Builder) : List (UInt8 × List UInt8) :=
  b.custom.toList.map fun custom => (0, customContents custom)

/-- The numbers and the contents of the sections of the binary. -/
def sections (b : Builder) : List (UInt8 × List UInt8) :=
  numbers.filterMap (fun id => (b.contents? id).map (id, ·)) ++ b.customSections

/-- The sections in a row. -/
def encodeSections (ss : List (UInt8 × List UInt8)) : List UInt8 :=
  ss.flatMap fun s => encodeSection s.1 s.2

/-- The size of every section can be written. -/
def Sized (b : Builder) : Prop := ∀ s ∈ b.sections, s.2.length < 2 ^ 32

theorem encodeSections_append (ss ts : List (UInt8 × List UInt8)) :
    encodeSections (ss ++ ts) = encodeSections ss ++ encodeSections ts :=
  List.flatMap_append

theorem encodeSections_itemContents (id : UInt8) (item : α → List UInt8) (items : Array α) :
    encodeSections ((itemContents item items).map (id, ·)).toList =
      encodeItemSection id item items := by
  unfold itemContents encodeItemSection
  split
  · rfl
  · simp [encodeSections]

theorem encodeSections_memory (memory : Option Limits) :
    encodeSections ((memory.map fun l => encodeCount 1 ++ encodeLimits l).map (5, ·)).toList =
      encodeMemorySection memory := by
  cases memory with
  | none => rfl
  | some l => exact List.append_nil _

theorem encodeSections_start (start : Option Word) :
    encodeSections ((start.map Leb128.encodeUnsigned).map (8, ·)).toList =
      encodeStartSection start := by
  cases start with
  | none => rfl
  | some i => exact List.append_nil _

theorem filterMap_cons_toList {β γ : Type} (f : β → Option γ) (x : β) (xs : List β) :
    (x :: xs).filterMap f = (f x).toList ++ xs.filterMap f := by
  cases h : f x with
  | none => rw [List.filterMap_cons_none h]; rfl
  | some y => rw [List.filterMap_cons_some h]; rfl

theorem encode_eq (b : Builder) : b.encode = Module.header ++ encodeSections b.sections := by
  have hcustom : encodeSections b.customSections = b.custom.toList.flatMap encodeCustom :=
    List.flatMap_map ..
  simp only [encode, sections, numbers, filterMap_cons_toList, List.filterMap_nil,
    encodeSections_append, hcustom, contents?_type, contents?_function, contents?_memory,
    contents?_start, contents?_code, contents?_data, encodeSections_itemContents,
    encodeSections_memory, encodeSections_start, List.append_assoc]
  rfl

/-! ## Finding sections -/

theorem find?_filterMap {β : Type} (f : UInt8 → Option β) (ids : List UInt8) {k : UInt8}
    (h : k ∈ ids) :
    (ids.filterMap fun id => (f id).map (id, ·)).find? (fun s => s.1 = k) = (f k).map (k, ·) := by
  induction ids with
  | nil => exact absurd h List.not_mem_nil
  | cons x xs ih =>
    by_cases hx : x = k
    · subst hx
      cases hf : f x with
      | some y =>
        rw [List.filterMap_cons_some (by rw [hf]; rfl), List.find?_cons_of_pos (by simp)]
        rfl
      | none =>
        refine List.find?_eq_none.mpr fun s hs he => ?_
        obtain ⟨id, -, hid⟩ := List.mem_filterMap.mp hs
        obtain ⟨y, hy, rfl⟩ := Option.map_eq_some_iff.mp hid
        obtain rfl : id = x := by simpa using he
        rw [hf] at hy
        cases hy
    · have hmem := (List.mem_cons.mp h).resolve_left (Ne.symm hx)
      cases hf : f x with
      | some y =>
        rw [List.filterMap_cons_some (by rw [hf]; rfl), List.find?_cons_of_neg (by simpa using hx)]
        exact ih hmem
      | none =>
        rw [List.filterMap_cons_none (by rw [hf]; rfl)]
        exact ih hmem

theorem sublist_of_filterMap {β : Type} (f : UInt8 → Option β) (ids : List UInt8) :
    ((ids.filterMap fun id => (f id).map (id, ·)).map Prod.fst).Sublist ids := by
  induction ids with
  | nil => exact .slnil
  | cons x xs ih =>
    cases hf : f x with
    | some y =>
      rw [List.filterMap_cons_some (by rw [hf]; rfl)]
      exact ih.cons_cons x
    | none =>
      rw [List.filterMap_cons_none (by rw [hf]; rfl)]
      exact ih.cons x

theorem find?_customSections (h : id ≠ 0) :
    b.customSections.find? (fun s => s.1 = id) = none := by
  rw [List.find?_eq_none]
  intro s hs
  obtain ⟨custom, -, rfl⟩ := List.mem_map.mp hs
  simpa using h.symm

theorem find?_sections (h : id ∈ numbers) :
    b.sections.find? (fun s => s.1 = id) = (b.contents? id).map (id, ·) := by
  have h0 : id ≠ 0 := by
    rintro rfl
    exact absurd h (by decide)
  rw [sections, List.find?_append, find?_filterMap _ _ h, find?_customSections h0, Option.or_none]

/-- What a section says that is written. -/
def SaysAt (o : Nat) (contents : Option (List UInt8)) (G : Grammar α) (absent a : α) : Prop :=
  match contents with
  | some cs => G o cs a
  | none => a = absent

theorem exists_saysAt {rs : List RawSection}
    (h : rs.map (fun s => (s.id, s.contents)) = b.sections) (id : UInt8) (hid : id ∈ numbers) :
    ∃ o, ∀ {α : Type} {G : Grammar α} {absent a : α},
      Says rs id G absent a ↔ SaysAt o (b.contents? id) G absent a := by
  have hfind := find?_sections (b := b) hid
  rw [← h, List.find?_map] at hfind
  change (rs.find? fun s => s.id = id).map _ = _ at hfind
  cases hs : rs.find? fun s => s.id = id with
  | none =>
    rw [hs, Option.map_none, eq_comm, Option.map_eq_none_iff] at hfind
    refine ⟨0, fun {α G absent a} => ?_⟩
    unfold Says SaysAt
    rw [hs, hfind]
  | some s =>
    rw [hs, Option.map_some] at hfind
    obtain ⟨cs, hcs, heq⟩ := Option.map_eq_some_iff.mp hfind.symm
    obtain rfl : cs = s.contents := congrArg Prod.snd heq
    refine ⟨s.offset, fun {α G absent a} => ?_⟩
    unfold Says SaysAt
    rw [hs, hcs]

/-! ## Sizes -/

theorem length_le_encodeItems (e : α → List UInt8) (xs : Array α) {x : α} (h : x ∈ xs.toList) :
    (e x).length ≤ (encodeItems e xs).length := by
  have hflat : (e x).length ≤ (xs.toList.flatMap e).length := by
    rw [List.length_flatMap]
    exact List.le_sum_of_mem (List.mem_map_of_mem h)
  rw [encodeItems, List.length_append]
  omega

theorem size_le_encodeItems {e : α → List UInt8} (he : ∀ x, e x ≠ []) (xs : Array α) :
    xs.size ≤ (encodeItems e xs).length := by
  have hflat (l : List α) : l.length ≤ (l.flatMap e).length := by
    induction l with
    | nil => exact Nat.zero_le _
    | cons x l ih =>
      have hpos : 0 < (e x).length := List.length_pos_of_ne_nil (he x)
      rw [List.flatMap_cons, List.length_append, List.length_cons]
      omega
  rw [encodeItems, List.length_append, ← Array.length_toList]
  exact (hflat xs.toList).trans (Nat.le_add_left _ _)

theorem encodeUnsigned_ne_nil (v : Word) : Leb128.encodeUnsigned v ≠ [] :=
  (Leb128.unsigned_encodeUnsigned v).numeral.ne_nil

namespace Sized

variable (h : b.Sized)

include h

theorem contents {cs : List UInt8} (hid : id ∈ numbers) (hc : b.contents? id = some cs) :
    cs.length < 2 ^ 32 := by
  refine h (id, cs) (List.mem_append_left _ (List.mem_filterMap.mpr ⟨id, hid, ?_⟩))
  rw [hc, Option.map_some]

/-- Items that stand in a section are no more and no longer than its size can say. -/
theorem items {e : α → List UInt8} {xs : Array α} (hid : id ∈ numbers)
    (hc : b.contents? id = itemContents e xs) (he : ∀ x, e x ≠ []) :
    xs.size < 2 ^ 32 ∧ ∀ x ∈ xs.toList, (e x).length < 2 ^ 32 := by
  by_cases hxs : xs.isEmpty
  · obtain rfl := Array.isEmpty_iff.mp hxs
    simp
  · have hsize : (encodeItems e xs).length < 2 ^ 32 :=
      h.contents hid (hc.trans (if_neg hxs))
    exact ⟨(size_le_encodeItems he xs).trans_lt hsize,
      fun x hx => (length_le_encodeItems e xs hx).trans_lt hsize⟩

theorem types : b.types.size < 2 ^ 32 ∧
    ∀ t ∈ b.types.toList, t.parameters < 2 ^ 32 ∧ t.results < 2 ^ 32 := by
  obtain ⟨hsize, hitems⟩ :=
    h.items (by decide) contents?_type fun _ => List.cons_ne_nil _ _
  refine ⟨hsize, fun t ht => ?_⟩
  have hlen := hitems t ht
  simp only [encodeType, encodeValueTypes, encodeBytes, List.length_cons, List.length_append,
    List.length_replicate] at hlen
  omega

theorem functions : b.functions.size < 2 ^ 32 ∧
    ∀ f ∈ b.functions.toList, (bodyBytes f).length < 2 ^ 32 := by
  have hne (f : Function) : encodeFunction f ≠ [] :=
    List.append_ne_nil_of_left_ne_nil (encodeUnsigned_ne_nil _) _
  obtain ⟨hsize, hitems⟩ := h.items (by decide) contents?_code hne
  refine ⟨hsize, fun f hf => ?_⟩
  have hlen := hitems f hf
  simp only [encodeFunction, encodeBytes, List.length_append] at hlen
  simp only [bodyBytes, List.length_append]
  omega

theorem data : b.data.size < 2 ^ 32 ∧ ∀ d ∈ b.data.toList, d.bytes.length < 2 ^ 32 := by
  have hne (d : Data) : encodeData d ≠ [] := by
    simp [encodeData, encodeUnsigned_ne_nil]
  obtain ⟨hsize, hitems⟩ := h.items (by decide) contents?_data hne
  refine ⟨hsize, fun d hd => ?_⟩
  have hlen := hitems d hd
  simp only [encodeData, encodeBytes, List.length_append] at hlen
  omega

theorem custom : ∀ c ∈ b.custom.toList, c.name.toUTF8.data.toList.length < 2 ^ 32 := by
  intro c hc
  have hlen := h (0, customContents c) (List.mem_append_right _ (List.mem_map.mpr ⟨c, hc, rfl⟩))
  simp only [customContents, encodeBytes, List.length_append] at hlen
  omega

end Sized

/-! ## What the sections say -/

theorem saysAt_items {β : Type} {G : Grammar α} {e : β → List UInt8} {p : β → Prop}
    {v : β → Nat → α} {xs : Array β} (hlen : xs.size < 2 ^ 32)
    (h : ∀ x ∈ xs.toList, Determines G (e x) (p x) (v x)) (o : Nat) (as : List α) :
    SaysAt o (itemContents e xs) (fun o bs as => vector G o bs as ∧ as.length ≤ 100000) [] as ↔
      (xs.size ≤ 100000 ∧ ∀ x ∈ xs.toList, p x) ∧
        as = placed e v (o + (encodeCount xs.size).length) xs.toList := by
  by_cases hxs : xs.isEmpty
  · obtain rfl := Array.isEmpty_iff.mp hxs
    simp [SaysAt, itemContents, placed]
  · have hvector := determines_vector (by rwa [Array.length_toList]) h
    rw [Array.length_toList] at hvector
    have hsaid : SaysAt o (itemContents e xs)
        (fun o bs as => vector G o bs as ∧ as.length ≤ 100000) [] as ↔
        vector G o (encodeItems e xs) as ∧ as.length ≤ 100000 := by
      rw [itemContents, if_neg hxs]
      rfl
    rw [hsaid, encodeItems, hvector.whole]
    constructor
    · rintro ⟨⟨hp, rfl⟩, hle⟩
      rw [length_placed, Array.length_toList] at hle
      exact ⟨⟨hle, hp⟩, rfl⟩
    · rintro ⟨⟨hle, hp⟩, rfl⟩
      rw [length_placed, Array.length_toList]
      exact ⟨⟨hp, rfl⟩, hle⟩

theorem forall₂_hasName_iff {cs : List Custom} {names : List String}
    (h : ∀ c ∈ cs, c.name.toUTF8.data.toList.length < 2 ^ 32) :
    List.Forall₂ (fun c name => HasName (customContents c) name) cs names ↔
      names = cs.map Custom.name := by
  induction cs generalizing names with
  | nil => exact List.forall₂_nil_left_iff
  | cons c cs ih =>
    obtain ⟨hc, hcs⟩ := List.forall_mem_cons.mp h
    rw [List.forall₂_cons_left_iff, List.map_cons]
    constructor
    · rintro ⟨name, rest, hfirst, hrest, rfl⟩
      rw [(hasName_iff_eq hc).mp hfirst, (ih hcs).mp hrest]
    · rintro rfl
      exact ⟨_, _, (hasName_iff_eq hc).mpr rfl, (ih hcs).mpr rfl, rfl⟩

section

variable {rs : List RawSection} (hrs : rs.map (fun s => (s.id, s.contents)) = b.sections)

include hrs

theorem says_types (hb : b.Sized) {ts : List FunctionType} :
    Says rs 1 Format.types [] ts ↔
      (b.types.size ≤ 100000 ∧ ∀ t ∈ b.types.toList, t.parameters ≤ 1000 ∧ t.results ≤ 1) ∧
        ts = b.types.toList := by
  obtain ⟨o, ho⟩ := exists_saysAt hrs 1 (by decide)
  obtain ⟨hlen, hitems⟩ := hb.types
  have hitem : ∀ t ∈ b.types.toList, Determines signature (encodeType t)
      (t.parameters ≤ 1000 ∧ t.results ≤ 1) fun _ => t :=
    fun t ht => determines_signature (hitems t ht).1 (hitems t ht).2
  have hsaid := saysAt_items hlen hitem o ts
  rw [placed_const _ fun t => t, List.map_id'] at hsaid
  rw [ho, contents?_type]
  exact hsaid

theorem says_typeIndices (hb : b.Sized) {count : Nat} {indices : Option (List Nat)} :
    Says rs 3 (fun o bs a => ∃ is, typeIndices count o bs is ∧ a = some is) none indices ↔
      (b.functions.size ≤ 100000 ∧ ∀ f ∈ b.functions.toList, f.typeIndex.toNat < count) ∧
        indices = if b.functions.isEmpty then none
          else some (b.functions.toList.map fun f => f.typeIndex.toNat) := by
  obtain ⟨o, ho⟩ := exists_saysAt hrs 3 (by decide)
  rw [ho, contents?_function]
  by_cases hfs : b.functions.isEmpty
  · rw [if_pos hfs, itemContents, if_pos hfs, Array.isEmpty_iff.mp hfs]
    simp [SaysAt]
  · have hnumbers (is : List Nat) := saysAt_items hb.functions.1
      (fun f _ => determines_number f.typeIndex) o is
    simp only [placed_const _ fun f : Function => f.typeIndex.toNat, implies_true, and_true]
      at hnumbers
    rw [itemContents, if_neg hfs] at hnumbers ⊢
    rw [if_neg hfs]
    constructor
    · rintro ⟨is, ⟨hvector, hle, hlt⟩, rfl⟩
      obtain ⟨hsize, rfl⟩ := (hnumbers is).mp ⟨hvector, hle⟩
      exact ⟨⟨hsize, fun f hf => hlt _ (List.mem_map_of_mem hf)⟩, rfl⟩
    · rintro ⟨⟨hsize, hlt⟩, rfl⟩
      obtain ⟨hvector, hle⟩ := (hnumbers _).mpr ⟨hsize, rfl⟩
      refine ⟨_, ⟨hvector, hle, fun i hi => ?_⟩, rfl⟩
      obtain ⟨f, hf, rfl⟩ := List.mem_map.mp hi
      exact hlt f hf

theorem says_bodies (hb : b.Sized) : ∃ o, ∀ {as : List Body}, Says rs 10 Format.bodies [] as ↔
    (b.functions.size ≤ 100000 ∧ ∀ f ∈ b.functions.toList,
      (bodyBytes f).length ≤ 7654321 ∧ f.localCount.toNat ≤ 50000) ∧
      as = placed encodeFunction bodyAt o b.functions.toList := by
  obtain ⟨o, ho⟩ := exists_saysAt hrs 10 (by decide)
  obtain ⟨hlen, hitems⟩ := hb.functions
  refine ⟨o + (encodeCount b.functions.size).length, fun {as} => ?_⟩
  rw [ho, contents?_code]
  exact saysAt_items hlen (fun f hf => determines_body (hitems f hf)) o as

theorem says_segments (hb : b.Sized) {ss : List Memory.Segment} :
    Says rs 11 Format.segments [] ss ↔
      b.data.size ≤ 100000 ∧ ss = b.data.toList.map fun d => (d.address, d.bytes) := by
  obtain ⟨o, ho⟩ := exists_saysAt hrs 11 (by decide)
  obtain ⟨hlen, hitems⟩ := hb.data
  have hsaid := saysAt_items hlen (fun d hd => determines_segment (hitems d hd)) o ss
  rw [placed_const _ fun d : Data => (d.address, d.bytes)] at hsaid
  rw [ho, contents?_data]
  refine hsaid.trans (and_congr_left fun _ => ?_)
  simp

theorem says_memory {limits : Option (Nat × Nat)} :
    Says rs 5 Format.memory none limits ↔
      (∀ l ∈ b.memory, 1 ≤ l.maximum ∧ l.maximum ≤ 128 ∧ l.initial.toNat ≤ l.maximum) ∧
        limits = b.memory.map fun l => (l.initial.toNat, l.maximum) := by
  obtain ⟨o, ho⟩ := exists_saysAt hrs 5 (by decide)
  rw [ho, contents?_memory]
  cases b.memory with
  | none => simp [SaysAt]
  | some l =>
    simp only [Option.mem_some_iff, forall_eq', Option.map_some]
    constructor
    · exact fun h => eq_of_memory h rfl
    · rintro ⟨hl, rfl⟩
      exact memory_encodeLimits o hl

theorem says_start {start : Option Nat} :
    Says rs 8 (fun o bs a => ∃ i, number o bs i ∧ a = some i) none start ↔
      start = b.start.map BitVec.toNat := by
  obtain ⟨o, ho⟩ := exists_saysAt hrs 8 (by decide)
  rw [ho, contents?_start]
  cases b.start with
  | none => simp [SaysAt]
  | some i =>
    simp only [Option.map_some]
    constructor
    · rintro ⟨n, hn, rfl⟩
      rw [((determines_number i).whole.mp hn).2]
    · rintro rfl
      exact ⟨_, (determines_number i).whole.mpr ⟨trivial, rfl⟩, rfl⟩

theorem mem_numbers {s : RawSection} (hs : s ∈ rs) (h0 : s.id ≠ 0) : s.id ∈ numbers := by
  have hmem : (s.id, s.contents) ∈ b.sections := by
    rw [← hrs]
    exact List.mem_map.mpr ⟨s, hs, rfl⟩
  obtain hnumbered | hcustom := List.mem_append.mp hmem
  · obtain ⟨id, hid, he⟩ := List.mem_filterMap.mp hnumbered
    obtain ⟨cs, -, he⟩ := Option.map_eq_some_iff.mp he
    obtain rfl : id = s.id := congrArg Prod.fst he
    exact hid
  · obtain ⟨c, -, he⟩ := List.mem_map.mp hcustom
    exact absurd (congrArg Prod.fst he).symm h0

theorem ascending_written : Ascending 0 rs := by
  refine ⟨?_, fun s hs h0 => ?_⟩
  · have hids : rs.map RawSection.id = b.sections.map Prod.fst := by
      rw [← hrs, List.map_map]
      rfl
    have hnumbered : ((numbers.filterMap fun id => (b.contents? id).map (id, ·)).map
        Prod.fst).Sublist numbers := sublist_of_filterMap _ _
    have hcustom : (b.customSections.map Prod.fst).filter (· ≠ 0) = [] := by
      simp [customSections]
    rw [hids, sections, List.map_append, List.filter_append, hcustom, List.append_nil]
    have hpair : numbers.Pairwise (· < ·) := by decide
    exact hpair.sublist (List.filter_sublist.trans hnumbered)
  · have hall : ∀ id ∈ numbers, 0 < id ∧ id ≤ 12 := by
      rw [numbers]
      simp
    exact hall s.id (mem_numbers hrs hs h0)

theorem contents_custom :
    (rs.filter fun s => s.id = 0).map RawSection.contents =
      b.custom.toList.map customContents := by
  have hnumbered : (numbers.filterMap fun id => (b.contents? id).map (id, ·)).filter
      (fun s => s.1 = 0) = [] := by
    refine List.filter_eq_nil_iff.mpr fun s hs he => ?_
    obtain ⟨id, hid, hs⟩ := List.mem_filterMap.mp hs
    obtain ⟨cs, -, rfl⟩ := Option.map_eq_some_iff.mp hs
    obtain rfl : id = 0 := by simpa using he
    exact absurd hid (by decide)
  have hcustom : b.customSections.filter (fun s => s.1 = 0) = b.customSections :=
    List.filter_eq_self.mpr (by simp [customSections])
  have hall : (b.sections.filter fun s => s.1 = 0).map Prod.snd =
      b.custom.toList.map customContents := by
    rw [sections, List.filter_append, hnumbered, hcustom, List.nil_append, customSections,
      List.map_map]
    rfl
  rw [← hall, ← hrs, List.filter_map, List.map_map]
  rfl

theorem names_iff (hb : b.Sized) {names : List String} :
    List.Forall₂ (fun s name => HasName s.contents name) (rs.filter fun s => s.id = 0) names ↔
      names = b.custom.toList.map Custom.name := by
  rw [← List.forall₂_map_left_iff (f := RawSection.contents) (R := HasName), contents_custom hrs,
    List.forall₂_map_left_iff]
  exact forall₂_hasName_iff hb.custom

end

end Builder

end WasmI32
