import WasmI32.Proofs.Module.Written

/-!
# Reading back what was written

A binary that a builder has written is accepted exactly if the builder keeps to the limits of the
decoder, and the module is then the one that the builder holds. Where the code of a function stands
in the binary is left open.
-/

namespace WasmI32

open Format

namespace Builder

variable {b : Builder} {m : Module}

/-- The pages that the memory starts with. -/
def pages (b : Builder) : Nat := (b.memory.map fun l => l.initial.toNat).getD 0

/-- The pages that the memory may have. -/
def maxPages (b : Builder) : Nat := (b.memory.map Limits.maximum).getD 0

/-- The contents keep to all limits of the decoder. -/
structure Within (b : Builder) : Prop where
  types : b.types.size ≤ 100000 ∧ ∀ t ∈ b.types.toList, t.parameters ≤ 1000 ∧ t.results ≤ 1
  functions : b.functions.size ≤ 100000 ∧ ∀ f ∈ b.functions.toList,
    f.typeIndex.toNat < b.types.size ∧ f.localCount.toNat ≤ 50000 ∧
      (encodeLocals f.localCount ++ f.code).length ≤ 7654321
  memory : ∀ l ∈ b.memory, 1 ≤ l.maximum ∧ l.maximum ≤ 128 ∧ l.initial.toNat ≤ l.maximum
  start : ∀ i ∈ b.start, i.toNat < b.functions.size
  data : b.data.size ≤ 100000 ∧ ∀ d ∈ b.data.toList,
    d.address.toNat + d.bytes.length ≤ b.pages * 65536

/-- A function of a module is the one that was to be written. -/
def Matches (types : Array FunctionType) (f : Function) (g : WasmI32.Function) : Prop :=
  ∃ t, types[f.typeIndex.toNat]? = some t ∧ g.typeIndex = f.typeIndex.toNat ∧
    g.parameterCount = t.parameters ∧ g.resultCount = t.results ∧
    g.localCount = f.localCount.toNat ∧ g.body = f.code.toArray

/-- The data segments, as memory takes them. -/
def segments (b : Builder) : List Memory.Segment := b.data.toList.map fun d => (d.address, d.bytes)

/-- A module holds what the builder holds. -/
structure Reflects (b : Builder) (m : Module) : Prop where
  types : m.types = b.types
  functions : List.Forall₂ (Matches b.types) b.functions.toList m.functions.toList
  memoryDeclared : m.memoryDeclared = b.memory.isSome
  memory : Memory.Image b.pages b.maxPages b.segments m.memory
  start : m.start = b.start.map BitVec.toNat
  customNames : m.customNames.toList = b.custom.toList.map Custom.name

/-! ## Sections -/

theorem encodeSections_cons (s : UInt8 × List UInt8) (ss : List (UInt8 × List UInt8)) :
    encodeSections (s :: ss) =
      s.1 :: (encodeCount s.2.length ++ (s.2 ++ encodeSections ss)) := by
  rw [encodeSections, List.flatMap_cons, encodeSection, encodeBytes, List.cons_append,
    List.append_assoc]
  rfl

/-- A row of sections falls apart into the sections that were written. -/
theorem eq_of_sections {ss : List (UInt8 × List UInt8)} (hss : ∀ s ∈ ss, s.2.length < 2 ^ 32)
    {o : Nat} {rs : List RawSection} (h : Sections o (encodeSections ss) rs) :
    rs.map (fun s => (s.id, s.contents)) = ss := by
  induction ss generalizing o rs with
  | nil =>
    cases h
    rfl
  | cons s ss ih =>
    obtain ⟨hs, hrest⟩ := List.forall_mem_cons.mp hss
    rw [encodeSections_cons] at h
    generalize hbytes : s.1 :: (encodeCount s.2.length ++ (s.2 ++ encodeSections ss)) = bytes at h
    cases h with
    | nil => cases hbytes
    | cons hsize hsections =>
      obtain ⟨hid, htail⟩ := List.cons.inj hbytes
      obtain ⟨rfl, rfl, rfl⟩ := eq_of_count hs htail.symm hsize
      rw [List.map_cons, ih hrest hsections, ← hid]

theorem exists_sections {ss : List (UInt8 × List UInt8)} (hss : ∀ s ∈ ss, s.2.length < 2 ^ 32)
    (o : Nat) : ∃ rs, Sections o (encodeSections ss) rs := by
  induction ss generalizing o with
  | nil => exact ⟨[], .nil⟩
  | cons s ss ih =>
    obtain ⟨hs, hrest⟩ := List.forall_mem_cons.mp hss
    obtain ⟨rs, hrs⟩ := ih hrest (o + 1 + (encodeCount s.2.length).length + s.2.length)
    rw [encodeSections_cons]
    exact ⟨_, .cons ((determines_count hs).whole.mpr ⟨trivial, rfl⟩) hrs⟩

/-! ## Functions -/

theorem zip_placed {α β γ : Type} (e : α → List UInt8) (u : α → β) (v : α → Nat → γ) (o : Nat)
    (xs : List α) :
    (xs.map u).zip (placed e v o xs) = placed e (fun x o => (u x, v x o)) o xs := by
  induction xs generalizing o with
  | nil => rfl
  | cons x xs ih => rw [placed, placed, List.map_cons, List.zip_cons_cons, ih]

theorem forall₂_of_placed {α β γ : Type} {e : α → List UInt8} {v : α → Nat → β}
    {R : β → γ → Prop} {S : α → γ → Prop} {o : Nat} {xs : List α} {ys : List γ}
    (hxs : List.Forall₂ R (placed e v o xs) ys) (h : ∀ x o y, R (v x o) y → S x y) :
    List.Forall₂ S xs ys := by
  induction xs generalizing o ys with
  | nil =>
    obtain rfl := List.forall₂_nil_left_iff.mp hxs
    exact .nil
  | cons x xs ih =>
    obtain ⟨y, rest, hy, hrest, rfl⟩ := List.forall₂_cons_left_iff.mp hxs
    exact .cons (h x o y hy) (ih hrest)

theorem exists_forall₂_placed {α β γ : Type} {e : α → List UInt8} {v : α → Nat → β}
    {R : β → γ → Prop} {xs : List α} (h : ∀ x ∈ xs, ∀ o, ∃ y, R (v x o) y) (o : Nat) :
    ∃ ys, List.Forall₂ R (placed e v o xs) ys := by
  induction xs generalizing o with
  | nil => exact ⟨[], .nil⟩
  | cons x xs ih =>
    obtain ⟨hx, hxs⟩ := List.forall_mem_cons.mp h
    obtain ⟨y, hy⟩ := hx o
    obtain ⟨ys, hys⟩ := ih hxs (o + (e x).length)
    exact ⟨y :: ys, .cons hy hys⟩

/-- The functions that signatures and bodies make where both were written. -/
theorem functionsOf_iff {types : List FunctionType} {fs : Array Function} {o : Nat}
    {gs : List WasmI32.Function} :
    FunctionsOf types
      (if fs.isEmpty then none else some (fs.toList.map fun f => f.typeIndex.toNat))
      (placed encodeFunction bodyAt o fs.toList) gs ↔
      List.Forall₂ (fun x g => Joins types x.1 x.2 g)
        (placed encodeFunction (fun f o => (f.typeIndex.toNat, bodyAt f o)) o fs.toList) gs := by
  have hsignatures : (if fs.isEmpty then none
      else some (fs.toList.map fun f => f.typeIndex.toNat)).getD
      (if placed encodeFunction bodyAt o fs.toList = [] then [] else List.range types.length) =
      fs.toList.map fun f => f.typeIndex.toNat := by
    by_cases h : fs.isEmpty
    · obtain rfl := Array.isEmpty_iff.mp h
      rfl
    · rw [if_neg h]
      rfl
  unfold FunctionsOf
  simp only
  rw [hsignatures, zip_placed, length_placed, List.length_map]
  exact and_iff_right rfl

theorem matches_of_joins {types : Array FunctionType} {f : Function} {o : Nat}
    {g : WasmI32.Function} (h : Joins types.toList f.typeIndex.toNat (bodyAt f o) g) :
    Matches types f g := by
  obtain ⟨t, ht, rfl⟩ := h
  rw [Array.getElem?_toList] at ht
  exact ⟨t, ht, rfl, rfl, rfl, rfl, rfl⟩

theorem exists_joins {types : Array FunctionType} {f : Function}
    (h : f.typeIndex.toNat < types.size) (o : Nat) :
    ∃ g, Joins types.toList f.typeIndex.toNat (bodyAt f o) g := by
  refine ⟨_, types[f.typeIndex.toNat], ?_, rfl⟩
  rw [Array.getElem?_toList, Array.getElem?_eq_getElem h]

/-! ## Modules -/

theorem pageLimits_eq (b : Builder) :
    pageLimits (b.memory.map fun l => (l.initial.toNat, l.maximum)) = (b.pages, b.maxPages) := by
  unfold pageLimits pages maxPages
  cases b.memory with
  | none => rfl
  | some l => rfl

section

variable {rs : List RawSection} (hrs : rs.map (fun s => (s.id, s.contents)) = b.sections)
  (hb : b.Sized)

include hrs hb

theorem reflects_of_describes (h : Describes rs m) : b.Within ∧ b.Reflects m := by
  obtain ⟨htypes, hmtypes⟩ := (says_types hrs hb).mp h.types
  have hm : m.types = b.types := Array.toList_inj.mp hmtypes
  obtain ⟨indices, bodies, hindices, hbodies, hfs⟩ := h.functions
  obtain ⟨⟨hsize, hindex⟩, rfl⟩ := (says_typeIndices hrs hb).mp hindices
  obtain ⟨o, ho⟩ := says_bodies hrs hb
  obtain ⟨⟨-, hbody⟩, rfl⟩ := ho.mp hbodies
  obtain ⟨limits, segments, hlimits, hsegments, hdeclared, hfits, himage⟩ := h.memory
  obtain ⟨hmemory, rfl⟩ := (says_memory hrs).mp hlimits
  obtain ⟨hdata, rfl⟩ := (says_segments hrs hb).mp hsegments
  obtain ⟨hstart, hlt⟩ := h.start
  have hmstart := (says_start hrs).mp hstart
  have hnames := (names_iff hrs hb).mp h.customNames
  rw [pageLimits_eq] at hfits himage
  rw [hm] at hindex hfs
  have hfunctions : List.Forall₂ (Matches b.types) b.functions.toList m.functions.toList :=
    forall₂_of_placed (functionsOf_iff.mp hfs) fun f o g h => matches_of_joins h
  have hcount : b.functions.size = m.functions.size := by
    simpa using hfunctions.length_eq
  refine ⟨⟨htypes, ⟨hsize, ?_⟩, hmemory, ?_, hdata, ?_⟩,
    ⟨hm, hfunctions, ?_, himage, hmstart, hnames⟩⟩
  · intro f hf
    obtain ⟨hlength, hlocals⟩ := hbody f hf
    exact ⟨hindex f hf, hlocals, hlength⟩
  · intro i hi
    rw [hcount]
    refine hlt i.toNat ?_
    rw [hmstart]
    exact Option.mem_map_of_mem _ hi
  · intro d hd
    exact hfits (d.address, d.bytes) (List.mem_map_of_mem hd)
  · rw [hdeclared, Option.isSome_map]

theorem exists_describes (h : b.Within) : ∃ m, Describes rs m := by
  obtain ⟨o, ho⟩ := says_bodies hrs hb
  obtain ⟨gs, hgs⟩ : ∃ gs, List.Forall₂ (fun x g => Joins b.types.toList x.1 x.2 g)
      (placed encodeFunction (fun f o => (f.typeIndex.toNat, bodyAt f o)) o b.functions.toList)
      gs :=
    exists_forall₂_placed (fun f hf o => exists_joins (h.functions.2 f hf).1 o) o
  have hcount : gs.length = b.functions.size := by
    rw [← hgs.length_eq, length_placed, Array.length_toList]
  have hfits : ∀ s ∈ b.segments, Memory.Segment.Fits (b.pages * 65536) s := by
    intro s hs
    obtain ⟨d, hd, rfl⟩ := List.mem_map.mp hs
    exact h.data.2 d hd
  refine ⟨{
    types := b.types
    functions := gs.toArray
    memory := (Memory.zeroed b.pages b.maxPages).putAll b.segments
    memoryDeclared := b.memory.isSome
    start := b.start.map BitVec.toNat
    customNames := (b.custom.toList.map Custom.name).toArray }, ?_⟩
  refine ⟨ascending_written hrs, (says_types hrs hb).mpr ⟨h.types, rfl⟩,
    ⟨_, _, (says_typeIndices hrs hb).mpr ⟨⟨h.functions.1, ?_⟩, rfl⟩,
      ho.mpr ⟨⟨h.functions.1, ?_⟩, rfl⟩, functionsOf_iff.mpr hgs⟩,
    ⟨_, _, (says_memory hrs).mpr ⟨h.memory, rfl⟩, (says_segments hrs hb).mpr ⟨h.data.1, rfl⟩,
      ?_, ?_, ?_⟩,
    ⟨(says_start hrs).mpr rfl, ?_⟩, (names_iff hrs hb).mpr rfl⟩
  · exact fun f hf => (h.functions.2 f hf).1
  · exact fun f hf => ⟨(h.functions.2 f hf).2.2, (h.functions.2 f hf).2.1⟩
  · rw [Option.isSome_map]
  · rw [pageLimits_eq]
    exact hfits
  · rw [pageLimits_eq]
    exact Memory.image_putAll _ hfits
  · intro i hi
    obtain ⟨w, hw, rfl⟩ := Option.mem_map.mp hi
    rw [List.size_toArray, hcount]
    exact h.start w hw

end

/-- A written binary is accepted exactly if the builder keeps to the limits, and then stands for
what the builder holds. -/
theorem decode_encode (hb : b.Sized) :
    ((∃ m, Module.decode b.encode = .ok m) ↔ b.Within) ∧
      ∀ m, Module.decode b.encode = .ok m → b.Reflects m := by
  have hread (m : Module) (h : Module.decode b.encode = .ok m) : b.Within ∧ b.Reflects m := by
    rw [encode_eq] at h
    obtain ⟨rs, hsections, hdescribes⟩ := Module.decode_append.mp h
    exact reflects_of_describes (eq_of_sections hb hsections) hb hdescribes
  refine ⟨⟨fun ⟨m, hm⟩ => (hread m hm).1, fun hwithin => ?_⟩, fun m hm => (hread m hm).2⟩
  obtain ⟨rs, hsections⟩ := exists_sections hb 8
  obtain ⟨m, hm⟩ := exists_describes (eq_of_sections hb hsections) hb hwithin
  refine ⟨m, ?_⟩
  rw [encode_eq]
  exact Module.decode_append.mpr ⟨rs, hsections, hm⟩

end Builder

end WasmI32
