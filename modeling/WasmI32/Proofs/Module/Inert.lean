import WasmI32.Proofs.Module.Framing

/-!
# Sections that say nothing

A custom section may stand anywhere and hold anything, and so may the contents of a section for
something the engine does not have. Whether such a section is there, or what it holds, has no
influence on whether a binary is accepted, nor on the module it stands for, the names of custom
sections apart. Only the places of the function bodies behind it change, as far as the bytes move.
-/

namespace WasmI32

open Format

/-! ## Bytes that move -/

/-- Some bytes of a binary give way to others: behind the first `place` bytes, `removed` of them to
`added`. -/
structure Splice where
  place : Nat
  removed : Nat
  added : Nat

namespace Splice

/-- Where a part of the binary starts then. What starts at `place` or before does not move. -/
def offset (s : Splice) (o : Nat) : Nat := if s.place < o then o - s.removed + s.added else o

def rawSection (s : Splice) (r : RawSection) : RawSection := { r with offset := s.offset r.offset }

def body (s : Splice) (b : Body) : Body := { b with offset := s.offset b.offset }

def function (s : Splice) (f : Function) : Function :=
  { f with bodyOffset := s.offset f.bodyOffset }

variable (s : Splice)

/-- What starts behind the bytes that give way keeps its distance from them. -/
theorem offset_behind {o k : Nat} (h : o = s.place + s.removed + 1 + k) :
    s.offset o = s.place + s.added + 1 + k := by
  rw [offset, if_pos (by omega)]
  omega

theorem offset_of_le {o : Nat} (h : o ≤ s.place) : s.offset o = o := if_neg (by omega)

end Splice

/-! ## Contents at another place -/

namespace Format

variable {α : Type} {G : Grammar α} {o o' : Nat} {bs : List UInt8}

/-- The values of a grammar at one place are those at another one, changed by `f`. -/
def Moves (G : Grammar α) (o o' : Nat) (f : α → α) : Prop :=
  ∀ {k : Nat} {bs : List UInt8} {a : α}, G (o + k) bs a → G (o' + k) bs (f a)

theorem Moves.items {f : α → α} (h : Moves G o o' f) {k : Nat} {as : List α}
    (hi : Items G (o + k) bs as) : Items G (o' + k) bs (as.map f) := by
  generalize hp : o + k = p at hi
  induction hi generalizing k with
  | nil => exact .nil
  | @cons p bs cs a as ha ht ih =>
    subst hp
    refine .cons (h ha) ?_
    rw [Nat.add_assoc]
    exact ih (Nat.add_assoc ..).symm

theorem Moves.vector {f : α → α} (h : Moves G o o' f) : Moves (vector G) o o' (List.map f) := by
  intro k bs as hv
  obtain ⟨cs, ds, rfl, hn, hi⟩ := hv
  rw [Nat.add_assoc] at hi
  refine ⟨cs, ds, rfl, ?_, ?_⟩
  · rw [List.length_map]
    exact hn
  · rw [Nat.add_assoc]
    exact h.items hi

/-- Items that do not depend on their place. -/
theorem vector_congr (hG : ∀ {o o' bs a}, G o bs a → G o' bs a) {as : List α}
    (h : vector G o bs as) (o' : Nat) : vector G o' bs as := by
  have hmoves : Moves G o o' id := hG
  have hmoved := hmoves.vector (k := 0) h
  rwa [List.map_id] at hmoved

theorem memory_congr {limits : Option (Nat × Nat)} (h : memory o bs limits) (o' : Nat) :
    memory o' bs limits := by
  cases h with
  | absent hc => exact .absent hc
  | unbounded hc hi hle => exact .unbounded hc hi hle
  | bounded hc hi hm hpos hmax hle => exact .bounded hc hi hm hpos hmax hle

theorem offset_body {b : Body} (h : body o bs b) : o ≤ b.offset ∧ b.offset ≤ o + bs.length := by
  obtain ⟨cs, ls, code, groups, rfl, -, -, -, -, rfl⟩ := h
  simp only [List.length_append]
  omega

theorem offset_items {as : List Body} (h : Items body o bs as) :
    ∀ b ∈ as, o ≤ b.offset ∧ b.offset ≤ o + bs.length := by
  induction h with
  | nil => exact nofun
  | @cons o bs cs a as ha ht ih =>
    rw [List.length_append]
    refine List.forall_mem_cons.mpr ⟨?_, fun b hb => ?_⟩
    · have hbounds := offset_body ha
      omega
    · have hbounds := ih b hb
      omega

/-- The code of each body starts inside the code section. -/
theorem offset_bodies {as : List Body} (h : bodies o bs as) {b : Body} (hb : b ∈ as) :
    o ≤ b.offset ∧ b.offset ≤ o + bs.length := by
  obtain ⟨⟨cs, ds, rfl, -, hi⟩, -⟩ := h
  have hbounds := offset_items hi b hb
  rw [List.length_append]
  omega

theorem moves_body (s : Splice) :
    Moves body (s.place + s.removed + 1) (s.place + s.added + 1) s.body := by
  intro k bs b h
  obtain ⟨cs, ls, code, groups, rfl, hsize, hmax, hgroups, hsum, rfl⟩ := h
  have hoffset : s.offset (s.place + s.removed + 1 + k + cs.length + ls.length) =
      s.place + s.added + 1 + k + cs.length + ls.length := by
    rw [s.offset_behind (k := k + cs.length + ls.length) (by omega)]
    omega
  refine ⟨cs, ls, code, groups, rfl, hsize, hmax, vector_congr id hgroups _, hsum, ?_⟩
  rw [Splice.body, hoffset]

/-- The sections behind the bytes that give way stay the same. -/
theorem Sections.splice (s : Splice) {k : Nat} {rs : List RawSection}
    (h : Sections (s.place + s.removed + k) bs rs) :
    Sections (s.place + s.added + k) bs (rs.map s.rawSection) := by
  generalize hp : s.place + s.removed + k = p at h
  induction h generalizing k with
  | nil => exact .nil
  | @cons p id size contents rest rs hsize _ ih =>
    have hoffset : s.offset (p + 1 + size.length) = s.place + s.added + k + 1 + size.length := by
      rw [s.offset_behind (k := k + size.length) (by omega)]
      omega
    have hrest := ih (k := k + 1 + size.length + contents.length) (by omega)
    rw [List.map_cons, Splice.rawSection, hoffset]
    refine .cons hsize ?_
    simp only [← Nat.add_assoc] at hrest
    exact hrest

end Format

/-! ## Drafts -/

/-- The second draft is what has been read after a splice, with any custom names. -/
structure Draft.Follows (s : Splice) (d e : Draft) : Prop where
  previous : e.previous = d.previous
  types : e.types = d.types
  typeIndices : e.typeIndices = d.typeIndices
  memory : e.memory = d.memory
  memoryDeclared : e.memoryDeclared = d.memoryDeclared
  start : e.start = d.start
  bodies : e.bodies = d.bodies.map s.body

namespace Decode

variable {s : Splice} {d d' d₁ e : Draft} {xs ys : List RawSection}

theorem Gains.follows {id : UInt8} {k : Nat} {bs : List UInt8}
    (h : Gains id d (s.place + s.removed + 1 + k) bs d') (he : d.Follows s e) :
    ∃ e', Gains id e (s.place + s.added + 1 + k) bs e' ∧ d'.Follows s e' := by
  obtain ⟨hprevious, htypes, hindices, hmemory, hdeclared, hstart, hbodies⟩ := he
  cases h with
  | types h =>
    exact ⟨_, .types ⟨vector_congr id h.1 _, h.2⟩,
      hprevious, rfl, hindices, hmemory, hdeclared, hstart, hbodies⟩
  | functions h =>
    rw [← htypes] at h
    exact ⟨_, .functions ⟨vector_congr id h.1 _, h.2⟩,
      hprevious, htypes, rfl, hmemory, hdeclared, hstart, hbodies⟩
  | noMemory h =>
    exact ⟨e, .noMemory (memory_congr h _),
      hprevious, htypes, hindices, hmemory, hdeclared, hstart, hbodies⟩
  | memory h =>
    exact ⟨_, .memory (memory_congr h _),
      hprevious, htypes, hindices, rfl, rfl, hstart, hbodies⟩
  | start h =>
    exact ⟨_, .start h, hprevious, htypes, hindices, hmemory, hdeclared, rfl, hbodies⟩
  | @code _ _ _ as h =>
    have hmoved : Format.bodies (s.place + s.added + 1 + k) bs (as.map s.body) :=
      ⟨Moves.vector (moves_body s) h.1, by rw [List.length_map]; exact h.2⟩
    exact ⟨_, .code hmoved,
      hprevious, htypes, hindices, hmemory, hdeclared, hstart, (List.map_toArray ..).symm⟩
  | data h hfits =>
    rw [← hmemory] at hfits
    exact ⟨_, .data ⟨vector_congr id h.1 _, h.2⟩ hfits,
      hprevious, htypes, hindices, by rw [hmemory], hdeclared, hstart, hbodies⟩
  | other h =>
    exact ⟨e, .other h, hprevious, htypes, hindices, hmemory, hdeclared, hstart, hbodies⟩

theorem Adds.follows {r : RawSection} (hr : s.place + s.removed < r.offset) (h : Adds d r d')
    (he : d.Follows s e) : ∃ e', Adds e (s.rawSection r) e' ∧ d'.Follows s e' := by
  obtain ⟨id, o, cs⟩ := r
  obtain ⟨k, rfl⟩ : ∃ k, o = s.place + s.removed + 1 + k := Nat.exists_eq_add_of_le hr
  rw [Splice.rawSection, s.offset_behind rfl]
  cases h with
  | custom h =>
    exact ⟨_, .custom h, he.previous, he.types, he.typeIndices, he.memory, he.memoryDeclared,
      he.start, he.bodies⟩
  | numbered h0 hmax hlt h =>
    have he' : Draft.Follows s { d with previous := id } { e with previous := id } :=
      ⟨rfl, he.types, he.typeIndices, he.memory, he.memoryDeclared, he.start, he.bodies⟩
    obtain ⟨e', hgains, hfollows⟩ := h.follows he'
    rw [← he.previous] at hlt
    exact ⟨e', .numbered h0 hmax hlt hgains, hfollows⟩

theorem AddsAll.follows {rs : List RawSection} (hr : ∀ r ∈ rs, s.place + s.removed < r.offset)
    (h : AddsAll d rs d') (he : d.Follows s e) :
    ∃ e', AddsAll e (rs.map s.rawSection) e' ∧ d'.Follows s e' := by
  induction h generalizing e with
  | nil => exact ⟨e, .nil, he⟩
  | cons ha _ ih =>
    obtain ⟨hfirst, hrest⟩ := List.forall_mem_cons.mp hr
    obtain ⟨e₁, hadds, he₁⟩ := ha.follows hfirst he
    obtain ⟨e', hall, he'⟩ := ih hrest he₁
    exact ⟨e', .cons hadds hall, he'⟩

/-- Wherever the sections `xs` can be read, `ys` can be read in their place. They say the same but
for the custom names, and neither says anything about bodies. -/
def Replaces (xs ys : List RawSection) : Prop :=
  ∀ d d₁ : Draft, AddsAll d xs d₁ →
    d₁.bodies = d.bodies ∧ ∃ names, AddsAll d ys { d₁ with customNames := names }

theorem replaces_custom (o : Nat) (cs : List UInt8) : Replaces [] [⟨0, o, cs⟩] := by
  intro d d₁ h
  cases h
  exact ⟨rfl, _, .cons (.custom ((hasName_iff o).mpr rfl)) .nil⟩

theorem custom_replaces (o : Nat) (cs : List UInt8) : Replaces [⟨0, o, cs⟩] [] := by
  intro d d₁ h
  cases h with
  | cons h ht =>
    cases ht
    cases h with
    | custom h => exact ⟨rfl, d.customNames, .nil⟩
    | numbered h0 _ _ _ => exact absurd rfl h0

/-- The numbers of the sections for which the engine has no use. -/
def unsupported : List UInt8 := [2, 4, 6, 7, 9, 12]

theorem replaces_unsupported {id : UInt8} (hid : id ∈ unsupported) (o o' : Nat)
    (cs cs' : List UInt8) : Replaces [⟨id, o, cs⟩] [⟨id, o', cs'⟩] := by
  have hother : id ∉ ([1, 3, 5, 8, 10, 11] : List UInt8) := by
    have hmem := hid
    simp only [unsupported, List.mem_cons, List.not_mem_nil, or_false] at hmem
    rcases hmem with rfl | rfl | rfl | rfl | rfl | rfl <;> decide
  intro d d₁ h
  cases h with
  | cons h ht =>
    cases ht
    cases h with
    | custom => exact absurd hid (by decide)
    | numbered h0 hmax hlt h =>
      cases h with
      | other => exact ⟨rfl, d.customNames, .cons (.numbered h0 hmax hlt (.other hother)) .nil⟩
      | _ => exact absurd hid (by decide)

/-- Bodies are those of the code section, and their code starts in it. -/
theorem AddsAll.codeSection (h : AddsAll {} xs d) {b : Body} (hb : b ∈ d.bodies) :
    ∃ r, xs.find? (fun r => r.id = 10) = some r ∧ r.offset ≤ b.offset ∧ b.offset ≤ r.stop := by
  have hcode := (collects_of_addsAll h).bodies
  unfold Says at hcode
  split at hcode
  case h_1 r hfind => exact ⟨r, hfind, offset_bodies hcode (Array.mem_toList_iff.mpr hb)⟩
  case h_2 hfind =>
    rw [hcode] at hb
    exact absurd hb (Array.not_mem_empty b)

/-- The names of the custom sections among `rs`. -/
def customNames (rs : List RawSection) : List String :=
  (rs.filter fun r => r.id = 0).map fun r => customName ⟨0, 0, r.contents⟩

theorem forall₂_hasName {rs : List RawSection} {names : List String} :
    List.Forall₂ (fun r name => HasName r.contents name) (rs.filter fun r => r.id = 0) names ↔
      names = customNames rs := by
  simp only [hasName_iff 0]
  rw [eq_comm, customNames, ← List.forall₂_eq_eq_eq, List.forall₂_map_left_iff]
  simp only [eq_comm]

theorem customNames_append (rs ts : List RawSection) :
    customNames (rs ++ ts) = customNames rs ++ customNames ts := by
  rw [customNames, List.filter_append, List.map_append]
  rfl

theorem customNames_splice (s : Splice) (rs : List RawSection) :
    customNames (rs.map s.rawSection) = customNames rs := by
  rw [customNames, List.filter_map, List.map_map]
  rfl

theorem AddsAll.customNames_eq (h : AddsAll {} xs d) : d.customNames.toList = customNames xs := by
  obtain ⟨names, hnames, heq⟩ := (collects_of_addsAll h).customNames
  rw [heq, forall₂_hasName.mp hnames]
  rfl

end Decode

/-! ## Modules -/

/-- The second module is the first one after a splice, with any custom names: only bodies move. -/
structure Module.Follows (s : Splice) (m m' : Module) : Prop where
  types : m'.types = m.types
  functions : m'.functions = m.functions.map s.function
  memory : m'.memory = m.memory
  memoryDeclared : m'.memoryDeclared = m.memoryDeclared
  start : m'.start = m.start

theorem Format.functionsOf_splice (s : Splice) {types : List FunctionType}
    {indices : Option (List Nat)} {bodies : List Body} {fs : List Function}
    (h : FunctionsOf types indices bodies fs) :
    FunctionsOf types indices (bodies.map s.body) (fs.map s.function) := by
  have hempty : bodies.map s.body = [] ↔ bodies = [] := List.map_eq_nil_iff
  obtain ⟨hlength, hjoins⟩ := h
  unfold FunctionsOf
  simp only [hempty, List.length_map]
  refine ⟨hlength, ?_⟩
  rw [List.zip_map_right, List.forall₂_map_left_iff, List.forall₂_map_right_iff]
  refine hjoins.imp ?_
  rintro ⟨index, b⟩ f ⟨t, ht, rfl⟩
  exact ⟨t, ht, rfl⟩

theorem Draft.Follows.finish {s : Splice} {d e : Draft} {m : Module} (h : d.Follows s e)
    (hm : d.finish = .ok m) :
    ∃ m', e.finish = .ok m' ∧ m.Follows s m' ∧ m'.customNames = e.customNames := by
  obtain ⟨hfs, hlt, htypes, hmemory, hdeclared, hstart, -⟩ := Draft.finish_eq_ok_iff.mp hm
  refine ⟨⟨m.types, m.functions.map s.function, m.memory, m.memoryDeclared, m.start,
    e.customNames⟩, ?_, ⟨rfl, rfl, rfl, rfl, rfl⟩, rfl⟩
  refine Draft.finish_eq_ok_iff.mpr ⟨?_, ?_, htypes.trans h.types.symm,
    hmemory.trans h.memory.symm, hdeclared.trans h.memoryDeclared.symm,
    hstart.trans h.start.symm, rfl⟩
  · rw [Draft.functions_eq_ok_iff, h.types, h.typeIndices, h.bodies, Array.toList_map,
      Array.toList_map]
    exact functionsOf_splice s (Draft.functions_eq_ok_iff.mp hfs)
  · rw [h.start, Array.size_map]
    exact hlt

namespace Module

variable {p q x y rest : List UInt8} {ps xs ys : List RawSection} {m m' : Module}

/-- Which functions have their code behind the sections `ps`: all of them, unless the code section
is among these. -/
theorem lt_bodyOffset_iff (hp : Sections 8 p ps) (h : decode (header ++ (p ++ rest)) = .ok m)
    {f : Function} (hf : f ∈ m.functions) :
    8 + p.length < f.bodyOffset ↔ ∀ r ∈ ps, r.id ≠ 10 := by
  obtain ⟨ss, d, hs, hall, hfinish⟩ := decode_append_eq_finish.mp h
  obtain ⟨rs, rfl, hrs⟩ := hp.of_append hs
  have hfs := Draft.functions_eq_ok_iff.mp (Draft.finish_eq_ok_iff.mp hfinish).1
  obtain ⟨index, b, hb, t, -, rfl⟩ := hfs.exists_joins (Array.mem_toList_iff.mpr hf)
  obtain ⟨r, hfind, hfirst, hlast⟩ := hall.codeSection (Array.mem_toList_iff.mp hb)
  simp only
  rw [List.find?_append] at hfind
  cases hps : ps.find? (fun r => r.id = 10) with
  | some c =>
    obtain rfl : c = r := by
      rw [hps] at hfind
      exact Option.some.inj hfind
    have hmem := List.mem_of_find?_eq_some hps
    have hid : c.id = 10 := by simpa using List.find?_some hps
    have hbounds := hp.bounds hmem
    constructor
    · intro hlt
      omega
    · exact fun hnone => absurd hid (hnone c hmem)
  | none =>
    rw [hps, Option.none_or] at hfind
    have hbounds := hrs.bounds (List.mem_of_find?_eq_some hfind)
    constructor
    · intro _
      simpa using hps
    · intro _
      omega

/-- Nothing moves that has been read in front of a splice. -/
theorem map_body_of_addsAll (s : Splice) (hp : Sections 8 p ps) (hs : s.place = 8 + p.length)
    {d : Draft} (h : Decode.AddsAll {} ps d) : d.bodies.map s.body = d.bodies := by
  refine (Array.map_congr_left fun b hb => ?_).trans (Array.map_id _)
  obtain ⟨r, hfind, -, hlast⟩ := h.codeSection hb
  have hbounds := hp.bounds (List.mem_of_find?_eq_some hfind)
  rw [Splice.body, s.offset_of_le (by omega), id]

/-- Sections that say the same can be exchanged in any binary. -/
theorem decode_splice (hp : Sections 8 p ps) (hx : Sections (8 + p.length) x xs)
    (hy : Sections (8 + p.length) y ys) (hr : Decode.Replaces xs ys)
    (h : decode (header ++ (p ++ (x ++ q))) = .ok m) :
    ∃ m' qs, decode (header ++ (p ++ (y ++ q))) = .ok m' ∧
      m.Follows ⟨8 + p.length, x.length, y.length⟩ m' ∧
      m.customNames.toList =
        Decode.customNames ps ++ (Decode.customNames xs ++ Decode.customNames qs) ∧
      m'.customNames.toList =
        Decode.customNames ps ++ (Decode.customNames ys ++ Decode.customNames qs) := by
  let s : Splice := ⟨8 + p.length, x.length, y.length⟩
  obtain ⟨ss, d, hs, hall, hfinish⟩ := decode_append_eq_finish.mp h
  obtain ⟨rs, rfl, hrs⟩ := hp.of_append hs
  obtain ⟨qs, rfl, hqs⟩ := hx.of_append hrs
  have hnames := hall.customNames_eq
  obtain ⟨d₀, hps, hrest⟩ := Decode.addsAll_append.mp hall
  obtain ⟨d₁, hxs, hback⟩ := Decode.addsAll_append.mp hrest
  obtain ⟨hbodies, names, hys⟩ := hr d₀ d₁ hxs
  -- what is read in front of `q` differs in the custom names only
  have hfollows : d₁.Follows s { d₁ with customNames := names } := by
    refine ⟨rfl, rfl, rfl, rfl, rfl, rfl, ?_⟩
    simp only
    rw [hbodies, map_body_of_addsAll s hp rfl hps]
  have hbehind : ∀ r ∈ qs, s.place + s.removed < r.offset := fun r hmem => (hqs.bounds hmem).1
  obtain ⟨e, hback', he⟩ := hback.follows hbehind hfollows
  have hall' : Decode.AddsAll {} (ps ++ (ys ++ qs.map s.rawSection)) e :=
    Decode.addsAll_append.mpr ⟨d₀, hps, Decode.addsAll_append.mpr ⟨_, hys, hback'⟩⟩
  have hsections : Sections 8 (p ++ (y ++ q)) (ps ++ (ys ++ qs.map s.rawSection)) :=
    hp.append (hy.append (Sections.splice s (k := 0) hqs))
  obtain ⟨m', hm', hmfollows, hmnames⟩ := he.finish hfinish
  have hnames' := hall'.customNames_eq
  simp only [Decode.customNames_append, Decode.customNames_splice] at hnames hnames'
  refine ⟨m', qs, decode_append_eq_finish.mpr ⟨_, e, hsections, hall', hm'⟩, hmfollows, ?_, ?_⟩
  · rw [(Draft.finish_eq_ok_iff.mp hfinish).2.2.2.2.2.2, hnames]
  · rw [hmnames, hnames']

/-- Two binaries, one of which is the other after a splice, are both accepted or both refused, and
stand for the same module but for the custom names and the places of bodies. -/
structure Interchangeable (s : Splice) (bytes bytes' : List UInt8) : Prop where
  accepted : (∃ m, decode bytes = .ok m) ↔ ∃ m', decode bytes' = .ok m'
  follows : ∀ {m m' : Module}, decode bytes = .ok m → decode bytes' = .ok m' → m.Follows s m'

theorem interchangeable_of_replaces (hp : Sections 8 p ps) (hx : Sections (8 + p.length) x xs)
    (hy : Sections (8 + p.length) y ys) (hr : Decode.Replaces xs ys)
    (hr' : Decode.Replaces ys xs) (q : List UInt8) :
    Interchangeable ⟨8 + p.length, x.length, y.length⟩ (header ++ (p ++ (x ++ q)))
      (header ++ (p ++ (y ++ q))) where
  accepted := by
    constructor
    · rintro ⟨m, hm⟩
      obtain ⟨m', -, hm', -⟩ := decode_splice hp hx hy hr hm
      exact ⟨m', hm'⟩
    · rintro ⟨m', hm'⟩
      obtain ⟨m, -, hm, -⟩ := decode_splice hp hy hx hr' hm'
      exact ⟨m, hm⟩
  follows := by
    intro m m' hm hm'
    obtain ⟨m₁, -, hm₁, hfollows, -⟩ := decode_splice hp hx hy hr hm
    rw [hm₁] at hm'
    obtain rfl := Except.ok.inj hm'
    exact hfollows

/-- Custom sections, and the contents of sections that the engine has no use for, make no
difference to a binary: it is accepted with them if it is without, and stands for the same module.
Only code behind them moves, and a custom section adds its name, where it stands, to the names. -/
theorem inert_sections (hp : Sections 8 p ps) (q : List UInt8) :
    (∀ rest m, decode (header ++ (p ++ rest)) = .ok m → ∀ f ∈ m.functions,
      (8 + p.length < f.bodyOffset ↔ ∀ r ∈ ps, r.id ≠ 10)) ∧
    (∀ size contents, number 0 size contents.length →
      let inserted := header ++ (p ++ (framed 0 size contents ++ q))
      Interchangeable ⟨8 + p.length, 0, (framed 0 size contents).length⟩ (header ++ (p ++ q))
        inserted ∧
      ∀ m m', decode (header ++ (p ++ q)) = .ok m → decode inserted = .ok m' →
        ∃ front name back, m.customNames.toList = front ++ back ∧
          m'.customNames.toList = front ++ name :: back ∧ HasName contents name ∧
          List.Forall₂ (fun r name => HasName r.contents name) (ps.filter fun r => r.id = 0)
            front) ∧
    ∀ id ∈ Decode.unsupported, ∀ size contents size' contents',
      number 0 size contents.length → number 0 size' contents'.length →
      let old := header ++ (p ++ (framed id size contents ++ q))
      let new := header ++ (p ++ (framed id size' contents' ++ q))
      Interchangeable ⟨8 + p.length, (framed id size contents).length,
        (framed id size' contents').length⟩ old new ∧
      ∀ m m', decode old = .ok m → decode new = .ok m' → m'.customNames = m.customNames := by
  refine ⟨fun rest m h f hf => lt_bodyOffset_iff hp h hf, ?_, ?_⟩
  · intro size contents hsize
    have hnone : Sections (8 + p.length) [] [] := .nil
    have hcustom := Sections.single 0 hsize (8 + p.length)
    have hinsert := Decode.replaces_custom (8 + p.length + 1 + size.length) contents
    have hremove := Decode.custom_replaces (8 + p.length + 1 + size.length) contents
    refine ⟨interchangeable_of_replaces hp hnone hcustom hinsert hremove q, fun m m' hm hm' => ?_⟩
    obtain ⟨m₁, qs, hm₁, -, hnames, hnames'⟩ := decode_splice hp hnone hcustom hinsert hm
    rw [hm₁] at hm'
    obtain rfl := Except.ok.inj hm'
    exact ⟨Decode.customNames ps, _, Decode.customNames qs, hnames, hnames',
      (Decode.hasName_iff 0).mpr rfl, Decode.forall₂_hasName.mpr rfl⟩
  · intro id hid size contents size' contents' hsize hsize'
    have hold := Sections.single id hsize (8 + p.length)
    have hnew := Sections.single id hsize' (8 + p.length)
    refine ⟨interchangeable_of_replaces hp hold hnew (Decode.replaces_unsupported hid _ _ _ _)
      (Decode.replaces_unsupported hid _ _ _ _) q, fun m m' hm hm' => ?_⟩
    obtain ⟨m₁, qs, hm₁, -, hnames, hnames'⟩ :=
      decode_splice hp hold hnew (Decode.replaces_unsupported hid _ _ _ _) hm
    rw [hm₁] at hm'
    obtain rfl := Except.ok.inj hm'
    have h0 : id ≠ 0 := by
      rintro rfl
      exact absurd hid (by decide)
    have hsilent (o : Nat) (cs : List UInt8) : Decode.customNames [⟨id, o, cs⟩] = [] := by
      simp [Decode.customNames, h0]
    rw [← Array.toList_inj, hnames, hnames', hsilent, hsilent]

/-- The binary of a module with one function, which does nothing, and with more bytes behind its
type section. -/
def idleWith (x : List UInt8) : List UInt8 :=
  header ++ (framed 1 [0x04] [0x01, 0x60, 0x00, 0x00] ++
    (x ++ (framed 3 [0x02] [0x01, 0x00] ++ framed 10 [0x04] [0x01, 0x02, 0x00, 0x0b])))

def idleAt (offset : Nat) (names : Array String) : Module where
  types := #[⟨0, 0⟩]
  functions := #[⟨0, 0, 0, 0, #[0x0b], offset⟩]
  customNames := names

/-- A custom section whose name is cut short and whose size is written with more bytes than it
needs, and imports that no reader could take. -/
theorem inert_sections_idle :
    Sections 8 (framed 1 [0x04] [0x01, 0x60, 0x00, 0x00]) [⟨1, 10, [0x01, 0x60, 0x00, 0x00]⟩] ∧
      number 0 [0x82, 0x00] 2 ∧ number 0 [0x01] 1 ∧ number 0 [0x03] 3 ∧
      decode (idleWith []) = .ok (idleAt 23 #[]) ∧
      decode (idleWith (framed 0 [0x82, 0x00] [0x05, 0x61])) = .ok (idleAt 28 #[""]) ∧
      (idleAt 23 #[]).Follows ⟨14, 0, 5⟩ (idleAt 28 #[""]) ∧
      (∃ front name back, (idleAt 23 #[]).customNames.toList = front ++ back ∧
        (idleAt 28 #[""]).customNames.toList = front ++ name :: back ∧
        HasName [0x05, 0x61] name ∧ front.length = 0) ∧
      decode (idleWith (framed 2 [0x01] [0xff])) = .ok (idleAt 26 #[]) ∧
      decode (idleWith (framed 2 [0x03] [0xff, 0x00, 0xff])) = .ok (idleAt 28 #[]) ∧
      (idleAt 26 #[]).Follows ⟨14, 3, 5⟩ (idleAt 28 #[]) := by
  have h1 : number 0 [0x01] 1 := ⟨1, by decide, rfl⟩
  have h2 : number 0 [0x82, 0x00] 2 := ⟨2, by decide, rfl⟩
  have h3 : number 0 [0x03] 3 := ⟨3, by decide, rfl⟩
  have h4 : number 0 [0x04] 4 := ⟨4, by decide, rfl⟩
  have hp : Sections 8 (framed 1 [0x04] [0x01, 0x60, 0x00, 0x00]) _ := Sections.single 1 h4 8
  have hplain : decode (idleWith []) = .ok (idleAt 23 #[]) := by decide +kernel
  have hnamed : decode (idleWith (framed 0 [0x82, 0x00] [0x05, 0x61])) =
      .ok (idleAt 28 #[""]) := by decide +kernel
  have hold : decode (idleWith (framed 2 [0x01] [0xff])) = .ok (idleAt 26 #[]) := by
    decide +kernel
  have hnew : decode (idleWith (framed 2 [0x03] [0xff, 0x00, 0xff])) = .ok (idleAt 28 #[]) := by
    decide +kernel
  obtain ⟨-, hinsert, hreplace⟩ := inert_sections hp
    (framed 3 [0x02] [0x01, 0x00] ++ framed 10 [0x04] [0x01, 0x02, 0x00, 0x0b])
  obtain ⟨hinserted, hnames⟩ := hinsert [0x82, 0x00] [0x05, 0x61] h2
  obtain ⟨hreplaced, -⟩ := hreplace 2 (by decide) [0x01] [0xff] [0x03] [0xff, 0x00, 0xff] h1 h3
  obtain ⟨front, name, back, hfront, hback, hname, hforall⟩ := hnames _ _ hplain hnamed
  exact ⟨hp, h2, h1, h3, hplain, hnamed, hinserted.follows hplain hnamed,
    ⟨front, name, back, hfront, hback, hname, hforall.length_eq.symm⟩, hold, hnew,
    hreplaced.follows hold hnew⟩

end Module

end WasmI32
