import WasmI32.Proofs.Module.Sections

/-!
# What the sections of a module say

Sections that are read one after the other come to a draft that each of them has added to. The same
draft is told here section by section: what the one with a given number says, or what stands for it
where there is none.
-/

namespace WasmI32.Format

variable {α : Type} {id previous : UInt8} {s : RawSection} {ss : List RawSection} {G : Grammar α}
  {absent a : α}

theorem says_cons_of_ne (h : s.id ≠ id) :
    Says (s :: ss) id G absent a ↔ Says ss id G absent a := by
  unfold Says
  rw [List.find?_cons_of_neg (by simpa using h)]

theorem says_cons_of_eq (h : s.id = id) :
    Says (s :: ss) id G absent a ↔ G s.offset s.contents a := by
  unfold Says
  rw [List.find?_cons_of_pos (by simpa using h)]

theorem says_singleton_of_ne (h : s.id ≠ id) : Says [s] id G absent a ↔ a = absent :=
  says_cons_of_ne h

theorem says_singleton_of_eq (h : s.id = id) :
    Says [s] id G absent a ↔ G s.offset s.contents a :=
  says_cons_of_eq h

theorem says_of_forall_ne (h : ∀ s ∈ ss, s.id ≠ id) : Says ss id G absent a ↔ a = absent := by
  have hnone : ss.find? (fun s => s.id = id) = none :=
    List.find?_eq_none.mpr fun s hs he => h s hs (by simpa using he)
  unfold Says
  rw [hnone]

/-- Numbers that are left behind do not come again. -/
theorem says_of_ascending (h : Ascending previous ss) (hid : id ≤ previous) (h0 : id ≠ 0) :
    Says ss id G absent a ↔ a = absent := by
  refine says_of_forall_ne ?_
  rintro s hs rfl
  exact absurd hid (UInt8.not_le.mpr (h.2 s hs h0).1)

theorem says_of_custom (h : ∀ s ∈ ss, s.id = 0) (h0 : id ≠ 0) :
    Says ss id G absent a ↔ a = absent := by
  refine says_of_forall_ne ?_
  rintro s hs rfl
  exact h0 (h s hs)

theorem ascending_cons_of_custom (h : s.id = 0) :
    Ascending previous (s :: ss) ↔ Ascending previous ss := by
  unfold Ascending
  rw [List.map_cons, List.filter_cons_of_neg (by simp [h]), List.forall_mem_cons]
  exact and_congr_right fun _ => and_iff_right fun h0 => absurd h h0

theorem ascending_cons (h : s.id ≠ 0) :
    Ascending previous (s :: ss) ↔ (previous < s.id ∧ s.id ≤ 12) ∧ Ascending s.id ss := by
  unfold Ascending
  rw [List.map_cons, List.filter_cons_of_pos (by simp [h]), List.forall_mem_cons,
    List.pairwise_cons]
  constructor
  · rintro ⟨⟨hlt, hpair⟩, hs, hss⟩
    refine ⟨hs h, hpair, fun t ht h0 => ⟨?_, (hss t ht h0).2⟩⟩
    exact hlt t.id (by simp [h0]; exact ⟨t, ht, rfl⟩)
  · rintro ⟨hs, hpair, hss⟩
    refine ⟨⟨?_, hpair⟩, fun _ => hs, fun t ht h0 => ⟨?_, (hss t ht h0).2⟩⟩
    · intro x hx
      simp only [List.mem_filter, List.mem_map, decide_eq_true_eq] at hx
      obtain ⟨⟨t, ht, rfl⟩, h0⟩ := hx
      exact (hss t ht h0).1
    · exact UInt8.lt_trans hs.1 (hss t ht h0).1

/-- What the first section and the other ones say is what all of them say. -/
theorem says_cons {b : α} (h₁ : Says [s] id G absent b) (h₂ : Says ss id G b a)
    (hss : s.id = id → Ascending id ss) (h0 : id ≠ 0) : Says (s :: ss) id G absent a := by
  by_cases hid : s.id = id
  · rw [says_singleton_of_eq hid] at h₁
    obtain rfl := (says_of_ascending (hss hid) UInt8.le_rfl h0).mp h₂
    exact (says_cons_of_eq hid).mpr h₁
  · obtain rfl := (says_singleton_of_ne hid).mp h₁
    exact (says_cons_of_ne hid).mpr h₂

theorem says_uncons (h : Says (s :: ss) id G absent a) (hss : s.id = id → Ascending id ss)
    (h0 : id ≠ 0) :
    Says [s] id G absent (if s.id = id then a else absent) ∧
      Says ss id G (if s.id = id then a else absent) a := by
  by_cases hid : s.id = id
  · rw [if_pos hid]
    exact ⟨(says_singleton_of_eq hid).mpr ((says_cons_of_eq hid).mp h),
      (says_of_ascending (hss hid) UInt8.le_rfl h0).mpr rfl⟩
  · rw [if_neg hid]
    exact ⟨(says_singleton_of_ne hid).mpr rfl, (says_cons_of_ne hid).mp h⟩

end WasmI32.Format

namespace WasmI32.Decode

open Format

/-- What sections that are read on top of the draft `d` say together. -/
structure Collects (d : Draft) (ss : List RawSection) (d' : Draft) : Prop where
  ascending : Ascending d.previous ss
  types : Says ss 1 (fun o bs a => Format.types o bs a.toList) d.types d'.types
  typeIndices : Says ss 3 (fun o bs a => ∃ is, Format.typeIndices d'.types.size o bs is ∧
    a = some is.toArray) d.typeIndices d'.typeIndices
  memory : ∃ limits segments, Says ss 5 Format.memory none limits ∧
    Says ss 11 Format.segments [] segments ∧
    d'.memoryDeclared = (d.memoryDeclared || limits.isSome) ∧
    (∀ s ∈ segments,
      Memory.Segment.Fits (limits.elim d.memory fun l => .zeroed l.1 l.2).data.size s) ∧
    d'.memory = (limits.elim d.memory fun l => .zeroed l.1 l.2).putAll segments
  start : Says ss 8 (fun o bs a => ∃ i, number o bs i ∧ a = some i) d.start d'.start
  bodies : Says ss 10 (fun o bs a => Format.bodies o bs a.toList) d.bodies d'.bodies
  customNames : ∃ names,
    List.Forall₂ (fun s name => HasName s.contents name) (ss.filter fun s => s.id = 0) names ∧
      d'.customNames.toList = d.customNames.toList ++ names

/-- Sections that say nothing of the memory leave it as it is. -/
theorem memory_of_silent {d : Draft} {ss : List RawSection}
    (hl : Says ss 5 Format.memory none none) (hm : Says ss 11 Format.segments [] []) :
    ∃ limits segments, Says ss 5 Format.memory none limits ∧
      Says ss 11 Format.segments [] segments ∧
      d.memoryDeclared = (d.memoryDeclared || limits.isSome) ∧
      (∀ s ∈ segments,
        Memory.Segment.Fits (limits.elim d.memory fun l => .zeroed l.1 l.2).data.size s) ∧
      d.memory = (limits.elim d.memory fun l => .zeroed l.1 l.2).putAll segments :=
  ⟨none, [], hl, hm, by simp, by simp, rfl⟩

theorem collects_nil (d : Draft) : Collects d [] d where
  ascending := by simp [Ascending]
  types := rfl
  typeIndices := rfl
  memory := memory_of_silent rfl rfl
  start := rfl
  bodies := rfl
  customNames := ⟨[], .nil, by simp⟩

variable {d d₁ d' : Draft} {s : RawSection} {ss : List RawSection}

/-- One section by itself. -/
theorem Adds.collects (h : Adds d s d₁) :
    Collects d [s] d₁ ∧ d₁.previous = if s.id = 0 then d.previous else s.id := by
  cases h with
  | @custom o cs name h =>
    refine ⟨⟨?_, rfl, rfl, memory_of_silent rfl rfl, rfl, rfl, [name], ?_, ?_⟩, rfl⟩
    · exact (ascending_cons_of_custom rfl).mpr (by simp [Ascending])
    · exact .cons h .nil
    · simp
  | @numbered id o cs _ h0 hmax hlt h =>
    have hasc : Ascending d.previous [⟨id, o, cs⟩] :=
      (ascending_cons h0).mpr ⟨⟨hlt, hmax⟩, by simp [Ascending]⟩
    have hnames : ∃ names, List.Forall₂ (fun s name => HasName s.contents name)
        ([⟨id, o, cs⟩].filter fun s : RawSection => s.id = 0) names ∧
        d.customNames.toList = d.customNames.toList ++ names := by
      refine ⟨[], ?_, by simp⟩
      rw [List.filter_cons_of_neg (by simpa using h0)]
      exact .nil
    cases h with
    | types h =>
      exact ⟨⟨hasc, h, rfl, memory_of_silent rfl rfl, rfl, rfl, hnames⟩, rfl⟩
    | functions h =>
      exact ⟨⟨hasc, rfl, ⟨_, h, rfl⟩, memory_of_silent rfl rfl, rfl, rfl, hnames⟩, rfl⟩
    | noMemory h =>
      exact ⟨⟨hasc, rfl, rfl, memory_of_silent h rfl, rfl, rfl, hnames⟩, rfl⟩
    | memory h =>
      exact ⟨⟨hasc, rfl, rfl, ⟨some (_, _), [], h, rfl, by simp, by simp, rfl⟩, rfl, rfl, hnames⟩,
        rfl⟩
    | start h =>
      exact ⟨⟨hasc, rfl, rfl, memory_of_silent rfl rfl, ⟨_, h, rfl⟩, rfl, hnames⟩, rfl⟩
    | code h =>
      exact ⟨⟨hasc, rfl, rfl, memory_of_silent rfl rfl, rfl, h, hnames⟩, rfl⟩
    | data h hf =>
      exact ⟨⟨hasc, rfl, rfl, ⟨none, _, rfl, h, by simp, hf, rfl⟩, rfl, rfl, hnames⟩, rfl⟩
    | other h =>
      simp only [List.mem_cons, List.not_mem_nil, or_false, not_or] at h
      obtain ⟨h1, h3, h5, h8, h10, h11⟩ := h
      exact ⟨⟨hasc, (says_singleton_of_ne h1).mpr rfl, (says_singleton_of_ne h3).mpr rfl,
        memory_of_silent ((says_singleton_of_ne h5).mpr rfl) ((says_singleton_of_ne h11).mpr rfl),
        (says_singleton_of_ne h8).mpr rfl, (says_singleton_of_ne h10).mpr rfl, hnames⟩,
        (if_neg h0).symm⟩

/-- The sections behind a numbered one have larger numbers. -/
theorem Collects.ascending_of_eq {id : UInt8} (h : Collects d₁ ss d')
    (hp : d₁.previous = if s.id = 0 then d.previous else s.id) (h0 : id ≠ 0) (hid : s.id = id) :
    Ascending id ss := by
  have hasc := h.ascending
  rwa [hp, if_neg (by rwa [hid]), hid] at hasc

/-- What the first section and the others say of the memory. -/
theorem Collects.memory_cons (h₁ : Collects d [s] d₁)
    (hp : d₁.previous = if s.id = 0 then d.previous else s.id) (h₂ : Collects d₁ ss d') :
    ∃ limits segments, Says (s :: ss) 5 Format.memory none limits ∧
      Says (s :: ss) 11 Format.segments [] segments ∧
      d'.memoryDeclared = (d.memoryDeclared || limits.isSome) ∧
      (∀ x ∈ segments,
        Memory.Segment.Fits (limits.elim d.memory fun l => .zeroed l.1 l.2).data.size x) ∧
      d'.memory = (limits.elim d.memory fun l => .zeroed l.1 l.2).putAll segments := by
  obtain ⟨l₁, m₁, hl₁, hm₁, hdecl₁, hfits₁, hmem₁⟩ := h₁.memory
  obtain ⟨l₂, m₂, hl₂, hm₂, hdecl₂, hfits₂, hmem₂⟩ := h₂.memory
  by_cases h5 : s.id = 5
  · have hasc := h₂.ascending_of_eq hp (by decide) h5
    have h11 : s.id ≠ 11 := by
      rw [h5]
      decide
    obtain rfl := (says_of_ascending hasc (by decide) (by decide)).mp hl₂
    obtain rfl := (says_singleton_of_ne h11).mp hm₁
    have hbase : d₁.memory = l₁.elim d.memory fun l => .zeroed l.1 l.2 := hmem₁
    refine ⟨l₁, m₂, ?_, (says_cons_of_ne h11).mpr hm₂, ?_, ?_, ?_⟩
    · exact (says_cons_of_eq h5).mpr ((says_singleton_of_eq h5).mp hl₁)
    · rw [hdecl₂, hdecl₁]
      simp
    · rw [← hbase]
      exact hfits₂
    · rw [← hbase]
      exact hmem₂
  · obtain rfl := (says_singleton_of_ne h5).mp hl₁
    rw [Option.isSome_none, Bool.or_false] at hdecl₁
    by_cases h11 : s.id = 11
    · have hasc := h₂.ascending_of_eq hp (by decide) h11
      obtain rfl := (says_of_ascending hasc (by decide) (by decide)).mp hl₂
      obtain rfl := (says_of_ascending hasc (by decide) (by decide)).mp hm₂
      refine ⟨none, m₁, (says_cons_of_ne h5).mpr hl₂, ?_, ?_, hfits₁, hmem₂.trans hmem₁⟩
      · exact (says_cons_of_eq h11).mpr ((says_singleton_of_eq h11).mp hm₁)
      · rw [hdecl₂, hdecl₁]
    · obtain rfl := (says_singleton_of_ne h11).mp hm₁
      have hsame : d₁.memory = d.memory := hmem₁
      rw [hsame] at hfits₂ hmem₂
      refine ⟨l₂, m₂, (says_cons_of_ne h5).mpr hl₂, (says_cons_of_ne h11).mpr hm₂, ?_, hfits₂,
        hmem₂⟩
      rw [hdecl₂, hdecl₁]

theorem Collects.cons (h₁ : Collects d [s] d₁)
    (hp : d₁.previous = if s.id = 0 then d.previous else s.id) (h₂ : Collects d₁ ss d') :
    Collects d (s :: ss) d' where
  ascending := by
    have hasc := h₂.ascending
    rw [hp] at hasc
    by_cases h0 : s.id = 0
    · rw [if_pos h0] at hasc
      exact (ascending_cons_of_custom h0).mpr hasc
    · rw [if_neg h0] at hasc
      exact (ascending_cons h0).mpr ⟨((ascending_cons h0).mp h₁.ascending).1, hasc⟩
  types := says_cons h₁.types h₂.types (h₂.ascending_of_eq hp (by decide)) (by decide)
  typeIndices := by
    by_cases h3 : s.id = 3
    · -- the types stand before the functions, so that there are no more of them
      have hasc := h₂.ascending_of_eq hp (by decide) h3
      have htypes := (says_of_ascending hasc (by decide) (by decide)).mp h₂.types
      refine says_cons ?_ h₂.typeIndices (fun _ => hasc) (by decide)
      rw [htypes]
      exact h₁.typeIndices
    · have hsame := (says_singleton_of_ne h3).mp h₁.typeIndices
      rw [says_cons_of_ne h3, ← hsame]
      exact h₂.typeIndices
  memory := h₁.memory_cons hp h₂
  start := says_cons h₁.start h₂.start (h₂.ascending_of_eq hp (by decide)) (by decide)
  bodies := says_cons h₁.bodies h₂.bodies (h₂.ascending_of_eq hp (by decide)) (by decide)
  customNames := by
    obtain ⟨n₁, hn₁, hnames₁⟩ := h₁.customNames
    obtain ⟨n₂, hn₂, hnames₂⟩ := h₂.customNames
    refine ⟨n₁ ++ n₂, ?_, ?_⟩
    · rw [← List.singleton_append, List.filter_append]
      exact List.rel_append hn₁ hn₂
    · rw [hnames₂, hnames₁, List.append_assoc]

theorem collects_of_addsAll (h : AddsAll d ss d') : Collects d ss d' := by
  induction h with
  | nil => exact collects_nil _
  | cons ha _ ih =>
    obtain ⟨h₁, hp⟩ := ha.collects
    exact h₁.cons hp ih

/-! ## The other way round -/

/-- The draft that one numbered section makes, if it leaves the names alone. -/
theorem Collects.gains {id : UInt8} {o : Nat} {cs : List UInt8} (h : Collects d [⟨id, o, cs⟩] d₁)
    (hp : d₁.previous = id) (hnames : d₁.customNames = d.customNames) :
    Gains id { d with previous := id } o cs d₁ := by
  obtain ⟨-, htypes, hindices, ⟨limits, segments, hl, hm, hdecl, hfits, hmem⟩, hstart, hbodies,
    -⟩ := h
  obtain ⟨previous, types, typeIndices, memory, declared, start, bodies, customNames⟩ := d₁
  simp only at hp hnames htypes hindices hdecl hmem hstart hbodies
  subst hp hnames
  by_cases h5 : previous = 5
  · subst h5
    obtain rfl : types = d.types := htypes
    obtain rfl : typeIndices = d.typeIndices := hindices
    obtain rfl : start = d.start := hstart
    obtain rfl : bodies = d.bodies := hbodies
    obtain rfl : segments = [] := hm
    cases limits with
    | none =>
      obtain rfl : memory = d.memory := hmem
      rw [Option.isSome_none, Bool.or_false] at hdecl
      subst hdecl
      exact .noMemory hl
    | some limits =>
      obtain rfl : memory = .zeroed limits.1 limits.2 := hmem
      rw [Option.isSome_some, Bool.or_true] at hdecl
      subst hdecl
      exact .memory hl
  obtain rfl := (says_singleton_of_ne h5).mp hl
  rw [Option.isSome_none, Bool.or_false] at hdecl
  subst hdecl
  by_cases h11 : previous = 11
  · subst h11
    obtain rfl : types = d.types := htypes
    obtain rfl : typeIndices = d.typeIndices := hindices
    obtain rfl : start = d.start := hstart
    obtain rfl : bodies = d.bodies := hbodies
    obtain rfl : memory = d.memory.putAll segments := hmem
    exact .data hm hfits
  obtain rfl := (says_singleton_of_ne h11).mp hm
  obtain rfl : memory = d.memory := hmem
  by_cases h1 : previous = 1
  · subst h1
    obtain rfl : typeIndices = d.typeIndices := hindices
    obtain rfl : start = d.start := hstart
    obtain rfl : bodies = d.bodies := hbodies
    exact .types htypes
  obtain rfl := (says_singleton_of_ne h1).mp htypes
  by_cases h3 : previous = 3
  · subst h3
    obtain ⟨is, his, rfl⟩ := hindices
    obtain rfl : start = d.start := hstart
    obtain rfl : bodies = d.bodies := hbodies
    exact .functions his
  obtain rfl := (says_singleton_of_ne h3).mp hindices
  by_cases h8 : previous = 8
  · subst h8
    obtain ⟨i, hi, rfl⟩ := hstart
    obtain rfl : bodies = d.bodies := hbodies
    exact .start hi
  obtain rfl := (says_singleton_of_ne h8).mp hstart
  by_cases h10 : previous = 10
  · subst h10
    exact .code hbodies
  obtain rfl := (says_singleton_of_ne h10).mp hbodies
  exact .other (by simp [h1, h3, h5, h8, h10, h11])

/-- Custom sections add nothing but names. -/
theorem Collects.eq_of_custom (h : Collects d ss d') (hss : ∀ s ∈ ss, s.id = 0) :
    d' = { d with previous := d'.previous, customNames := d'.customNames } := by
  obtain ⟨-, htypes, hindices, ⟨limits, segments, hl, hm, hdecl, -, hmem⟩, hstart, hbodies, -⟩ := h
  obtain ⟨previous, types, typeIndices, memory, declared, start, bodies, customNames⟩ := d'
  obtain rfl := (says_of_custom hss (by decide)).mp htypes
  obtain rfl := (says_of_custom hss (by decide)).mp hindices
  obtain rfl := (says_of_custom hss (by decide)).mp hl
  obtain rfl := (says_of_custom hss (by decide)).mp hm
  obtain rfl := (says_of_custom hss (by decide)).mp hstart
  obtain rfl := (says_of_custom hss (by decide)).mp hbodies
  obtain rfl : memory = d.memory := hmem
  obtain rfl : declared = d.memoryDeclared := by
    simpa only [Option.isSome_none, Bool.or_false] using hdecl
  rfl

theorem Collects.adds (h : Collects d [s] d₁)
    (hp : d₁.previous = if s.id = 0 then d.previous else s.id) : Adds d s d₁ := by
  obtain ⟨id, o, cs⟩ := s
  obtain ⟨names, hn, hnames⟩ := h.customNames
  by_cases h0 : id = 0
  · subst h0
    obtain ⟨name, hname, rfl⟩ : ∃ name, HasName cs name ∧ names = [name] := by
      rw [List.filter_cons_of_pos (by simp)] at hn
      cases hn with
      | cons hname hn => exact ⟨_, hname, by rw [List.forall₂_nil_left_iff.mp hn]⟩
    have hpush : d₁.customNames = d.customNames.push name := by
      rw [← Array.toList_inj, Array.toList_push]
      exact hnames
    rw [if_pos rfl] at hp
    rw [h.eq_of_custom (by simp), hp, hpush]
    exact .custom hname
  · have hnil : names = [] := by
      rw [List.filter_cons_of_neg (by simpa using h0)] at hn
      exact List.forall₂_nil_left_iff.mp hn
    rw [hnil, List.append_nil] at hnames
    rw [if_neg h0] at hp
    obtain ⟨⟨hlt, hmax⟩, -⟩ := (ascending_cons h0).mp h.ascending
    exact .numbered h0 hmax hlt (h.gains hp (Array.toList_inj.mp hnames))

theorem ascending_of_cons {previous : UInt8} (h : Ascending previous (s :: ss)) :
    Ascending (if s.id = 0 then previous else s.id) ss := by
  by_cases h0 : s.id = 0
  · rw [if_pos h0]
    exact (ascending_cons_of_custom h0).mp h
  · rw [if_neg h0]
    exact ((ascending_cons h0).mp h).2

/-- What sections say of a memory comes from the first one or from the others. -/
theorem exists_memory {limits : Option (Nat × Nat)} {segments : List Memory.Segment}
    {first m : Memory} (hss : ∀ id, id ≠ 0 → s.id = id → Ascending id ss)
    (hl : Says (s :: ss) 5 Format.memory none limits)
    (hm : Says (s :: ss) 11 Format.segments [] segments)
    (hfits : ∀ x ∈ segments,
      Memory.Segment.Fits (limits.elim first fun l => .zeroed l.1 l.2).data.size x)
    (hmem : m = (limits.elim first fun l => .zeroed l.1 l.2).putAll segments) :
    ∃ l₁ m₁ l₂ m₂ between, Says [s] 5 Format.memory none l₁ ∧ Says [s] 11 Format.segments [] m₁ ∧
      (∀ x ∈ m₁, Memory.Segment.Fits (l₁.elim first fun l => .zeroed l.1 l.2).data.size x) ∧
      between = (l₁.elim first fun l => .zeroed l.1 l.2).putAll m₁ ∧
      Says ss 5 Format.memory none l₂ ∧ Says ss 11 Format.segments [] m₂ ∧
      (∀ x ∈ m₂, Memory.Segment.Fits (l₂.elim between fun l => .zeroed l.1 l.2).data.size x) ∧
      m = (l₂.elim between fun l => .zeroed l.1 l.2).putAll m₂ ∧
      limits.isSome = (l₁.isSome || l₂.isSome) := by
  by_cases h5 : s.id = 5
  · have h11 : s.id ≠ 11 := by
      rw [h5]
      decide
    refine ⟨limits, [], none, segments, _, ?_, (says_singleton_of_ne h11).mpr rfl, by simp, rfl,
      (says_of_ascending (hss 5 (by decide) h5) (by decide) (by decide)).mpr rfl,
      (says_cons_of_ne h11).mp hm, hfits, hmem, by simp⟩
    exact (says_singleton_of_eq h5).mpr ((says_cons_of_eq h5).mp hl)
  · have hl' := (says_cons_of_ne h5).mp hl
    by_cases h11 : s.id = 11
    · have hasc := hss 11 (by decide) h11
      obtain rfl := (says_of_ascending hasc (by decide) (by decide)).mp hl'
      refine ⟨none, segments, none, [], _, (says_singleton_of_ne h5).mpr rfl, ?_, hfits, rfl, hl',
        (says_of_ascending hasc (by decide) (by decide)).mpr rfl, by simp, hmem, rfl⟩
      exact (says_singleton_of_eq h11).mpr ((says_cons_of_eq h11).mp hm)
    · exact ⟨none, [], limits, segments, first, (says_singleton_of_ne h5).mpr rfl,
        (says_singleton_of_ne h11).mpr rfl, by simp, rfl, hl', (says_cons_of_ne h11).mp hm, hfits,
        hmem, by simp⟩

/-- The first of several sections, with a draft that has what it says and nothing of the others. -/
theorem Collects.uncons (h : Collects d (s :: ss) d') :
    ∃ d₁, Collects d [s] d₁ ∧ (d₁.previous = if s.id = 0 then d.previous else s.id) ∧
      Collects d₁ ss d' := by
  have hasc := ascending_of_cons h.ascending
  have hss : ∀ id, id ≠ 0 → s.id = id → Ascending id ss := by
    rintro id h0 rfl
    rwa [if_neg h0] at hasc
  obtain ⟨htypes₁, htypes₂⟩ := says_uncons h.types (hss 1 (by decide)) (by decide)
  obtain ⟨hindices₁, hindices₂⟩ := says_uncons h.typeIndices (hss 3 (by decide)) (by decide)
  obtain ⟨hstart₁, hstart₂⟩ := says_uncons h.start (hss 8 (by decide)) (by decide)
  obtain ⟨hbodies₁, hbodies₂⟩ := says_uncons h.bodies (hss 10 (by decide)) (by decide)
  obtain ⟨limits, segments, hl, hm, hdecl, hfits, hmem⟩ := h.memory
  obtain ⟨l₁, m₁, l₂, m₂, between, hl₁, hm₁, hfits₁, hmem₁, hl₂, hm₂, hfits₂, hmem₂, hsome⟩ :=
    exists_memory hss hl hm hfits hmem
  obtain ⟨names, hn, hnames⟩ := h.customNames
  obtain ⟨n₁, n₂, hn₁, hn₂, rfl⟩ : ∃ n₁ n₂,
      List.Forall₂ (fun s name => HasName s.contents name) ([s].filter fun s => s.id = 0) n₁ ∧
      List.Forall₂ (fun s name => HasName s.contents name) (ss.filter fun s => s.id = 0) n₂ ∧
      names = n₁ ++ n₂ := by
    by_cases h0 : s.id = 0
    · rw [List.filter_cons_of_pos (by simpa using h0)] at hn ⊢
      cases hn with
      | cons hname hn => exact ⟨[_], _, .cons hname .nil, hn, rfl⟩
    · rw [List.filter_cons_of_neg (by simpa using h0)] at hn ⊢
      exact ⟨[], names, .nil, hn, rfl⟩
  refine ⟨{
    previous := if s.id = 0 then d.previous else s.id
    types := if s.id = 1 then d'.types else d.types
    typeIndices := if s.id = 3 then d'.typeIndices else d.typeIndices
    memory := between
    memoryDeclared := d.memoryDeclared || l₁.isSome
    start := if s.id = 8 then d'.start else d.start
    bodies := if s.id = 10 then d'.bodies else d.bodies
    customNames := d.customNames ++ n₁.toArray }, ?_, rfl, ?_⟩
  · refine ⟨?_, htypes₁, ?_, ⟨l₁, m₁, hl₁, hm₁, rfl, hfits₁, hmem₁⟩, hstart₁, hbodies₁, n₁, hn₁,
      by simp⟩
    · by_cases h0 : s.id = 0
      · exact (ascending_cons_of_custom h0).mpr (by simp [Ascending])
      · exact (ascending_cons h0).mpr ⟨((ascending_cons h0).mp h.ascending).1, by simp [Ascending]⟩
    · by_cases h3 : s.id = 3
      · have h1 : s.id ≠ 1 := by
          rw [h3]
          decide
        have hsame := (says_of_ascending (hss 3 (by decide) h3) (by decide) (by decide)).mp
          ((says_cons_of_ne h1).mp h.types)
        simp only [if_neg h1]
        rw [hsame] at hindices₁
        exact hindices₁
      · exact (says_singleton_of_ne h3).mpr ((says_singleton_of_ne h3).mp hindices₁)
  · exact ⟨hasc, htypes₂, hindices₂, ⟨l₂, m₂, hl₂, hm₂, by simp [hdecl, hsome, Bool.or_assoc],
      hfits₂, hmem₂⟩, hstart₂, hbodies₂, n₂, hn₂, by simp [hnames]⟩

/-- What sections say is what they add up to; the number of the last one is not told. -/
theorem addsAll_of_collects (h : Collects d ss d') :
    ∃ previous, AddsAll d ss { d' with previous } := by
  induction ss generalizing d with
  | nil =>
    obtain ⟨names, hn, hnames⟩ := h.customNames
    obtain rfl : names = [] := List.forall₂_nil_left_iff.mp hn
    have hsame : d'.customNames = d.customNames := by
      rw [← Array.toList_inj, hnames, List.append_nil]
    rw [h.eq_of_custom (by simp), hsame]
    exact ⟨d.previous, .nil⟩
  | cons s ss ih =>
    obtain ⟨d₁, h₁, hp, h₂⟩ := h.uncons
    obtain ⟨previous, hall⟩ := ih h₂
    exact ⟨previous, .cons (h₁.adds hp) hall⟩

end WasmI32.Decode
