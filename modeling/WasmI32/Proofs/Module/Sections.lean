import WasmI32.Proofs.Module.Contents

/-!
# Reading sections

Reading a binary splits it into sections and lets each one add to a draft of the module. Since the
numbers of sections ascend, what a section needs of others stands before it, and each number is met
once at most. So the draft at the end is told by what the sections say, without the order in which
they were read.
-/

namespace WasmI32

open Format

variable {α : Type} {id : UInt8} {d d' : Draft} {o : Nat} {bs : List UInt8}

/-- A reader that accepts a grammar and fills its window. -/
theorem Read.Accepts.fills {ε : Type} {x : Read ε α} {G : Grammar α} (h : x.Accepts G) (w : Window)
    (a : α) : (∃ w', x w = .ok a w' ∧ w'.isEmpty = true) ↔ G w.offset w.rest a := by
  constructor
  · rintro ⟨w', hx, he⟩
    obtain ⟨bs, rest, hw, rfl, hg⟩ := (h w a w').mp hx
    obtain rfl : rest = [] := List.isEmpty_iff.mp he
    rwa [hw, List.append_nil]
  · intro hg
    exact ⟨_, h.run (List.append_nil _).symm hg, rfl⟩

namespace Decode

/-! ## What a section adds -/

/-- What the contents of the section with number `id` make of a draft. -/
inductive Gains : UInt8 → Draft → Nat → List UInt8 → Draft → Prop
  | types {d : Draft} {o : Nat} {bs : List UInt8} {ts : List FunctionType}
    (h : Format.types o bs ts) : Gains 1 d o bs { d with types := ts.toArray }
  | functions {d : Draft} {o : Nat} {bs : List UInt8} {is : List Nat}
    (h : Format.typeIndices d.types.size o bs is) :
    Gains 3 d o bs { d with typeIndices := some is.toArray }
  | noMemory {d : Draft} {o : Nat} {bs : List UInt8} (h : Format.memory o bs none) :
    Gains 5 d o bs d
  | memory {d : Draft} {o initial maximum : Nat} {bs : List UInt8}
    (h : Format.memory o bs (some (initial, maximum))) :
    Gains 5 d o bs { d with memory := .zeroed initial maximum, memoryDeclared := true }
  | start {d : Draft} {o i : Nat} {bs : List UInt8} (h : number o bs i) :
    Gains 8 d o bs { d with start := some i }
  | code {d : Draft} {o : Nat} {bs : List UInt8} {as : List Body} (h : Format.bodies o bs as) :
    Gains 10 d o bs { d with bodies := as.toArray }
  | data {d : Draft} {o : Nat} {bs : List UInt8} {ss : List Memory.Segment}
    (h : Format.segments o bs ss) (hf : ∀ s ∈ ss, Memory.Segment.Fits d.memory.data.size s) :
    Gains 11 d o bs { d with memory := d.memory.putAll ss }
  | other {id : UInt8} {d : Draft} {o : Nat} {bs : List UInt8}
    (h : id ∉ ([1, 3, 5, 8, 10, 11] : List UInt8)) : Gains id d o bs d

theorem map_fills {β : Type} {x : Read DecodeError α} {G : Grammar α} (h : x.Accepts G) (f : α → β)
    (w : Window) (b : β) :
    (∃ w', (x >>= fun a => pure (f a)) w = .ok b w' ∧ w'.isEmpty = true) ↔
      ∃ a, G w.offset w.rest a ∧ b = f a := by
  rw [(Read.accepts_bind h fun a => Read.accepts_pure (f a)).fills]
  constructor
  · rintro ⟨a, bs₁, bs₂, hw, hg, rfl, rfl⟩
    rw [hw, List.append_nil]
    exact ⟨a, hg, rfl⟩
  · rintro ⟨a, hg, rfl⟩
    exact ⟨a, w.rest, [], (List.append_nil _).symm, hg, rfl, rfl⟩

theorem memory_fills (d : Draft) (w : Window) (d' : Draft) :
    (∃ w', (memorySection >>= fun
        | some memory => pure { d with memory, memoryDeclared := true }
        | none => pure d) w = .ok d' w' ∧ w'.isEmpty = true) ↔ Gains 5 d w.offset w.rest d' := by
  have hfun : (memorySection >>= fun
        | some memory => pure { d with memory, memoryDeclared := true }
        | none => pure d : Read DecodeError Draft) =
      memorySection >>= fun memory => pure (memory.elim d fun memory =>
        { d with memory, memoryDeclared := true }) := by
    refine congrArg (memorySection >>= ·) (funext fun memory => ?_)
    cases memory <;> rfl
  rw [hfun, map_fills accepts_memorySection]
  constructor
  · rintro ⟨_, ⟨limits, h, rfl⟩, rfl⟩
    cases limits with
    | none => exact .noMemory h
    | some limits => exact .memory h
  · intro h
    cases h with
    | noMemory h => exact ⟨_, ⟨none, h, rfl⟩, rfl⟩
    | memory h => exact ⟨_, ⟨some _, h, rfl⟩, rfl⟩
    | other h => exact absurd (by decide) h

theorem gains_iff (id : UInt8) (d : Draft) (w : Window) (d' : Draft) :
    (∃ w', contents id d w = .ok d' w' ∧ w'.isEmpty = true) ↔ Gains id d w.offset w.rest d' := by
  unfold contents
  by_cases h1 : id = Section.type
  · rw [if_pos h1, map_fills accepts_typeSection]
    obtain rfl : id = 1 := h1
    constructor
    · rintro ⟨_, ⟨ts, h, rfl⟩, rfl⟩
      exact .types h
    · intro h
      cases h with
      | types h => exact ⟨_, ⟨_, h, rfl⟩, rfl⟩
      | other h => exact absurd (by decide) h
  rw [if_neg h1]
  by_cases h3 : id = Section.function
  · rw [if_pos h3, map_fills (accepts_functionSection d.types.size)]
    obtain rfl : id = 3 := h3
    constructor
    · rintro ⟨_, ⟨is, h, rfl⟩, rfl⟩
      exact .functions h
    · intro h
      cases h with
      | functions h => exact ⟨_, ⟨_, h, rfl⟩, rfl⟩
      | other h => exact absurd (by decide) h
  rw [if_neg h3]
  by_cases h5 : id = Section.memory
  · rw [if_pos h5]
    obtain rfl : id = 5 := h5
    exact memory_fills d w d'
  rw [if_neg h5]
  by_cases h8 : id = Section.start
  · rw [if_pos h8, map_fills accepts_startSection]
    obtain rfl : id = 8 := h8
    constructor
    · rintro ⟨i, h, rfl⟩
      exact .start h
    · intro h
      cases h with
      | start h => exact ⟨_, h, rfl⟩
      | other h => exact absurd (by decide) h
  rw [if_neg h8]
  by_cases h10 : id = Section.code
  · rw [if_pos h10, map_fills accepts_codeSection]
    obtain rfl : id = 10 := h10
    constructor
    · rintro ⟨_, ⟨as, h, rfl⟩, rfl⟩
      exact .code h
    · intro h
      cases h with
      | code h => exact ⟨_, ⟨_, h, rfl⟩, rfl⟩
      | other h => exact absurd (by decide) h
  rw [if_neg h10]
  by_cases h11 : id = Section.data
  · rw [if_pos h11, map_fills (accepts_dataSection d.memory)]
    obtain rfl : id = 11 := h11
    constructor
    · rintro ⟨_, ⟨ss, h, hf, rfl⟩, rfl⟩
      exact .data h hf
    · intro h
      cases h with
      | data h hf => exact ⟨_, ⟨_, h, hf, rfl⟩, rfl⟩
      | other h => exact absurd (by decide) h
  rw [if_neg h11]
  -- all other sections are read over
  have hid : id ∉ ([1, 3, 5, 8, 10, 11] : List UInt8) := by
    simp only [List.mem_cons, List.not_mem_nil, or_false, not_or]
    exact ⟨h1, h3, h5, h8, h10, h11⟩
  constructor
  · rintro ⟨w', h, -⟩
    cases h
    exact .other hid
  · intro h
    cases h with
    | other h => exact ⟨_, rfl, rfl⟩
    | types | functions | noMemory | memory | start | code | data => exact absurd (by decide) hid

theorem hasName_iff {cs : List UInt8} {name : String} (o : Nat) :
    HasName cs name ↔ name = customName ⟨o, o, cs⟩ := by
  have hread {ns bs rest : List UInt8} (h : cs = ns ++ (bs ++ rest)) (hn : number o ns bs.length) :
      ∃ w', Window.byteVector ⟨o, o, cs⟩ = .ok bs w' :=
    ⟨_, accepts_byteVector.run (h.trans (List.append_assoc ..).symm) ⟨ns, rfl, hn⟩⟩
  unfold HasName customName
  cases hb : Window.byteVector ⟨o, o, cs⟩ with
  | error e w' =>
    have hnone : ¬ ∃ ns bs rest, cs = ns ++ (bs ++ rest) ∧ number 0 ns bs.length := by
      rintro ⟨ns, bs, rest, h, hn⟩
      obtain ⟨w'', hok⟩ := hread h hn
      rw [hb] at hok
      cases hok
    constructor
    · rintro (⟨ns, bs, rest, h, hn, -⟩ | ⟨-, rfl⟩)
      · exact absurd ⟨ns, bs, rest, h, hn⟩ hnone
      · rfl
    · rintro rfl
      exact .inr ⟨hnone, rfl⟩
  | ok bytes w' =>
    obtain ⟨_, rest, hw, -, ns, rfl, hn⟩ := (accepts_byteVector _ _ _).mp hb
    have hcs : cs = ns ++ (bytes ++ rest) := hw.trans (List.append_assoc ..)
    constructor
    · rintro (⟨ns', bs, rest', h, hn', rfl⟩ | ⟨hnone, -⟩)
      · obtain ⟨w'', hok⟩ := hread h hn'
        rw [hb] at hok
        cases hok
        rfl
      · exact absurd ⟨ns, bytes, rest, hcs, hn⟩ hnone
    · rintro rfl
      exact .inl ⟨ns, bytes, rest, hcs, hn, rfl⟩

/-- What a section makes of a draft. -/
inductive Adds (d : Draft) : RawSection → Draft → Prop
  | custom {o : Nat} {cs : List UInt8} {name : String} (h : HasName cs name) :
    Adds d ⟨0, o, cs⟩ { d with customNames := d.customNames.push name }
  | numbered {id : UInt8} {o : Nat} {cs : List UInt8} {d' : Draft} (h0 : id ≠ 0) (hmax : id ≤ 12)
    (hlt : d.previous < id) (h : Gains id { d with previous := id } o cs d') :
    Adds d ⟨id, o, cs⟩ d'

theorem addSection_eq_ok_iff (d : Draft) (id : UInt8) (offset o : Nat) (cs : List UInt8)
    (d' : Draft) : addSection d id offset ⟨o, o, cs⟩ = .ok d' ↔ Adds d ⟨id, o, cs⟩ d' := by
  unfold addSection
  by_cases h0 : id = Section.custom
  · rw [if_pos h0]
    obtain rfl : id = 0 := h0
    constructor
    · intro h
      cases h
      exact .custom ((hasName_iff o).mpr rfl)
    · intro h
      cases h with
      | custom h => rw [(hasName_iff o).mp h]
      | numbered h0 => exact absurd rfl h0
  rw [if_neg h0]
  by_cases hmax : Section.largest < id
  · rw [if_pos hmax]
    constructor
    · intro h
      cases h
    · intro h
      cases h with
      | custom => exact absurd rfl h0
      | numbered _ hle => exact absurd hle (UInt8.not_le.mpr hmax)
  rw [if_neg hmax]
  by_cases hlt : id ≤ d.previous
  · rw [if_pos hlt]
    constructor
    · intro h
      cases h
    · intro h
      cases h with
      | custom => exact absurd rfl h0
      | numbered _ _ hp => exact absurd hlt (UInt8.not_le.mpr hp)
  rw [if_neg hlt]
  have hgains := gains_iff id { d with previous := id } ⟨o, o, cs⟩ d'
  constructor
  · intro h
    refine .numbered h0 (UInt8.not_lt.mp hmax) (UInt8.not_le.mp hlt) (hgains.mp ?_)
    cases hc : contents id { d with previous := id } ⟨o, o, cs⟩ with
    | error e w' =>
      simp only [hc] at h
      cases h
    | ok d₁ w' =>
      simp only [hc] at h
      split at h
      · rename_i he
        cases h
        exact ⟨w', rfl, he⟩
      · cases h
  · intro h
    cases h with
    | custom => exact absurd rfl h0
    | numbered _ _ _ h =>
      obtain ⟨w', hc, he⟩ := hgains.mpr h
      simp only [hc, if_pos he]

/-- What sections make of a draft, one after the other. -/
inductive AddsAll : Draft → List RawSection → Draft → Prop
  | nil {d : Draft} : AddsAll d [] d
  | cons {d d₁ d' : Draft} {s : RawSection} {ss : List RawSection} (h : Adds d s d₁)
    (ht : AddsAll d₁ ss d') : AddsAll d (s :: ss) d'

theorem accepts_nextSection (d : Draft) : Read.Accepts (nextSection d) (fun o bs d' =>
    ∃ id ss cs, bs = id :: (ss ++ cs) ∧ number (o + 1) ss cs.length ∧
      Adds d ⟨id, o + 1 + ss.length, cs⟩ d') := by
  refine (Read.accepts_bind Read.accepts_here fun offset =>
    Read.accepts_bind (Read.accepts_adaptExcept Read.accepts_byte _) fun id =>
      Read.accepts_bind (Read.accepts_adaptExcept Read.accepts_unsigned _) fun size =>
        Read.accepts_bind (H := fun window _ bs d' => bs = [] ∧
          addSection d id offset window = .ok d')
          (Read.accepts_adaptExcept (accepts_split size.toNat) _) fun window => ?_).congr
            fun o bs d' => ?_
  · cases addSection d id offset window with
    | error e => exact (Read.accepts_throw e).congr fun o bs d' => by simp
    | ok d₁ => exact (Read.accepts_pure d₁).congr fun o bs d' => by simp [Read.nothing, eq_comm]
  constructor
  · rintro ⟨_, _, _, rfl, ⟨rfl, -⟩, id, _, _, rfl, rfl, size, ss, _, rfl, hs, window, cs, _, rfl,
      ⟨hlen, rfl⟩, rfl, hd⟩
    refine ⟨id, ss, cs, by simp, ⟨size, hs, hlen⟩, ?_⟩
    exact (addSection_eq_ok_iff d id _ _ cs d').mp hd
  · rintro ⟨id, ss, cs, rfl, ⟨size, hs, hlen⟩, hd⟩
    refine ⟨o, [], _, rfl, ⟨rfl, rfl⟩, id, [id], ss ++ cs, rfl, rfl, size, ss, cs, rfl, hs, _, cs,
      [], by simp, ⟨hlen, rfl⟩, rfl, ?_⟩
    exact (addSection_eq_ok_iff d id _ _ cs d').mpr hd

theorem addsAll_of_rest_nil {w : Window} (hw : w.rest = []) :
    (∃ ss, Sections w.offset w.rest ss ∧ AddsAll d ss d') ↔ d' = d := by
  rw [hw]
  constructor
  · rintro ⟨ss, hs, ha⟩
    cases hs
    cases ha
    rfl
  · rintro rfl
    exact ⟨[], .nil, .nil⟩

theorem sections_of_isEmpty {w : Window} (h : w.isEmpty = true) (fuel : Nat) (d : Draft) :
    sections (fuel + 1) d w = .ok d w :=
  if_pos h

theorem sections_of_not_isEmpty {w : Window} (h : ¬ w.isEmpty = true) (fuel : Nat) (d : Draft) :
    sections (fuel + 1) d w = (nextSection d >>= sections fuel) w :=
  if_neg h

/-- A section takes up a byte at least, and the next one starts behind it. -/
theorem behind_section {w : Window} {id : UInt8} {ss cs rest : List UInt8} {fuel : Nat}
    (hw : w.rest = (id :: (ss ++ cs)) ++ rest) (hf : w.rest.length ≤ fuel + 1) :
    rest.length ≤ fuel ∧ (w.behind (id :: (ss ++ cs)).length rest).offset =
      w.offset + 1 + ss.length + cs.length := by
  rw [hw] at hf
  simp only [List.length_append, List.length_cons, Window.behind_offset] at hf ⊢
  omega

/-- Reading sections to the end of a window. Each takes up a byte at least, so that the bound is
not in the way. -/
theorem sections_eq_ok_iff {fuel : Nat} {w : Window} (hf : w.rest.length ≤ fuel) :
    (∃ w', sections fuel d w = .ok d' w') ↔
      ∃ ss, Sections w.offset w.rest ss ∧ AddsAll d ss d' := by
  have hdone (w : Window) (d : Draft) :
      (∃ w', (.ok d w : EStateM.Result DecodeError Window Draft) = .ok d' w') ↔ d' = d := by
    constructor
    · rintro ⟨w', h⟩
      cases h
      rfl
    · rintro rfl
      exact ⟨w, rfl⟩
  induction fuel generalizing d w with
  | zero =>
    rw [addsAll_of_rest_nil (List.length_eq_zero_iff.mp (Nat.le_zero.mp hf))]
    exact hdone w d
  | succ fuel ih =>
    by_cases he : w.isEmpty = true
    · rw [addsAll_of_rest_nil (List.isEmpty_iff.mp he), sections_of_isEmpty he]
      exact hdone w d
    · rw [sections_of_not_isEmpty he]
      constructor
      · rintro ⟨w', h⟩
        obtain ⟨d₁, w₁, hnext, hrest⟩ := bind_eq_ok_iff.mp h
        obtain ⟨_, rest, hw, rfl, id, ss, cs, rfl, hsize, ha⟩ :=
          (accepts_nextSection d w d₁ w₁).mp hnext
        obtain ⟨hlen, hoffset⟩ := behind_section hw hf
        obtain ⟨sections, hs, hall⟩ := (ih hlen).mp ⟨w', hrest⟩
        rw [hoffset] at hs
        refine ⟨_, ?_, .cons ha hall⟩
        rw [hw, List.cons_append, List.append_assoc]
        exact .cons hsize hs
      · rintro ⟨sections, hs, hall⟩
        generalize hrest : w.rest = bytes at hs
        cases hs with
        | nil => exact absurd (List.isEmpty_iff.mpr hrest) he
        | @cons _ id ss cs rest sections hsize hs =>
          cases hall with
          | @cons _ d₁ _ _ _ ha hall =>
            have hw : w.rest = (id :: (ss ++ cs)) ++ rest := by simp [hrest]
            obtain ⟨hlen, hoffset⟩ := behind_section hw hf
            have hnext := (accepts_nextSection d).run hw ⟨id, ss, cs, rfl, hsize, ha⟩
            rw [← hoffset] at hs
            obtain ⟨w', hsections⟩ := (ih hlen).mpr ⟨sections, hs, hall⟩
            exact ⟨w', bind_eq_ok_iff.mpr ⟨d₁, _, hnext, hsections⟩⟩

end Decode

end WasmI32
