import WasmI32.Proofs.Module.Framing

/-!
# Binaries that are cut short

A part of a binary from its start on is refused at the very place where it ends, unless it ends
behind a whole section. The sections in front of the cut are read as before, and the cut may go
through the number, the size or the contents of the next one: all three are reported alike. Behind a
whole section nothing is missing but what other sections could have said, so that only the checks
over the module as a whole can fail.
-/

namespace WasmI32

open Format

/-! ## Readers that come to the end -/

theorem Leb128.digits_take {bs : List UInt8} (h : Numeral bs) {limit j : Nat}
    (hl : bs.length ≤ limit) (hj : j < bs.length) :
    digits limit (bs.take j) = .error .truncated := by
  induction bs generalizing limit j with
  | nil => exact absurd hj (Nat.not_lt_zero j)
  | cons b bs ih =>
    obtain ⟨limit, rfl⟩ : ∃ n, limit = n + 1 := ⟨limit - 1, by simp at hl; omega⟩
    cases j with
    | zero => rfl
    | succ j =>
      cases bs with
      | nil =>
        simp only [List.length_cons, List.length_nil] at hj
        omega
      | cons c cs =>
        simp only [List.length_cons] at hl hj
        have hrest : digits limit ((c :: cs).take j) = .error .truncated := by
          apply ih h.2
          · simp only [List.length_cons]
            omega
          · simp only [List.length_cons]
            omega
        rw [List.take_succ_cons, digits, if_pos h.1, hrest]

namespace Window

variable (start o : Nat)

theorem unsigned_take {bs : List UInt8} {v : Word} (h : Leb128.Unsigned bs v) {j : Nat}
    (hj : j < bs.length) :
    unsigned ⟨start, o, bs.take j⟩ = .error (.truncated (o + j)) ⟨start, o, bs.take j⟩ := by
  have hdigits := Leb128.digits_take h.numeral h.short hj
  have hlength : (bs.take j).length = j := by
    rw [List.length_take]
    omega
  have hdecode := Leb128.judges_unsigned.eq_truncated_iff.mpr hdigits
  simp only [unsigned, integer, hdecode, stop, hlength]

theorem split_of_lt {n : Nat} {bs : List UInt8} (h : bs.length < n) :
    split n ⟨start, o, bs⟩ = .error (.truncated (o + bs.length)) ⟨start, o, bs⟩ := by
  have htaken : (bs.take n).length < n := by
    rw [List.length_take]
    omega
  have hbytes : bytes n ⟨start, o, bs⟩ = .error (.truncated (o + bs.length)) ⟨start, o, bs⟩ :=
    if_pos htaken
  show (bytes n >>= fun taken => pure (⟨o, o, taken⟩ : Window)) ⟨start, o, bs⟩ = _
  exact bind_of_error hbytes

end Window

namespace Decode

variable {d d' : Draft} {o j : Nat} {bytes : List UInt8} {ss : List RawSection}

/-- A section that is cut short is refused where it ends, wherever that is. -/
theorem nextSection_take (d : Draft) (start o : Nat) {id : UInt8} {size contents : List UInt8}
    (hsize : number 0 size contents.length) (h0 : 0 < j)
    (hj : j < (framed id size contents).length) :
    ∃ w, nextSection d ⟨start, o, (framed id size contents).take j⟩ =
      .error (.unexpectedEnd (o + j)) w := by
  obtain ⟨v, hv, hlength⟩ := hsize
  obtain ⟨i, rfl⟩ : ∃ i, j = i + 1 := ⟨j - 1, by omega⟩
  rw [length_framed] at hj
  have hbyte (rest : List UInt8) : (Window.byte : Read DecodeError UInt8) ⟨start, o, id :: rest⟩ =
      .ok id ⟨start, o + 1, rest⟩ := rfl
  have hend : o + 1 + i = o + (i + 1) := by omega
  unfold nextSection
  rw [framed, List.take_succ_cons, bind_of_ok (Window.here_eq_ok _), bind_of_ok (hbyte _), ← hend]
  by_cases hcut : i < size.length
  · -- the size is cut
    rw [List.take_append_of_le_length (Nat.le_of_lt hcut)]
    exact ⟨_, bind_of_error (adaptExcept_of_error (Window.unsigned_take _ _ hv hcut) _)⟩
  · -- the size is whole, and the contents are cut
    have htake : (size ++ contents).take i = size ++ contents.take (i - size.length) := by
      rw [List.take_append, List.take_of_length_le (by omega)]
    have hcontents : (contents.take (i - size.length)).length = i - size.length := by
      rw [List.length_take]
      omega
    have hread := Read.accepts_unsigned.run (w := ⟨start, o + 1, _⟩) htake hv
    have hshort : (contents.take (i - size.length)).length < v.toNat := by omega
    have hsplit := Window.split_of_lt start (o + 1 + size.length) hshort
    have hstop : o + 1 + size.length + (i - size.length) = o + 1 + i := by omega
    rw [hcontents, hstop] at hsplit
    exact ⟨_, (bind_of_ok (adaptExcept_of_ok hread _)).trans
      (bind_of_error (adaptExcept_of_error hsplit _))⟩

/-- The sections in front of a cut are read as if nothing were missing. -/
theorem sections_take (hs : Sections o bytes ss) (ha : AddsAll d ss d') (h0 : 0 < j)
    (hj : j < bytes.length) (hends : ∀ s ∈ ss, s.stop ≠ o + j) {fuel : Nat} (hf : j ≤ fuel)
    (start : Nat) :
    ∃ w, sections fuel d ⟨start, o, bytes.take j⟩ = .error (.unexpectedEnd (o + j)) w := by
  induction hs generalizing d j fuel with
  | nil => exact absurd hj (Nat.not_lt_zero j)
  | @cons o id size contents rest ss hsize hrest ih =>
    obtain ⟨fuel, rfl⟩ : ∃ n, fuel = n + 1 := ⟨fuel - 1, by omega⟩
    cases ha with
    | @cons _ d₁ _ _ _ ha hall =>
      obtain ⟨hfirst, hothers⟩ := List.forall_mem_cons.mp hends
      have hlen := length_framed id size contents
      rw [cons_eq_framed_append, List.length_append] at hj
      rw [cons_eq_framed_append, sections_of_not_isEmpty]
      · by_cases hcut : j < (framed id size contents).length
        · obtain ⟨w, hw⟩ := nextSection_take d start o hsize h0 hcut
          rw [List.take_append_of_le_length (Nat.le_of_lt hcut)]
          exact ⟨w, bind_of_error hw⟩
        · have htake : (framed id size contents ++ rest).take j =
              framed id size contents ++ rest.take (j - (framed id size contents).length) := by
            rw [List.take_append, List.take_of_length_le (by omega)]
          have hnext := (accepts_nextSection d).run (w := ⟨start, o, _⟩) htake
            ⟨id, size, contents, rfl, hsize, ha⟩
          rw [bind_of_ok hnext]
          simp only [RawSection.stop] at hfirst
          have hoffset : o + (framed id size contents).length =
              o + 1 + size.length + contents.length := by omega
          have hstop : o + 1 + size.length + contents.length +
              (j - (framed id size contents).length) = o + j := by omega
          rw [← hstop] at hothers ⊢
          show ∃ w, sections fuel d₁ ⟨start, o + (framed id size contents).length, _⟩ = _
          rw [hoffset]
          apply ih hall
          · omega
          · omega
          · exact hothers
          · omega
      · simp [Window.isEmpty, framed]
        omega

end Decode

/-! ## The checks over the module as a whole -/

theorem exists_forall₂ {α β : Type} {R : α → β → Prop} {as : List α} (h : ∀ a ∈ as, ∃ b, R a b) :
    ∃ bs, List.Forall₂ R as bs := by
  induction as with
  | nil => exact ⟨[], .nil⟩
  | cons a as ih =>
    obtain ⟨⟨b, hb⟩, hrest⟩ := List.forall_mem_cons.mp h
    obtain ⟨bs, hbs⟩ := ih hrest
    exact ⟨b :: bs, .cons hb hbs⟩

namespace Draft

variable {d : Draft} {ss : List RawSection}

theorem functions_cases (h : Decode.AddsAll {} ss d) :
    (∃ fs, d.functions = .ok fs) ∨ ∃ a b, d.functions = .error (.functionCount a b) := by
  by_cases hcount : d.functionTypes.size = d.bodies.size
  · refine .inl ?_
    obtain ⟨fs, hfs⟩ : ∃ fs, List.Forall₂ (fun x f => Joins d.types.toList x.1 x.2 f)
        (d.functionTypes.toList.zip d.bodies.toList) fs := by
      apply exists_forall₂
      rintro ⟨i, b⟩ hx
      have hlt := lt_of_mem_functionTypes h (Array.mem_toList_iff.mp (List.of_mem_zip hx).1)
      exact ⟨_, d.types[i], by simp [hlt], rfl⟩
    refine ⟨fs.toArray, functions_eq_ok_iff.mpr ?_⟩
    unfold FunctionsOf
    simp only
    rw [← toList_functionTypes, Array.length_toList, Array.length_toList]
    exact ⟨hcount, hfs⟩
  · exact .inr ⟨_, _, if_pos hcount⟩

/-- All that can be wrong with a module whose sections are in order. -/
theorem finish_cases (h : Decode.AddsAll {} ss d) :
    (∃ m, d.finish = .ok m) ∨ (∃ a b, d.finish = .error (.functionCount a b)) ∨
      ∃ a b, d.finish = .error (.startFunction a b) := by
  unfold finish
  rcases functions_cases h with ⟨fs, hfs⟩ | ⟨a, b, hcount⟩
  · rw [hfs]
    cases d.start with
    | none => exact .inl ⟨_, rfl⟩
    | some index =>
      by_cases hi : fs.size ≤ index
      · refine .inr (.inr ⟨index, fs.size, ?_⟩)
        simp [bind, Except.bind, hi]
        rfl
      · refine .inl ?_
        simp [bind, Except.bind, hi]
        exact ⟨_, rfl⟩
  · rw [hcount]
    exact .inr (.inl ⟨a, b, rfl⟩)

end Draft

/-! ## Cut binaries -/

/-- The header or a section of the binary ends at `k`. -/
def Format.IsSectionEnd (bytes : List UInt8) (k : Nat) : Prop :=
  ∃ rest sections, bytes = Module.header ++ rest ∧ Sections 8 rest sections ∧
    (k = 8 ∨ ∃ s ∈ sections, s.stop = k)

namespace Module

variable {bytes rest : List UInt8} {m : Module} {k : Nat}

/-- A binary of whole sections is refused by the last checks only. -/
theorem decode_cases {ss : List RawSection} {d : Draft} (hs : Sections 8 rest ss)
    (ha : Decode.AddsAll {} ss d) :
    (∃ m, decode (header ++ rest) = .ok m) ∨
      (∃ a b, decode (header ++ rest) = .error (.functionCount a b)) ∨
      ∃ a b, decode (header ++ rest) = .error (.startFunction a b) := by
  obtain ⟨w, hw⟩ := (Decode.sections_eq_ok_iff (w := ⟨0, 8, rest⟩) le_rfl).mpr ⟨ss, hs, ha⟩
  rw [decode_of_sections_ok hw]
  exact Draft.finish_cases ha

/-- What is read of a binary that is cut short: its end is found exactly where it is. -/
theorem decode_take (h : decode bytes = .ok m) (hk : k < bytes.length) :
    (k < 8 → decode (bytes.take k) = .error .badHeader) ∧
      (8 ≤ k → ¬ IsSectionEnd bytes k → decode (bytes.take k) = .error (.unexpectedEnd k)) ∧
      (IsSectionEnd bytes k → (∃ m', decode (bytes.take k) = .ok m') ∨
        (∃ a b, decode (bytes.take k) = .error (.functionCount a b)) ∨
        ∃ a b, decode (bytes.take k) = .error (.startFunction a b)) := by
  obtain ⟨rest, rfl⟩ := eq_append_of_decode h
  obtain ⟨ss, d, hs, ha, -⟩ := decode_append_eq_finish.mp h
  have hheader : header.length = 8 := rfl
  rw [List.length_append, hheader] at hk
  have htake (hk8 : 8 ≤ k) : (header ++ rest).take k = header ++ rest.take (k - 8) := by
    rw [List.take_append, List.take_of_length_le (by omega), hheader]
  refine ⟨fun hk8 => ?_, fun hk8 hend => ?_, fun hend => ?_⟩
  · -- too short for the header
    have hshort : (((header ++ rest).take k).take header.length).length ≠ header.length := by
      simp only [List.length_take, List.length_append, hheader]
      omega
    exact if_pos fun heq => hshort (congrArg List.length heq)
  · have h0 : k ≠ 8 := fun hk => hend ⟨rest, ss, rfl, hs, .inl hk⟩
    have hends : ∀ s ∈ ss, s.stop ≠ 8 + (k - 8) := by
      intro s hmem hstop
      exact hend ⟨rest, ss, rfl, hs, .inr ⟨s, hmem, by omega⟩⟩
    have hlength : (rest.take (k - 8)).length = k - 8 := by
      rw [List.length_take]
      omega
    obtain ⟨w, hw⟩ := Decode.sections_take hs ha (by omega) (by omega) hends
      (Nat.le_of_eq hlength.symm) 0
    have hstop : 8 + (k - 8) = k := by omega
    rw [htake hk8, decode_of_sections_error hw, hstop]
  · obtain ⟨rest₁, ss₁, heq, hs₁, hplace⟩ := hend
    obtain rfl : rest = rest₁ := List.append_cancel_left heq
    obtain rfl : ss = ss₁ := hs.unique hs₁
    rcases hplace with rfl | ⟨s, hmem, rfl⟩
    · rw [htake (Nat.le_refl 8)]
      exact decode_cases .nil .nil
    · obtain ⟨p, q, ps, qs, rfl, rfl, hps, hstop⟩ := hs.split hmem
      obtain ⟨d₁, had, -⟩ := Decode.addsAll_append.mp ha
      have hcut : (p ++ q).take (s.stop - 8) = p := List.take_left' (by omega)
      rw [htake (by omega), hcut]
      exact decode_cases hps had

/-- The sections of a module with one function, which does nothing. -/
def idleSections : List UInt8 :=
  framed 1 [0x04] [0x01, 0x60, 0x00, 0x00] ++
    (framed 3 [0x02] [0x01, 0x00] ++ framed 10 [0x04] [0x01, 0x02, 0x00, 0x0b])

def idle : Module where
  types := #[⟨0, 0⟩]
  functions := #[⟨0, 0, 0, 0, #[0x0b], 23⟩]

theorem sections_idle : Sections 8 idleSections
    [⟨1, 10, [0x01, 0x60, 0x00, 0x00]⟩, ⟨3, 16, [0x01, 0x00]⟩,
      ⟨10, 20, [0x01, 0x02, 0x00, 0x0b]⟩] := by
  have h4 : number 0 [0x04] 4 := ⟨4, by decide, rfl⟩
  have h2 : number 0 [0x02] 2 := ⟨2, by decide, rfl⟩
  refine (Sections.single 1 h4 8).append ?_
  exact (Sections.single 3 h2 14).append (Sections.single 10 h4 18)

/-- The binary cut in its header, in front of a size, and in front of the code section. -/
theorem decode_take_idle :
    decode (header ++ idleSections) = .ok idle ∧
      decode ((header ++ idleSections).take 5) = .error .badHeader ∧
      ¬ IsSectionEnd (header ++ idleSections) 9 ∧
      decode ((header ++ idleSections).take 9) = .error (.unexpectedEnd 9) ∧
      IsSectionEnd (header ++ idleSections) 18 ∧
      ((∃ m, decode ((header ++ idleSections).take 18) = .ok m) ∨
        (∃ a b, decode ((header ++ idleSections).take 18) = .error (.functionCount a b)) ∨
        ∃ a b, decode ((header ++ idleSections).take 18) = .error (.startFunction a b)) := by
  have hdecode : decode (header ++ idleSections) = .ok idle := by decide +kernel
  have hinside : ¬ IsSectionEnd (header ++ idleSections) 9 := by
    rintro ⟨rest, ss, heq, hs, hplace⟩
    obtain rfl := List.append_cancel_left heq
    obtain rfl := hs.unique sections_idle
    simp [RawSection.stop] at hplace
  have hend : IsSectionEnd (header ++ idleSections) 18 :=
    ⟨_, _, rfl, sections_idle, .inr ⟨⟨3, 16, [0x01, 0x00]⟩, by simp, rfl⟩⟩
  exact ⟨hdecode, (decode_take hdecode (by decide)).1 (by decide), hinside,
    (decode_take hdecode (by decide)).2.1 (by decide) hinside, hend,
    (decode_take hdecode (by decide)).2.2 hend⟩

end Module

end WasmI32
