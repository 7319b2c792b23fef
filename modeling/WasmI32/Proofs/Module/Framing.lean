import WasmI32.Proofs.Module.Denotation

/-!
# How a binary falls into sections

Behind its header a binary is a row of sections, each behind its size. Whatever follows, a row of
sections is read as these sections, so that a binary can be taken apart between any two of them. It
is not said here what a section may hold.
-/

namespace WasmI32

instance Leb128.decidableNumeral : DecidablePred Leb128.Numeral
  | [] => inferInstanceAs (Decidable False)
  | [b] => inferInstanceAs (Decidable (continues b = false))
  | b :: c :: rest =>
    have := decidableNumeral (c :: rest)
    inferInstanceAs (Decidable (continues b = true ∧ Numeral (c :: rest)))

instance Leb128.decidableUnsigned (bs : List UInt8) (v : Word) : Decidable (Unsigned bs v) :=
  decidable_of_iff (Numeral bs ∧ bs.length ≤ maxLength ∧ value 0 bs = v.toNat)
    ⟨fun h => ⟨h.1, h.2.1, h.2.2⟩, fun h => ⟨h.numeral, h.short, h.sum⟩⟩

namespace Format

variable {o : Nat} {p q bytes : List UInt8} {ps qs ss : List RawSection}

/-- Where a section ends in the binary. -/
def RawSection.stop (s : RawSection) : Nat := s.offset + s.contents.length

/-- The bytes of a section: its number, its size as it is written, and its contents. -/
def framed (id : UInt8) (size contents : List UInt8) : List UInt8 := id :: (size ++ contents)

theorem length_framed (id : UInt8) (size contents : List UInt8) :
    (framed id size contents).length = 1 + size.length + contents.length := by
  simp only [framed, List.length_cons, List.length_append]
  omega

/-- Two numbers in front of the same bytes are the same, and so are the bytes they are written
with. -/
theorem number_append_inj {o' n k : Nat} {ns ks rest tail : List UInt8} (hn : number o ns n)
    (hk : number o' ks k) (h : ns ++ rest = ks ++ tail) : ns = ks ∧ n = k := by
  obtain ⟨v, hv, rfl⟩ := hn
  obtain ⟨u, hu, rfl⟩ := hk
  have hread : Window.unsigned ⟨0, 0, ns ++ rest⟩ =
      .ok v ((⟨0, 0, ns ++ rest⟩ : Window).behind ns.length rest) :=
    Read.accepts_unsigned.run rfl hv
  have hread' : Window.unsigned ⟨0, 0, ns ++ rest⟩ =
      .ok u ((⟨0, 0, ns ++ rest⟩ : Window).behind ks.length tail) :=
    Read.accepts_unsigned.run h hu
  rw [hread] at hread'
  obtain ⟨rfl, hwindow⟩ := EStateM.Result.ok.inj hread'
  have hlength : 0 + ns.length = 0 + ks.length := congrArg Window.offset hwindow
  exact ⟨(List.append_inj h (by omega)).1, rfl⟩

theorem cons_eq_framed_append (id : UInt8) (size contents rest : List UInt8) :
    id :: (size ++ (contents ++ rest)) = framed id size contents ++ rest := by
  simp only [framed, List.cons_append, List.append_assoc]

theorem add_length_framed_append (o : Nat) (id : UInt8) (size contents rest : List UInt8) :
    o + (framed id size contents ++ rest).length =
      o + 1 + size.length + contents.length + rest.length := by
  rw [List.length_append, length_framed]
  omega

theorem Sections.single (id : UInt8) {size contents : List UInt8}
    (h : number 0 size contents.length) (o : Nat) :
    Sections o (framed id size contents) [⟨id, o + 1 + size.length, contents⟩] := by
  have hs : Sections o (id :: (size ++ (contents ++ []))) _ := .cons h .nil
  rwa [List.append_nil] at hs

theorem Sections.append (hp : Sections o p ps) (hq : Sections (o + p.length) q qs) :
    Sections o (p ++ q) (ps ++ qs) := by
  induction hp with
  | nil => exact hq
  | @cons o id size contents rest sections hsize _ ih =>
    rw [cons_eq_framed_append, add_length_framed_append] at hq
    simp only [List.cons_append, List.append_assoc]
    exact .cons hsize (ih hq)

/-- What follows a row of sections does not change how it is read. -/
theorem Sections.of_append (hp : Sections o p ps) (h : Sections o (p ++ q) ss) :
    ∃ qs, ss = ps ++ qs ∧ Sections (o + p.length) q qs := by
  induction hp generalizing ss with
  | nil => exact ⟨ss, rfl, h⟩
  | @cons o id size contents rest sections hsize _ ih =>
    generalize hbytes : id :: (size ++ (contents ++ rest)) ++ q = all at h
    simp only [List.cons_append, List.append_assoc] at hbytes
    cases h with
    | nil => cases hbytes
    | @cons _ id₁ size₁ contents₁ rest₁ sections₁ hsize₁ h =>
      obtain ⟨rfl, hinner⟩ := List.cons.inj hbytes
      obtain ⟨rfl, hlength⟩ := number_append_inj hsize hsize₁ hinner
      obtain ⟨rfl, hrest⟩ := List.append_inj (List.append_cancel_left hinner) hlength
      rw [← hrest] at h
      obtain ⟨qs, rfl, hqs⟩ := ih h
      refine ⟨qs, rfl, ?_⟩
      rwa [cons_eq_framed_append, add_length_framed_append]

theorem Sections.unique (h : Sections o bytes ss) (h' : Sections o bytes ps) : ss = ps := by
  rw [← List.append_nil bytes] at h'
  obtain ⟨qs, rfl, hqs⟩ := h.of_append h'
  cases hqs
  rw [List.append_nil]

/-- A binary can be taken apart behind each of its sections. -/
theorem Sections.split (h : Sections o bytes ss) {s : RawSection} (hs : s ∈ ss) :
    ∃ p q ps qs, bytes = p ++ q ∧ ss = ps ++ qs ∧ Sections o p ps ∧ o + p.length = s.stop := by
  induction h with
  | nil => cases hs
  | @cons o id size contents rest sections hsize hrest ih =>
    have hfirst := Sections.single id hsize o
    rw [cons_eq_framed_append]
    cases hs with
    | head =>
      refine ⟨_, rest, [_], sections, rfl, rfl, hfirst, ?_⟩
      simp only [length_framed, RawSection.stop]
      omega
    | tail _ hs =>
      obtain ⟨p, q, ps, qs, rfl, rfl, hp, hstop⟩ := ih hs
      refine ⟨framed id size contents ++ p, q, _ :: ps, qs, ?_, rfl, ?_, ?_⟩
      · rw [List.append_assoc]
      · refine hfirst.append ?_
        rw [length_framed]
        convert hp using 1
        omega
      · rw [List.length_append, length_framed, ← hstop]
        omega

/-- The sections of a row lie in it, behind their numbers and sizes. -/
theorem Sections.bounds (h : Sections o bytes ss) {s : RawSection} (hs : s ∈ ss) :
    o < s.offset ∧ s.stop ≤ o + bytes.length := by
  induction h with
  | nil => cases hs
  | @cons o id size contents rest sections hsize hrest ih =>
    simp only [List.length_cons, List.length_append]
    cases hs with
    | head =>
      simp only [RawSection.stop]
      omega
    | tail _ hs =>
      have hbounds := ih hs
      omega

end Format

open Format

theorem Decode.addsAll_append {d d' : Draft} {ps qs : List RawSection} :
    AddsAll d (ps ++ qs) d' ↔ ∃ d₁, AddsAll d ps d₁ ∧ AddsAll d₁ qs d' := by
  induction ps generalizing d with
  | nil =>
    constructor
    · exact fun h => ⟨d, .nil, h⟩
    · rintro ⟨d₁, hnil, h⟩
      cases hnil
      exact h
  | cons s ps ih =>
    constructor
    · intro h
      cases h with
      | cons ha ht =>
        obtain ⟨d₁, hps, hqs⟩ := ih.mp ht
        exact ⟨d₁, .cons ha hps, hqs⟩
    · rintro ⟨d₁, hps, hqs⟩
      cases hps with
      | cons ha ht => exact .cons ha (ih.mpr ⟨d₁, ht, hqs⟩)

end WasmI32
