import Mathlib
import WasmI32.Text.Utf8

/-!
# Reading text back

Reading with replacement is the inverse of writing UTF-8: text comes back as it was. Nothing is said
of bytes that are not UTF-8.
-/

namespace WasmI32.Utf8

variable {done : String} {rest : List UInt8} {p : Pending} {n : Nat}

theorem toNat_ofNat {k : Nat} (h : k < 256) : (UInt8.ofNat k).toNat = k := by
  rw [UInt8.toNat_ofNat']
  exact Nat.mod_eq_of_lt h

/-! ## Bytes behind the first one -/

/-- A byte goes on with a character that has started. -/
structure Continues (p : Pending) (k : Nat) : Prop where
  lowest : p.lowest.toNat ≤ k % 64 + 0x80
  highest : k % 64 + 0x80 ≤ p.highest.toNat

theorem continues_next (bits missing k : Nat) : Continues ⟨bits, missing, 0x80, 0xbf⟩ k := by
  constructor
  · exact Nat.le_add_left 128 (k % 64)
  · have hlt : k % 64 < 64 := Nat.mod_lt k (by decide)
    have hhigh : (0xbf : UInt8).toNat = 191 := rfl
    simp only [hhigh]
    omega

theorem Continues.bounds {k : Nat} (h : Continues p k) :
    p.lowest ≤ UInt8.ofNat (k % 64 + 0x80) ∧ UInt8.ofNat (k % 64 + 0x80) ≤ p.highest := by
  have hbyte : (UInt8.ofNat (k % 64 + 0x80)).toNat = k % 64 + 0x80 := toNat_ofNat (by omega)
  rw [UInt8.le_iff_toNat_le, UInt8.le_iff_toNat_le, hbyte]
  exact ⟨h.lowest, h.highest⟩

theorem bits_add (bits k : Nat) :
    bits * 64 + ((UInt8.ofNat (k % 64 + 0x80)).toNat - 0x80) = bits * 64 + k % 64 := by
  rw [toNat_ofNat (by omega), Nat.add_sub_cancel]

theorem decodeFrom_last {k : Nat} (h : Continues p k) (hm : p.missing = 1) :
    decodeFrom (some p) done (UInt8.ofNat (k % 64 + 0x80) :: rest) =
      decodeFrom none (done.push (Char.ofNat (p.bits * 64 + k % 64))) rest := by
  rw [decodeFrom, if_pos h.bounds, if_pos (by omega), bits_add]

theorem decodeFrom_inner {k : Nat} (h : Continues p k) (hm : p.missing = n + 2) :
    decodeFrom (some p) done (UInt8.ofNat (k % 64 + 0x80) :: rest) =
      decodeFrom (some ⟨p.bits * 64 + k % 64, n + 1, 0x80, 0xbf⟩) done rest := by
  rw [decodeFrom, if_pos h.bounds, if_neg (by omega), bits_add, hm]
  rfl

/-! ## First bytes -/

/-- A byte starts a character with the given bits, and `k` may come next. -/
def Starts (b : UInt8) (bits missing k : Nat) : Prop :=
  ∃ p, lead b = .pending p ∧ p.bits = bits ∧ p.missing = missing ∧ Continues p k

theorem starts_two {v : Nat} (h : 0x7f < v) (h' : v ≤ 0x7ff) :
    Starts (UInt8.ofNat (v / 64 % 0x20 + 0xc0)) (v / 64) 1 v := by
  have hbits : v / 64 % 0x20 + 0xc0 - 0xc0 = v / 64 := by omega
  refine ⟨⟨v / 64, 1, 0x80, 0xbf⟩, ?_, rfl, rfl, continues_next _ _ _⟩
  unfold lead
  simp only
  rw [toNat_ofNat (by omega), if_neg (by omega), if_neg (by omega), if_pos (by omega), hbits]

theorem starts_three {v : Nat} (h : 0x7ff < v) (h' : v ≤ 0xffff) (hv : v < 0xd800 ∨ 0xdfff < v) :
    Starts (UInt8.ofNat (v / 4096 % 0x10 + 0xe0)) (v / 4096) 2 (v / 64) := by
  unfold Starts lead
  simp only
  rw [toNat_ofNat (by omega), if_neg (by omega), if_neg (by omega), if_neg (by omega)]
  -- two first bytes leave no room for numbers that are too small and for surrogates
  by_cases hlow : v / 4096 % 0x10 + 0xe0 = 0xe0
  · rw [if_pos hlow]
    exact ⟨_, rfl, by simp only; omega, rfl, by change 160 ≤ _; omega, by change _ ≤ 191; omega⟩
  rw [if_neg hlow]
  by_cases hsurrogate : v / 4096 % 0x10 + 0xe0 = 0xed
  · rw [if_pos hsurrogate]
    exact ⟨_, rfl, by simp only; omega, rfl, by change 128 ≤ _; omega, by change _ ≤ 159; omega⟩
  rw [if_neg hsurrogate, if_pos (by omega)]
  exact ⟨_, rfl, by simp only; omega, rfl, continues_next _ _ _⟩

theorem starts_four {v : Nat} (h : 0xffff < v) (h' : v < 0x110000) :
    Starts (UInt8.ofNat (v / 262144 % 0x08 + 0xf0)) (v / 262144) 3 (v / 4096) := by
  unfold Starts lead
  simp only
  rw [toNat_ofNat (by omega), if_neg (by omega), if_neg (by omega), if_neg (by omega),
    if_neg (by omega), if_neg (by omega), if_neg (by omega)]
  by_cases hlow : v / 262144 % 0x08 + 0xf0 = 0xf0
  · rw [if_pos hlow]
    exact ⟨_, rfl, by simp only; omega, rfl, by change 144 ≤ _; omega, by change _ ≤ 191; omega⟩
  rw [if_neg hlow]
  by_cases hinner : v / 262144 % 0x08 + 0xf0 < 0xf4
  · rw [if_pos hinner]
    exact ⟨_, rfl, by simp only; omega, rfl, continues_next _ _ _⟩
  rw [if_neg hinner, if_pos (by omega)]
  exact ⟨_, rfl, by simp only; omega, rfl, by change 128 ≤ _; omega, by change _ ≤ 143; omega⟩

theorem decodeFrom_pending {b : UInt8} (h : lead b = .pending p) :
    decodeFrom none done (b :: rest) = decodeFrom (some p) done rest := by
  rw [decodeFrom, h]

/-! ## Characters and texts -/

theorem decodeFrom_one {v : Nat} (h : v ≤ 0x7f) :
    decodeFrom none done (UInt8.ofNat v :: rest) =
      decodeFrom none (done.push (Char.ofNat v)) rest := by
  have hlead : lead (UInt8.ofNat v) = .complete (Char.ofNat v) := by
    unfold lead
    simp only
    rw [toNat_ofNat (by omega), if_pos (by omega)]
  rw [decodeFrom, hlead]

theorem decodeFrom_two {v : Nat} (h : 0x7f < v) (h' : v ≤ 0x7ff) :
    decodeFrom none done (UInt8.ofNat (v / 64 % 0x20 + 0xc0) ::
      UInt8.ofNat (v % 64 + 0x80) :: rest) =
      decodeFrom none (done.push (Char.ofNat v)) rest := by
  obtain ⟨p, hlead, hbits, hmissing, hnext⟩ := starts_two h h'
  have hv : v / 64 * 64 + v % 64 = v := by omega
  rw [decodeFrom_pending hlead, decodeFrom_last hnext hmissing, hbits, hv]

theorem decodeFrom_three {v : Nat} (h : 0x7ff < v) (h' : v ≤ 0xffff)
    (hvalid : v < 0xd800 ∨ 0xdfff < v) :
    decodeFrom none done (UInt8.ofNat (v / 4096 % 0x10 + 0xe0) ::
      UInt8.ofNat (v / 64 % 64 + 0x80) :: UInt8.ofNat (v % 64 + 0x80) :: rest) =
      decodeFrom none (done.push (Char.ofNat v)) rest := by
  obtain ⟨p, hlead, hbits, hmissing, hnext⟩ := starts_three h h' hvalid
  have hv : (v / 4096 * 64 + v / 64 % 64) * 64 + v % 64 = v := by omega
  rw [decodeFrom_pending hlead, decodeFrom_inner hnext hmissing,
    decodeFrom_last (continues_next _ _ v) rfl, hbits, hv]

theorem decodeFrom_four {v : Nat} (h : 0xffff < v) (h' : v < 0x110000) :
    decodeFrom none done (UInt8.ofNat (v / 262144 % 0x08 + 0xf0) ::
      UInt8.ofNat (v / 4096 % 64 + 0x80) :: UInt8.ofNat (v / 64 % 64 + 0x80) ::
      UInt8.ofNat (v % 64 + 0x80) :: rest) =
      decodeFrom none (done.push (Char.ofNat v)) rest := by
  obtain ⟨p, hlead, hbits, hmissing, hnext⟩ := starts_four h h'
  have hv : ((v / 262144 * 64 + v / 4096 % 64) * 64 + v / 64 % 64) * 64 + v % 64 = v := by omega
  rw [decodeFrom_pending hlead, decodeFrom_inner hnext hmissing,
    decodeFrom_inner (continues_next _ _ (v / 64)) rfl, decodeFrom_last (continues_next _ _ v) rfl,
    hbits, hv]

theorem decodeFrom_char (c : Char) :
    decodeFrom none done (String.utf8EncodeChar c ++ rest) =
      decodeFrom none (done.push c) rest := by
  have hvalid : c.val.toNat < 0xd800 ∨ 0xdfff < c.val.toNat ∧ c.val.toNat < 0x110000 := c.valid
  have hc : Char.ofNat c.val.toNat = c := Char.ofNat_toNat c
  rw [String.utf8EncodeChar]
  by_cases h1 : c.val.toNat ≤ 0x7f
  · simp only [if_pos h1, List.cons_append, List.nil_append]
    rw [decodeFrom_one h1, hc]
  by_cases h2 : c.val.toNat ≤ 0x7ff
  · simp only [if_neg h1, if_pos h2, List.cons_append, List.nil_append]
    rw [decodeFrom_two (by omega) h2, hc]
  by_cases h3 : c.val.toNat ≤ 0xffff
  · simp only [if_neg h1, if_neg h2, if_pos h3, List.cons_append, List.nil_append]
    rw [decodeFrom_three (by omega) h3 (by omega), hc]
  · simp only [if_neg h1, if_neg h2, if_neg h3, List.cons_append, List.nil_append]
    rw [decodeFrom_four (by omega) (by omega), hc]

theorem decodeFrom_flatMap (cs : List Char) :
    decodeFrom none done (cs.flatMap String.utf8EncodeChar) = done ++ String.ofList cs := by
  induction cs generalizing done with
  | nil => simp [decodeFrom]
  | cons c cs ih =>
    rw [List.flatMap_cons, decodeFrom_char, ih, ← String.toList_inj]
    simp

/-- Text is read back from its bytes. -/
theorem decodeLossy_toUTF8 (s : String) : decodeLossy s.toUTF8.data.toList = s := by
  have hbytes : s.toUTF8.data.toList = s.toList.flatMap String.utf8EncodeChar := by
    rw [String.toUTF8_eq_toByteArray, ← String.utf8Encode_toList]
    simp [List.utf8Encode]
  rw [decodeLossy, hbytes, decodeFrom_flatMap, String.ofList_toList, String.empty_append]

end WasmI32.Utf8
