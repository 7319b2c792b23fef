import WasmI32.Proofs.Leb128

/-!
# Shortest numerals

A number has many numerals, for zeros, or ones if it is negative, may be put over its highest digit.
Of these there is one for each length, and the encoders write the shortest.
-/

namespace WasmI32.Leb128

variable {b c : UInt8} {bs cs : List UInt8} {v : Word}

/-! ## One numeral for each length -/

theorem eq_of_digit (hc : continues b = continues c) (hd : digit b = digit c) : b = c := by
  have hb := UInt8.toNat_lt b
  have hc' := UInt8.toNat_lt c
  apply UInt8.toNat_inj.mp
  simp only [continues_eq, digit, decide_eq_decide] at hc hd
  omega

theorem Numeral.eq_of_value (hb : Numeral bs) (hc : Numeral cs) (hl : bs.length = cs.length)
    (hv : value 0 bs = value 0 cs) : bs = cs := by
  induction bs generalizing cs with
  | nil => exact hb.elim
  | cons b bs ih =>
    obtain ⟨c, cs, rfl⟩ := List.exists_cons_of_ne_nil hc.ne_nil
    have hlength : bs.length = cs.length := Nat.succ.inj hl
    have hb' := digit_lt b
    have hc' := digit_lt c
    rw [value_cons, value_cons] at hv
    have hdigit : digit b = digit c := by omega
    cases bs with
    | nil =>
      obtain rfl : cs = [] := List.length_eq_zero_iff.mp hlength.symm
      rw [eq_of_digit (Eq.trans hb (Eq.symm hc)) hdigit]
    | cons b₁ bs =>
      obtain ⟨c₁, cs, rfl⟩ := List.exists_cons_of_length_eq_add_one hlength.symm
      rw [eq_of_digit (hb.1.trans hc.1.symm) hdigit, ih hb.2 hc.2 hlength (by omega)]

/-- In two's complement the sign is no second choice: it is told by the value. -/
theorem value_eq_of_signedValue (hl : bs.length = cs.length)
    (hv : signedValue bs = signedValue cs) : value 0 bs = value 0 cs := by
  have hb := value_lt bs
  have hc := value_lt cs
  unfold signedValue at hv
  rw [hl] at hb hv
  have hpow : ((128 ^ cs.length : Nat) : Int) = 128 ^ cs.length := by push_cast; rfl
  rw [← hpow] at hv
  split at hv <;> split at hv <;> omega

/-! ## The encoders write the shortest -/

/-- `short` is no longer than `bs`, and is `bs` if it is as long. -/
structure Shortens (short bs : List UInt8) : Prop where
  length_le : short.length ≤ bs.length
  eq_of_length_eq : short.length = bs.length → short = bs

theorem Shortens.refl (bs : List UInt8) : Shortens bs bs := ⟨Nat.le_refl _, fun _ => rfl⟩

theorem Shortens.append {short short' : List UInt8} (h : Shortens short bs)
    (h' : Shortens short' cs) : Shortens (short ++ short') (bs ++ cs) := by
  have hle := h.length_le
  have hle' := h'.length_le
  constructor
  · rw [List.length_append, List.length_append]
    omega
  · intro hl
    rw [List.length_append, List.length_append] at hl
    rw [h.eq_of_length_eq (by omega), h'.eq_of_length_eq (by omega)]

theorem length_unsignedBytes_le (limit : Nat) (hn : Numeral bs) (hv : value 0 bs = v.toNat) :
    (unsignedBytes limit v).length ≤ bs.length := by
  induction limit generalizing v bs with
  | zero => exact Nat.zero_le _
  | succ limit ih =>
    have hshift := toNat_ushiftRight_seven v
    obtain ⟨b, bs, rfl⟩ := List.exists_cons_of_ne_nil hn.ne_nil
    have hb := digit_lt b
    rw [value_cons] at hv
    rw [unsignedBytes]
    by_cases hz : v >>> 7 = 0
    · simp [hz]
    · simp only [hz, if_false, List.length_cons]
      cases bs with
      | nil =>
        -- a single digit leaves nothing over it
        refine absurd (BitVec.eq_of_toNat_eq ?_) hz
        simp [value] at hv hshift ⊢
        omega
      | cons c cs =>
        have hle := ih (v := v >>> 7) hn.2 (by omega)
        omega

theorem length_signedBytes_le (limit : Nat) (hn : Numeral bs) (hv : signedValue bs = v.toInt) :
    (signedBytes limit v).length ≤ bs.length := by
  induction limit generalizing v bs with
  | zero => exact Nat.zero_le _
  | succ limit ih =>
    have hshift := toInt_sshiftRight_seven v
    rw [signedBytes]
    by_cases hs : signSettled v (v.sshiftRight 7) = true
    · rw [if_pos hs]
      exact List.length_pos_of_ne_nil hn.ne_nil
    · rw [if_neg hs]
      rw [signSettled_iff] at hs
      obtain ⟨b, bs, rfl⟩ := List.exists_cons_of_ne_nil hn.ne_nil
      cases bs with
      | nil =>
        -- a single digit settles the sign
        have hrange := signedValue_range hn
        simp at hrange
        omega
      | cons c cs =>
        have hb := digit_lt b
        rw [signedValue_cons b (List.cons_ne_nil c cs)] at hv
        have hle := ih (v := v.sshiftRight 7) hn.2 (by omega)
        simp only [List.length_cons] at hle ⊢
        omega

theorem Unsigned.shortens (h : Unsigned bs v) : Shortens (encodeUnsigned v) bs := by
  have he := unsigned_encodeUnsigned v
  refine ⟨length_unsignedBytes_le maxLength h.numeral h.sum, fun hl => ?_⟩
  exact he.numeral.eq_of_value h.numeral hl (he.sum.trans h.sum.symm)

theorem Signed.shortens (h : Signed bs v) : Shortens (encodeSigned v) bs := by
  have he := signed_encodeSigned v
  refine ⟨length_signedBytes_le maxLength h.numeral h.sum, fun hl => ?_⟩
  exact he.numeral.eq_of_value h.numeral hl
    (value_eq_of_signedValue hl (he.sum.trans h.sum.symm))

end WasmI32.Leb128
