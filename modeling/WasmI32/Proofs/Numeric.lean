import WasmI32.Proofs.LinearMemory

/-!
# Computations on words in exact integers

What the numeric instructions answer is told here by the integers that words stand for, with and
without a sign, and by their bits: an answer is a congruence, a quotient or a bit at a place. Each
answer is one word, the instructions compute it, and they fail where there is none.
-/

namespace WasmI32

variable {a b r v : Word}

/-! ## What has to be answered -/

/-- The answer `r` of an operation on `v`. -/
def UnaryOp.Answers : UnaryOp → Word → Word → Prop
  | eqz, v, r => r.toNat = if v.toNat = 0 then 1 else 0
  | clz, v, r => IsGreatest {n | n ≤ 32 ∧ ∀ j < n, v.getLsbD (31 - j) = false} r.toNat
  | ctz, v, r => IsGreatest {n | n ≤ 32 ∧ ∀ j < n, v.getLsbD j = false} r.toNat
  | popcnt, v, r => r.toNat = ((Finset.range 32).filter fun j => v.getLsbD j = true).card

/-- The order that a comparison asks for, of integers with or without a sign. -/
def Comparison.Relates : Comparison → Word → Word → Prop
  | eq, a, b => a.toNat = b.toNat
  | ne, a, b => a.toNat ≠ b.toNat
  | ltS, a, b => a.toInt < b.toInt
  | ltU, a, b => a.toNat < b.toNat
  | gtS, a, b => a.toInt > b.toInt
  | gtU, a, b => a.toNat > b.toNat
  | leS, a, b => a.toInt ≤ b.toInt
  | leU, a, b => a.toNat ≤ b.toNat
  | geS, a, b => a.toInt ≥ b.toInt
  | geU, a, b => a.toNat ≥ b.toNat

namespace BinaryOp

/-- Where an operation has no answer. -/
def FailsOn : BinaryOp → Word → Word → ArithmeticFault → Prop
  | divS, _, b, .divisionByZero => b.toInt = 0
  | divS, a, b, .integerOverflow => a.toInt = -2 ^ 31 ∧ b.toInt = -1
  | remS, _, b, .divisionByZero => b.toInt = 0
  | divU, _, b, .divisionByZero => b.toNat = 0
  | remU, _, b, .divisionByZero => b.toNat = 0
  | _, _, _, _ => False

/-- The answer `r` of an operation on `a` and `b`, where it has one. -/
def Answers : BinaryOp → Word → Word → Word → Prop
  | add, a, b, r => (r.toNat : ℤ) ≡ a.toNat + b.toNat [ZMOD 2 ^ 32]
  | sub, a, b, r => (r.toNat : ℤ) ≡ a.toNat - b.toNat [ZMOD 2 ^ 32]
  | mul, a, b, r => (r.toNat : ℤ) ≡ a.toNat * b.toNat [ZMOD 2 ^ 32]
  | divS, a, b, r => r.toInt = a.toInt.tdiv b.toInt
  | remS, a, b, r => a.toInt = b.toInt * a.toInt.tdiv b.toInt + r.toInt ∧ |r.toInt| < |b.toInt| ∧
      (r.toInt = 0 ∨ r.toInt.sign = a.toInt.sign)
  | divU, a, b, r => ∃ t < b.toNat, a.toNat = b.toNat * r.toNat + t
  | remU, a, b, r => r.toNat < b.toNat ∧ ∃ q, a.toNat = b.toNat * q + r.toNat
  | and, a, b, r => ∀ j < 32, r.getLsbD j = (a.getLsbD j && b.getLsbD j)
  | or, a, b, r => ∀ j < 32, r.getLsbD j = (a.getLsbD j || b.getLsbD j)
  | xor, a, b, r => ∀ j < 32, r.getLsbD j = (a.getLsbD j ^^ b.getLsbD j)
  | shl, a, b, r => r.toNat = a.toNat * 2 ^ (b.toNat % 32) % 2 ^ 32
  | shrS, a, b, r => r.toInt = a.toInt.fdiv (2 ^ (b.toNat % 32))
  | shrU, a, b, r => r.toNat = a.toNat / 2 ^ (b.toNat % 32)
  | rotl, a, b, r => ∀ j < 32, r.getLsbD j = a.getLsbD ((j + 32 - b.toNat % 32) % 32)
  | rotr, a, b, r => ∀ j < 32, r.getLsbD j = a.getLsbD ((j + b.toNat % 32) % 32)

end BinaryOp

namespace Word

/-! ## Arithmetic -/

theorem eq_iff_modEq {x : Word} {z : ℤ} (h : (x.toNat : ℤ) ≡ z [ZMOD 2 ^ 32]) :
    x = r ↔ (r.toNat : ℤ) ≡ z [ZMOD 2 ^ 32] := by
  constructor
  · rintro rfl
    exact h
  · intro hr
    have hmod : (x.toNat : ℤ) % 2 ^ 32 = r.toNat % 2 ^ 32 := h.trans hr.symm
    have hx := x.isLt
    have hr' := r.isLt
    apply BitVec.eq_of_toNat_eq
    omega

theorem add_eq_iff : a + b = r ↔ BinaryOp.add.Answers a b r := by
  refine eq_iff_modEq ?_
  rw [BitVec.toNat_add]
  exact_mod_cast Nat.mod_modEq _ _

theorem sub_eq_iff : a - b = r ↔ BinaryOp.sub.Answers a b r := by
  refine eq_iff_modEq ?_
  have hb := b.isLt
  rw [BitVec.toNat_sub, Int.ModEq]
  omega

theorem mul_eq_iff : a * b = r ↔ BinaryOp.mul.Answers a b r := by
  refine eq_iff_modEq ?_
  rw [BitVec.toNat_mul]
  exact_mod_cast Nat.mod_modEq _ _

theorem sdiv_eq_iff (h : ¬(a = BitVec.intMin 32 ∧ b = BitVec.allOnes 32)) :
    a.sdiv b = r ↔ BinaryOp.divS.Answers a b r := by
  have hdiv : (a.sdiv b).toInt = a.toInt.tdiv b.toInt :=
    BitVec.toInt_sdiv_of_ne_or_ne a b (not_and_or.mp h)
  rw [BinaryOp.Answers, ← hdiv, ← BitVec.toInt_inj, eq_comm]

theorem srem_eq_iff (hb : b.toInt ≠ 0) : a.srem b = r ↔ BinaryOp.remS.Answers a b r := by
  have hsum := Int.mul_tdiv_add_tmod a.toInt b.toInt
  constructor
  · rintro rfl
    rw [BinaryOp.Answers, BitVec.toInt_srem]
    have hlt : |a.toInt.tmod b.toInt| < |b.toInt| := by
      rw [Int.abs_eq_natAbs, Int.abs_eq_natAbs, Int.natAbs_tmod]
      exact_mod_cast Nat.mod_lt _ (Int.natAbs_pos.mpr hb)
    refine ⟨hsum.symm, hlt, ?_⟩
    by_cases hdvd : b.toInt ∣ a.toInt
    · exact .inl (Int.tmod_eq_zero_of_dvd hdvd)
    · exact .inr (by rw [Int.sign_tmod, if_neg hdvd])
  · -- the sum alone tells the remainder
    rintro ⟨hr, -, -⟩
    apply BitVec.eq_of_toInt_eq
    rw [BitVec.toInt_srem]
    omega

theorem udiv_eq_iff (hb : b.toNat ≠ 0) : a / b = r ↔ BinaryOp.divU.Answers a b r := by
  have hpos : 0 < b.toNat := Nat.pos_of_ne_zero hb
  constructor
  · rintro rfl
    refine ⟨a.toNat % b.toNat, Nat.mod_lt _ hpos, ?_⟩
    rw [BitVec.toNat_udiv, Nat.div_add_mod]
  · rintro ⟨t, ht, hsum⟩
    apply BitVec.eq_of_toNat_eq
    rw [BitVec.toNat_udiv, hsum, Nat.mul_add_div hpos, Nat.div_eq_of_lt ht, Nat.add_zero]

theorem umod_eq_iff (hb : b.toNat ≠ 0) : a % b = r ↔ BinaryOp.remU.Answers a b r := by
  constructor
  · rintro rfl
    rw [BinaryOp.Answers, BitVec.toNat_umod]
    exact ⟨Nat.mod_lt _ (Nat.pos_of_ne_zero hb), _, (Nat.div_add_mod _ _).symm⟩
  · rintro ⟨hlt, q, hsum⟩
    apply BitVec.eq_of_toNat_eq
    rw [BitVec.toNat_umod, hsum, Nat.mul_add_mod, Nat.mod_eq_of_lt hlt]

/-! ## Bits -/

theorem eq_iff_bits {x : Word} {bit : Nat → Bool} (h : ∀ j < 32, x.getLsbD j = bit j) :
    x = r ↔ ∀ j < 32, r.getLsbD j = bit j := by
  rw [BitVec.eq_of_getLsbD_eq_iff]
  refine forall₂_congr fun j hj => ?_
  rw [h j hj, eq_comm]

theorem shl_eq_iff : a <<< BinaryOp.distance b = r ↔ BinaryOp.shl.Answers a b r := by
  rw [BinaryOp.Answers, ← BitVec.toNat_inj, BitVec.toNat_shiftLeft, Nat.shiftLeft_eq, eq_comm]
  rfl

theorem shrU_eq_iff : a >>> BinaryOp.distance b = r ↔ BinaryOp.shrU.Answers a b r := by
  rw [BinaryOp.Answers, ← BitVec.toNat_inj, BitVec.toNat_ushiftRight, Nat.shiftRight_eq_div_pow,
    eq_comm]
  rfl

theorem shrS_eq_iff : a.sshiftRight (BinaryOp.distance b) = r ↔ BinaryOp.shrS.Answers a b r := by
  rw [BinaryOp.Answers, Int.fdiv_eq_ediv_of_nonneg _ (by positivity), ← BitVec.toInt_inj,
    BitVec.toInt_sshiftRight, Int.shiftRight_eq_div_pow, eq_comm]
  push_cast
  rfl

theorem getLsbD_rotateLeft {k j : Nat} (hk : k < 32) (hj : j < 32) :
    (a.rotateLeft k).getLsbD j = a.getLsbD ((j + 32 - k) % 32) := by
  rw [BitVec.getLsbD_rotateLeft_of_le hk]
  by_cases h : j < k
  · have hplace : (j + 32 - k) % 32 = 32 - k + j := by omega
    simp [h, hplace]
  · have hplace : (j + 32 - k) % 32 = j - k := by omega
    simp [h, hj, hplace]

theorem getLsbD_rotateRight {k j : Nat} (hk : k < 32) (hj : j < 32) :
    (a.rotateRight k).getLsbD j = a.getLsbD ((j + k) % 32) := by
  rw [BitVec.getLsbD_rotateRight_of_lt hk]
  by_cases h : j < 32 - k
  · have hplace : (j + k) % 32 = k + j := by omega
    simp [h, hplace]
  · have hplace : (j + k) % 32 = j - (32 - k) := by omega
    simp [h, hj, hplace]

theorem rotateRight_rotateLeft {k : Nat} (hk : k < 32) : (a.rotateLeft k).rotateRight k = a := by
  apply BitVec.eq_of_getLsbD_eq
  intro j hj
  rw [getLsbD_rotateRight hk hj, getLsbD_rotateLeft hk (Nat.mod_lt _ (by decide))]
  congr 1
  omega

/-! ## Counting bits -/

theorem isGreatest_clz (v : Word) :
    IsGreatest {n | n ≤ 32 ∧ ∀ j < n, v.getLsbD (31 - j) = false} v.clz.toNat := by
  have hle : v.clz.toNat ≤ 32 := BitVec.le_def.mp BitVec.clz_le
  refine ⟨⟨hle, fun j hj => ?_⟩, ?_⟩
  · have hlt : v.toNat < 2 ^ (31 - j) :=
      BitVec.toNat_lt_two_pow_sub_clz.trans_le (Nat.pow_le_pow_right (by decide) (by omega))
    exact Nat.testBit_lt_two_pow hlt
  · -- more zeros than the count would reach over the highest one
    rintro n ⟨hn, hzero⟩
    by_contra hlt
    have hv : v ≠ 0#32 := BitVec.clz_lt_iff_ne_zero.mp (BitVec.lt_def.mpr (by simp; omega))
    have hone := BitVec.getLsbD_true_clz_of_ne_zero (by decide) hv
    rw [hzero _ (by omega)] at hone
    cases hone

theorem isGreatest_ctz (v : Word) :
    IsGreatest {n | n ≤ 32 ∧ ∀ j < n, v.getLsbD j = false} v.ctz.toNat := by
  have hle : v.ctz.toNat ≤ 32 := by
    rw [BitVec.ctz_eq_reverse_clz]
    exact BitVec.le_def.mp BitVec.clz_le
  refine ⟨⟨hle, fun j hj => BitVec.getLsbD_false_of_lt_ctz hj⟩, ?_⟩
  rintro n ⟨hn, hzero⟩
  by_contra hlt
  have hv : v ≠ 0#32 := BitVec.ctz_lt_iff_ne_zero.mp (BitVec.lt_def.mpr (by simp; omega))
  have hone := BitVec.getLsbD_true_ctz_of_ne_zero hv
  rw [hzero _ (by omega)] at hone
  cases hone

theorem cpopNatRec_eq_card (v : Word) (n : Nat) :
    v.cpopNatRec n 0 = ((Finset.range n).filter fun j => v.getLsbD j = true).card := by
  induction n with
  | zero => rfl
  | succ n ih =>
    rw [BitVec.cpopNatRec_succ, BitVec.cpopNatRec_eq, ih, Finset.range_add_one,
      Finset.filter_insert]
    cases v.getLsbD n <;> simp

theorem eq_iff_isGreatest {x : Word} {S : Set ℕ} (h : IsGreatest S x.toNat) :
    x = r ↔ IsGreatest S r.toNat := by
  constructor
  · rintro rfl
    exact h
  · intro hr
    exact BitVec.eq_of_toNat_eq (h.unique hr)

theorem toNat_ofBool (c : Bool) : (Word.ofBool c).toNat = if c then 1 else 0 := by
  cases c <;> rfl

end Word

/-! ## Operations -/

theorem UnaryOp.apply_eq_iff (op : UnaryOp) : op.apply v = r ↔ op.Answers v r := by
  cases op with
  | eqz =>
    have hzero : v = 0 ↔ v.toNat = 0 := BitVec.toNat_inj.symm
    rw [apply, Answers, ← BitVec.toNat_inj, Word.toNat_ofBool, eq_comm]
    simp only [decide_eq_true_eq, hzero]
  | clz => exact Word.eq_iff_isGreatest (Word.isGreatest_clz v)
  | ctz => exact Word.eq_iff_isGreatest (Word.isGreatest_ctz v)
  | popcnt =>
    rw [apply, Answers, ← BitVec.toNat_inj, BitVec.toNat_cpop, Word.cpopNatRec_eq_card, eq_comm]

theorem Comparison.holds_iff (op : Comparison) : op.holds a b = true ↔ op.Relates a b := by
  cases op with
  | eq => rw [holds, decide_eq_true_eq, Relates, BitVec.toNat_inj]
  | ne => rw [holds, decide_eq_true_eq, Relates, ne_eq, ne_eq, BitVec.toNat_inj]
  | ltS => exact BitVec.slt_iff_toInt_lt
  | ltU => exact BitVec.ult_iff_toNat_lt
  | gtS => exact BitVec.slt_iff_toInt_lt
  | gtU => exact BitVec.ult_iff_toNat_lt
  | leS => exact BitVec.sle_iff_toInt_le
  | leU => exact BitVec.ule_iff_toNat_le
  | geS => exact BitVec.sle_iff_toInt_le
  | geU => exact BitVec.ule_iff_toNat_le

namespace BinaryOp

theorem toInt_eq_zero_iff : b.toInt = 0 ↔ b = 0 := by
  rw [← BitVec.toInt_inj]
  rfl

theorem toNat_eq_zero_iff : b.toNat = 0 ↔ b = 0 := by
  rw [← BitVec.toNat_inj]
  rfl

theorem overflows_iff :
    a = BitVec.intMin 32 ∧ b = BitVec.allOnes 32 ↔ a.toInt = -2 ^ 31 ∧ b.toInt = -1 := by
  rw [← BitVec.toInt_inj, ← BitVec.toInt_inj]
  rfl

/-- A division that fails only for a divisor of zero. -/
theorem guarded_eq_error_iff {c : Prop} [Decidable c] {x : Word} {f : ArithmeticFault} :
    (if c then .error .divisionByZero else .ok x : Except ArithmeticFault Word) = .error f ↔
      c ∧ f = .divisionByZero := by
  split <;> simp [*, eq_comm]

/-- An operation fails where it has no answer. -/
theorem apply_eq_error_iff (op : BinaryOp) {f : ArithmeticFault} :
    op.apply a b = .error f ↔ op.FailsOn a b f := by
  cases op with
  | divS =>
    simp only [apply, overflows_iff, ← toInt_eq_zero_iff]
    by_cases hb : b.toInt = 0
    · rw [if_pos hb]
      cases f <;> simp [FailsOn, hb]
    · -- minus one is not zero, so that there is one fault at most
      rw [if_neg hb]
      by_cases ho : a.toInt = -2 ^ 31 ∧ b.toInt = -1
      · rw [if_pos ho]
        cases f <;> simp [FailsOn, ho]
      · rw [if_neg ho]
        cases f <;> simp only [FailsOn, hb, ho, reduceCtorEq]
  | remS =>
    rw [apply, guarded_eq_error_iff, ← toInt_eq_zero_iff]
    cases f <;> simp [FailsOn]
  | divU =>
    rw [apply, guarded_eq_error_iff, ← toNat_eq_zero_iff]
    cases f <;> simp [FailsOn]
  | remU =>
    rw [apply, guarded_eq_error_iff, ← toNat_eq_zero_iff]
    cases f <;> simp [FailsOn]
  | _ => cases f <;> simp [apply, FailsOn]

theorem distance_lt (b : Word) : distance b < 32 := Nat.mod_lt _ (by decide)

/-- Elsewhere it gives the answer. -/
theorem apply_eq_ok_iff (op : BinaryOp) (h : ∀ f, ¬op.FailsOn a b f) :
    op.apply a b = .ok r ↔ op.Answers a b r := by
  have hk := distance_lt b
  cases op with
  | add => rw [apply, Except.ok.injEq, Word.add_eq_iff]
  | sub => rw [apply, Except.ok.injEq, Word.sub_eq_iff]
  | mul => rw [apply, Except.ok.injEq, Word.mul_eq_iff]
  | divS =>
    have hb : ¬b = 0 := fun hb => h .divisionByZero (toInt_eq_zero_iff.mpr hb)
    have ho : ¬(a = BitVec.intMin 32 ∧ b = BitVec.allOnes 32) :=
      fun ho => h .integerOverflow (overflows_iff.mp ho)
    rw [apply, if_neg hb, if_neg ho, Except.ok.injEq, Word.sdiv_eq_iff ho]
  | remS =>
    have hb : b.toInt ≠ 0 := h .divisionByZero
    rw [apply, if_neg (mt toInt_eq_zero_iff.mpr hb), Except.ok.injEq, Word.srem_eq_iff hb]
  | divU =>
    have hb : b.toNat ≠ 0 := h .divisionByZero
    rw [apply, if_neg (mt toNat_eq_zero_iff.mpr hb), Except.ok.injEq, Word.udiv_eq_iff hb]
  | remU =>
    have hb : b.toNat ≠ 0 := h .divisionByZero
    rw [apply, if_neg (mt toNat_eq_zero_iff.mpr hb), Except.ok.injEq, Word.umod_eq_iff hb]
  | and =>
    rw [apply, Except.ok.injEq]
    exact Word.eq_iff_bits fun j _ => BitVec.getLsbD_and
  | or =>
    rw [apply, Except.ok.injEq]
    exact Word.eq_iff_bits fun j _ => BitVec.getLsbD_or
  | xor =>
    rw [apply, Except.ok.injEq]
    exact Word.eq_iff_bits fun j _ => BitVec.getLsbD_xor
  | shl => rw [apply, Except.ok.injEq, Word.shl_eq_iff]
  | shrS => rw [apply, Except.ok.injEq, Word.shrS_eq_iff]
  | shrU => rw [apply, Except.ok.injEq, Word.shrU_eq_iff]
  | rotl =>
    rw [apply, Except.ok.injEq]
    exact Word.eq_iff_bits fun j => Word.getLsbD_rotateLeft hk
  | rotr =>
    rw [apply, Except.ok.injEq]
    exact Word.eq_iff_bits fun j => Word.getLsbD_rotateRight hk

end BinaryOp

/-! ## Instructions on the operand stack -/

namespace OperandStack

variable {s : OperandStack}

theorem append_pair (s : OperandStack) (a b : Word) :
    s.append #[a, b] = ⟨(s.values.push a).push b, s.floor⟩ := by
  rw [append, Array.push_eq_append, Array.push_eq_append, Array.append_assoc]
  rfl

theorem append_single (s : OperandStack) (a : Word) :
    s.append #[a] = ⟨s.values.push a, s.floor⟩ := by
  simp [append]

theorem pop_append_single (hs : s.floor ≤ s.size) (v : Word) : pop (s.append #[v]) = .ok v s := by
  rw [append_single]
  exact pop_push v hs

theorem pop_append_pair (hs : s.floor ≤ s.size) (a b : Word) :
    pop (s.append #[a, b]) = .ok b (s.append #[a]) := by
  rw [append_pair, append_single]
  refine pop_push b ?_
  rw [Array.size_push]
  exact Nat.le_succ_of_le hs

theorem push_eq_append (s : OperandStack) (v : Word) : push v s = .ok () (s.append #[v]) := by
  rw [append_single]
  rfl

theorem unary_append (op : UnaryOp) (hs : s.floor ≤ s.size) (v : Word) :
    unary op (s.append #[v]) = .ok () (s.append #[op.apply v]) := by
  rw [unary, bind_of_ok (pop_append_single hs v), push_eq_append]

theorem compare_append (op : Comparison) (hs : s.floor ≤ s.size) (a b : Word) :
    compare op (s.append #[a, b]) = .ok () (s.append #[Word.ofBool (op.holds a b)]) := by
  rw [compare, bind_of_ok (pop_append_pair hs a b), bind_of_ok (pop_append_single hs a),
    push_eq_append]

theorem binary_append (op : BinaryOp) (hs : s.floor ≤ s.size) (a b : Word) :
    binary op (s.append #[a, b]) =
      match op.apply a b with
      | .ok v => .ok () (s.append #[v])
      | .error f => .error (.arithmetic f) s := by
  rw [binary, bind_of_ok (pop_append_pair hs a b), bind_of_ok (pop_append_single hs a)]
  cases op.apply a b with
  | ok v => exact push_eq_append s v
  | error f => rfl

/-! ## Too few operands -/

theorem truncate_floor_of_size_le (h : s.size ≤ s.floor) : s.truncate s.floor = s := by
  have hvalues : s.values.shrink s.floor = s.values := by
    rw [Array.shrink_eq_take]
    exact Array.extract_eq_self_of_le h
  rw [truncate, Nat.max_self, hvalues]

theorem pop_of_size_le (h : s.size ≤ s.floor) :
    pop s = .error .stackUnderflow (s.truncate s.floor) := by
  rw [pop, if_pos h, truncate_floor_of_size_le h]

theorem pop_of_size_eq (h : s.size = s.floor + 1) :
    ∃ v, pop s = .ok v (s.truncate s.floor) := by
  obtain ⟨values, floor⟩ := s
  obtain ⟨vs, v, rfl⟩ := Array.exists_push_of_size_eq_add_one h
  have hfloor : vs.size = floor := by simpa [size] using h
  refine ⟨v, (pop_push v hfloor.ge).trans ?_⟩
  have hvalues : (vs.push v).shrink floor = vs := by simp [← hfloor]
  rw [truncate, Nat.max_self, hvalues]

/-- What needs two operands takes the one that there may be. -/
theorem pop_pop_underflows (f : Word → Word → StackM Unit) (h : s.size < s.floor + 2) :
    (do
      let b ← pop
      let a ← pop
      f a b : StackM Unit) s = .error .stackUnderflow (s.truncate s.floor) := by
  rcases Nat.lt_or_ge s.floor s.size with hlt | hle
  · obtain ⟨v, hpop⟩ := pop_of_size_eq (s := s) (by omega)
    have hsize : (s.truncate s.floor).size ≤ (s.truncate s.floor).floor := by
      simp [truncate, size]
    rw [bind_of_ok hpop, bind_of_error (pop_of_size_le hsize)]
    exact congrArg _ (truncate_floor_of_size_le hsize)
  · rw [bind_of_error (pop_of_size_le hle)]

/-- The numeric instructions replace their operands by the only word that answers, in exact integers
and bits, and change nothing else. Only divisions and remainders fail, where there is no answer, and
their operands are gone then. Operands below the floor do not stand in for missing ones. -/
theorem numeric_exact :
    (∀ s : OperandStack, s.floor ≤ s.size →
      (∀ v, push v s = .ok () (s.append #[v])) ∧
      (∀ (op : UnaryOp) (v : Word), ∃ r,
        unary op (s.append #[v]) = .ok () (s.append #[r]) ∧ ∀ r', op.Answers v r' ↔ r' = r) ∧
      (unary .clz (s.append #[0]) = .ok () (s.append #[32]) ∧
        unary .ctz (s.append #[0]) = .ok () (s.append #[32]) ∧
        unary .popcnt (s.append #[0]) = .ok () (s.append #[0])) ∧
      (∀ (op : Comparison) (a b : Word),
        (op.Relates a b → compare op (s.append #[a, b]) = .ok () (s.append #[1])) ∧
        (¬op.Relates a b → compare op (s.append #[a, b]) = .ok () (s.append #[0]))) ∧
      (∀ (op : BinaryOp) (a b : Word),
        (∀ f, binary op (s.append #[a, b]) = .error (.arithmetic f) s ↔ op.FailsOn a b f) ∧
        ((∀ f, ¬op.FailsOn a b f) → ∃ r,
          binary op (s.append #[a, b]) = .ok () (s.append #[r]) ∧
          ∀ r', op.Answers a b r' ↔ r' = r)) ∧
      ∀ a b : Word, ∃ r, binary .rotl (s.append #[a, b]) = .ok () (s.append #[r]) ∧
        binary .rotr (s.append #[r, b]) = .ok () (s.append #[a])) ∧
    ∀ s : OperandStack,
      (s.size < s.floor + 1 → ∀ op : UnaryOp,
        unary op s = .error .stackUnderflow (s.truncate s.floor)) ∧
      (s.size < s.floor + 2 →
        (∀ op : Comparison, compare op s = .error .stackUnderflow (s.truncate s.floor)) ∧
        ∀ op : BinaryOp, binary op s = .error .stackUnderflow (s.truncate s.floor)) := by
  refine ⟨fun s hs => ⟨push_eq_append s, fun op v => ?_, ?_, fun op a b => ?_, fun op a b => ?_,
    fun a b => ?_⟩, fun s => ⟨fun h op => ?_, fun h => ⟨fun op => ?_, fun op => ?_⟩⟩⟩
  · refine ⟨op.apply v, unary_append op hs v, fun r' => ?_⟩
    rw [← op.apply_eq_iff, eq_comm]
  · have hclz : UnaryOp.clz.apply 0 = 32 := by decide +kernel
    have hctz : UnaryOp.ctz.apply 0 = 32 := by decide +kernel
    have hpopcnt : UnaryOp.popcnt.apply 0 = 0 := by decide +kernel
    rw [unary_append _ hs, unary_append _ hs, unary_append _ hs, hclz, hctz, hpopcnt]
    exact ⟨rfl, rfl, rfl⟩
  · rw [compare_append op hs, ← op.holds_iff]
    cases op.holds a b <;> simp [Word.ofBool]
  · rw [binary_append op hs]
    refine ⟨fun f => ?_, fun h => ?_⟩
    · rw [← op.apply_eq_error_iff]
      cases op.apply a b <;> simp
    · cases happly : op.apply a b with
      | error f => exact absurd (op.apply_eq_error_iff.mp happly) (h f)
      | ok r =>
        refine ⟨r, rfl, fun r' => ?_⟩
        rw [← op.apply_eq_ok_iff h, happly, Except.ok.injEq, eq_comm]
  · refine ⟨a.rotateLeft (BinaryOp.distance b), binary_append .rotl hs a b, ?_⟩
    rw [binary_append .rotr hs, BinaryOp.apply,
      Word.rotateRight_rotateLeft (BinaryOp.distance_lt b)]
  · rw [unary, bind_of_error (pop_of_size_le (Nat.le_of_lt_succ h))]
  · exact pop_pop_underflows _ h
  · exact pop_pop_underflows _ h

/-- The smallest word by minus one: the quotient has no word, the remainder is zero. A second
operand below the floor is not taken. -/
theorem numeric_exact_smallestByMinusOne :
    binary .divS ((⟨#[7], 1⟩ : OperandStack).append #[0x80000000, 0xffffffff]) =
        .error (.arithmetic .integerOverflow) ⟨#[7], 1⟩ ∧
      (∃ r, binary .remS ((⟨#[7], 1⟩ : OperandStack).append #[0x80000000, 0xffffffff]) =
        .ok () ((⟨#[7], 1⟩ : OperandStack).append #[r]) ∧
          ∀ r', BinaryOp.remS.Answers 0x80000000 0xffffffff r' ↔ r' = r) ∧
      binary .sub ⟨#[7, 8], 1⟩ = .error .stackUnderflow ⟨#[7], 1⟩ := by
  have hs : (⟨#[7], 1⟩ : OperandStack).floor ≤ (⟨#[7], 1⟩ : OperandStack).size := by decide
  obtain ⟨-, -, -, -, hbinary, -⟩ := numeric_exact.1 ⟨#[7], 1⟩ hs
  refine ⟨?_, ?_, ?_⟩
  · exact ((hbinary .divS 0x80000000 0xffffffff).1 .integerOverflow).mpr ⟨by decide, by decide⟩
  · refine (hbinary .remS 0x80000000 0xffffffff).2 fun f hf => ?_
    cases f with
    | divisionByZero =>
      have hne : (0xffffffff : Word).toInt ≠ 0 := by decide
      exact hne hf
    | integerOverflow => exact hf
  · exact ((numeric_exact.2 ⟨#[7, 8], 1⟩).2 (by decide)).2 .sub

end OperandStack

end WasmI32
