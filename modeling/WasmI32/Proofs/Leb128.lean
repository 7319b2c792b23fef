import Mathlib
import WasmI32.Leb128

/-!
# LEB128 integers as exact sums

A numeral is a run of bytes in which every byte but the last says that another digit follows. Its
value is an exact sum of digits, unsigned or in two's complement. The decoders put the bits of each
byte in their place as they go, which comes to the same: they accept a numeral of at most five
digits exactly when its value fits a word, and the encoders write such a numeral. The results say
nothing about which numeral is the shortest.
-/

namespace WasmI32.Leb128

/-! ## Bits of a byte -/

theorem continues_eq (b : UInt8) : continues b = decide (128 ≤ b.toNat) := by
  obtain ⟨b⟩ := b
  revert b
  decide +kernel

theorem toNat_lt_of_continues {b : UInt8} (h : continues b = false) : b.toNat < 128 := by
  rw [continues_eq] at h
  simpa using h

theorem fitsUnsigned_eq (b : UInt8) : fitsUnsigned b = decide (b.toNat < 16) := by
  obtain ⟨b⟩ := b
  revert b
  decide +kernel

theorem fitsSigned_eq (b : UInt8) (hb : continues b = false) :
    fitsSigned b = decide (b.toNat < 8 ∨ 120 ≤ b.toNat) := by
  obtain ⟨b⟩ := b
  revert b
  decide +kernel

theorem sign_eq_zero_iff (b : UInt8) (hb : continues b = false) :
    b &&& 0x40 = 0 ↔ b.toNat < 64 := by
  obtain ⟨b⟩ := b
  revert b
  decide +kernel

/-! ## Numerals -/

/-- The bytes up to and including the first that no digit follows, if that is one of the first
`limit` bytes. -/
def digits : Nat → List UInt8 → Except Fault (List UInt8)
  | 0, _ => .error .malformed
  | _ + 1, [] => .error .truncated
  | limit + 1, b :: rest =>
    if continues b then
      match digits limit rest with
      | .ok bs => .ok (b :: bs)
      | .error fault => .error fault
    else .ok [b]

/-- Every byte but the last is followed by another digit. -/
def Numeral : List UInt8 → Prop
  | [] => False
  | [b] => continues b = false
  | b :: c :: rest => continues b = true ∧ Numeral (c :: rest)

theorem numeral_cons {b : UInt8} {bs : List UInt8} (hb : continues b = true) (h : Numeral bs) :
    Numeral (b :: bs) := by
  cases bs with
  | nil => exact h.elim
  | cons c rest => exact ⟨hb, h⟩

theorem Numeral.ne_nil {bs : List UInt8} (h : Numeral bs) : bs ≠ [] := by
  rintro rfl
  exact h

/-- The digits that the decoders collect are a numeral, and the bytes behind it do not matter. -/
theorem digits_append {bs : List UInt8} (h : Numeral bs) (rest : List UInt8) :
    ∀ limit, bs.length ≤ limit → digits limit (bs ++ rest) = .ok bs := by
  induction bs with
  | nil => exact h.elim
  | cons b bs ih =>
    intro limit hl
    obtain ⟨limit, rfl⟩ : ∃ n, limit = n + 1 := ⟨limit - 1, by simp at hl; omega⟩
    cases bs with
    | nil =>
      change continues b = false at h
      simp [digits, h]
    | cons c cs =>
      have hrest := ih h.2 limit (by simp at hl ⊢; omega)
      rw [List.cons_append, digits, if_pos h.1, hrest]

theorem digits_sound {limit : Nat} {bytes bs : List UInt8} (h : digits limit bytes = .ok bs) :
    Numeral bs ∧ bs.length ≤ limit ∧ ∃ rest, bytes = bs ++ rest := by
  induction limit generalizing bytes bs with
  | zero => simp [digits] at h
  | succ limit ih =>
    cases bytes with
    | nil => simp [digits] at h
    | cons b bytes =>
      rw [digits] at h
      by_cases hb : continues b = true
      · rw [if_pos hb] at h
        cases hd : digits limit bytes with
        | error fault => simp [hd] at h
        | ok ds =>
          simp only [hd, Except.ok.injEq] at h
          obtain ⟨hn, hl, rest, hr⟩ := ih hd
          subst h
          exact ⟨numeral_cons hb hn, by simp; omega, rest, by rw [hr]; rfl⟩
      · simp only [hb, Bool.false_eq_true, if_false, Except.ok.injEq] at h
        subst h
        exact ⟨by simpa [Numeral] using hb, by simp, bytes, rfl⟩

/-! ## Values -/

/-- The digit in a byte. -/
def digit (b : UInt8) : Nat := b.toNat % 128

/-- The value of digits; `above` stands for those over the highest one. -/
def value (above : Nat) (bs : List UInt8) : Nat :=
  bs.foldr (fun b high => 128 * high + digit b) above

/-- The digits over the highest one of a signed integer: enough ones for a word if it is
negative. -/
def signOf (bs : List UInt8) : Nat :=
  match bs.getLast? with
  | some last => if 64 ≤ last.toNat then 4294967295 else 0
  | none => 0

theorem value_cons (above : Nat) (b : UInt8) (bs : List UInt8) :
    value above (b :: bs) = 128 * value above bs + digit b := rfl

theorem digit_lt (b : UInt8) : digit b < 128 := Nat.mod_lt _ (by decide)

theorem value_lt (bs : List UInt8) : value 0 bs < 128 ^ bs.length := by
  induction bs with
  | nil => simp [value]
  | cons b bs ih =>
    have hb := digit_lt b
    rw [value_cons, List.length_cons, pow_succ]
    omega

/-- Digits over the highest one weigh as much as their place says. -/
theorem value_above (above : Nat) (bs : List UInt8) :
    value above bs = value 0 bs + 128 ^ bs.length * above := by
  induction bs with
  | nil => simp [value]
  | cons b bs ih =>
    rw [value_cons, value_cons, ih, List.length_cons, pow_succ]
    ring

theorem value_concat (bs : List UInt8) (b : UInt8) :
    value 0 (bs ++ [b]) = value 0 bs + 2 ^ (7 * bs.length) * digit b := by
  have hdigit : value 0 [b] = digit b := by simp [value]
  have happend : value 0 (bs ++ [b]) = value (value 0 [b]) bs := by
    simp only [value, List.foldr_append]
  rw [happend, value_above, hdigit, pow_mul]
  rfl

theorem value_lt_two_pow (bs : List UInt8) : value 0 bs < 2 ^ (7 * bs.length) := by
  rw [pow_mul]
  exact value_lt bs

/-- Whether the highest digit has the sign bit. -/
def negative (bs : List UInt8) : Bool := bs.getLast?.any fun last => 64 ≤ last.toNat

/-- The value of digits in two's complement. -/
def signedValue (bs : List UInt8) : Int :=
  (value 0 bs : Int) - if negative bs then 128 ^ bs.length else 0

theorem signOf_eq (bs : List UInt8) : signOf bs = if negative bs then 4294967295 else 0 := by
  unfold signOf negative
  cases bs.getLast? with
  | none => rfl
  | some last => simp

theorem negative_cons (b c : UInt8) (bs : List UInt8) :
    negative (b :: c :: bs) = negative (c :: bs) := by
  simp [negative]

theorem signedValue_cons (b : UInt8) {bs : List UInt8} (h : bs ≠ []) :
    signedValue (b :: bs) = 128 * signedValue bs + digit b := by
  obtain ⟨c, cs, rfl⟩ := List.exists_cons_of_ne_nil h
  unfold signedValue
  rw [negative_cons, value_cons, List.length_cons (a := b), pow_succ]
  split <;> push_cast <;> ring

theorem signedValue_singleton {b : UInt8} (h : continues b = false) :
    signedValue [b] = if 64 ≤ b.toNat then (b.toNat : Int) - 128 else b.toNat := by
  have hb : b.toNat < 128 := toNat_lt_of_continues h
  have hd : digit b = b.toNat := Nat.mod_eq_of_lt hb
  simp only [signedValue, negative, value, List.foldr, hd, List.length_singleton,
    List.getLast?_singleton, Option.any_some, decide_eq_true_eq]
  split <;> simp

/-! ## The encodings of a word -/

/-- `bs` is an unsigned encoding of `v`: a numeral of at most five digits whose sum is `v`. -/
structure Unsigned (bs : List UInt8) (v : Word) : Prop where
  numeral : Numeral bs
  short : bs.length ≤ maxLength
  sum : value 0 bs = v.toNat

/-- `bs` is a signed encoding of `v`. -/
structure Signed (bs : List UInt8) (v : Word) : Prop where
  numeral : Numeral bs
  short : bs.length ≤ maxLength
  sum : signedValue bs = v.toInt

/-- The three spare bits of a fifth digit are zero exactly if the sum fits 32 bits. -/
theorem fitsUnsigned_iff {bs : List UInt8} (h : Numeral bs) (hl : bs.length ≤ maxLength) :
    bs[4]?.all fitsUnsigned ↔ value 0 bs < 4294967296 := by
  have hv := value_lt bs
  rcases bs with _ | ⟨a, _ | ⟨b, _ | ⟨c, _ | ⟨d, _ | ⟨e, _ | ⟨f, t⟩⟩⟩⟩⟩⟩
  case cons.cons.cons.cons.cons.nil =>
    have he : e.toNat < 128 := toNat_lt_of_continues h.2.2.2.2
    simp [value, digit, fitsUnsigned_eq]
    omega
  case cons.cons.cons.cons.cons.cons =>
    simp [maxLength] at hl
    omega
  all_goals
    simp at hv ⊢
    omega

theorem signedValue_range {bs : List UInt8} (h : Numeral bs) :
    -(64 * 128 ^ (bs.length - 1)) ≤ signedValue bs ∧
      signedValue bs < 64 * 128 ^ (bs.length - 1) := by
  induction bs with
  | nil => exact h.elim
  | cons b bs ih =>
    cases bs with
    | nil =>
      have hb : b.toNat < 128 := toNat_lt_of_continues h
      rw [signedValue_singleton h]
      simp
      split <;> omega
    | cons c cs =>
      obtain ⟨h1, h2⟩ := ih h.2
      have hd := digit_lt b
      rw [signedValue_cons b (by simp)]
      simp only [List.length_cons, Nat.add_sub_cancel] at h1 h2 ⊢
      rw [pow_succ]
      omega

/-- The three spare bits of a fifth digit repeat the sign exactly if the value fits 32 bits. -/
theorem fitsSigned_iff {bs : List UInt8} (h : Numeral bs) (hl : bs.length ≤ maxLength) :
    bs[4]?.all fitsSigned ↔ -2147483648 ≤ signedValue bs ∧ signedValue bs < 2147483648 := by
  have hv := signedValue_range h
  rcases bs with _ | ⟨a, _ | ⟨b, _ | ⟨c, _ | ⟨d, _ | ⟨e, _ | ⟨f, t⟩⟩⟩⟩⟩⟩
  case nil => exact h.elim
  case cons.cons.cons.cons.cons.nil =>
    have hlast : continues e = false := h.2.2.2.2
    have he : e.toNat < 128 := toNat_lt_of_continues hlast
    rw [signedValue_cons _ (by simp), signedValue_cons _ (by simp), signedValue_cons _ (by simp),
      signedValue_cons _ (by simp), signedValue_singleton hlast]
    simp [digit, fitsSigned_eq e hlast]
    split <;> omega
  case cons.cons.cons.cons.cons.cons =>
    simp [maxLength] at hl
    omega
  all_goals
    simp at hv ⊢
    omega

/-! ## The decoders -/

/-- A decoder collects digits, checks the fifth one and takes a word for them. -/
def Judges (fits : UInt8 → Bool) (word : List UInt8 → Word)
    (decode : List UInt8 → Except Fault (Word × Nat)) : Prop :=
  ∀ bytes, decode bytes =
    match digits maxLength bytes with
    | .error fault => .error fault
    | .ok bs => if bs[4]?.all fits then .ok (word bs, bs.length) else .error .malformed

/-- Bits that are set over a number add up with it. -/
theorem or_shiftLeft {low shift : Nat} (h : low < 2 ^ shift) (high : Nat) :
    BitVec.ofNat 32 low ||| BitVec.ofNat 32 high <<< shift =
      BitVec.ofNat 32 (low + 2 ^ shift * high) := by
  have hsum : low + 2 ^ shift * high = low ||| high <<< shift := by
    rw [Nat.or_comm, ← Nat.shiftLeft_add_eq_or_of_lt h, Nat.shiftLeft_eq]
    ring
  have hhigh : BitVec.ofNat 32 high <<< shift = BitVec.ofNat 32 (high <<< shift) := by
    apply BitVec.eq_of_toNat_eq
    rw [BitVec.toNat_shiftLeft, BitVec.toNat_ofNat, BitVec.toNat_ofNat, Nat.shiftLeft_eq,
      Nat.shiftLeft_eq, Nat.mod_mul_mod]
  rw [hsum, hhigh, BitVec.ofNat_or]

theorem bitsAt_eq (shift : Nat) (b : UInt8) :
    bitsAt shift b = BitVec.ofNat 32 (digit b) <<< shift := by
  have hmask : b.toNat &&& 127 = b.toNat % 128 := Nat.and_two_pow_sub_one_eq_mod b.toNat 7
  have hdigit : (b &&& 0x7f).toBitVec.setWidth 32 = BitVec.ofNat 32 (digit b) := by
    apply BitVec.eq_of_toNat_eq
    simp [hmask, digit]
    omega
  rw [bitsAt, hdigit]

/-- The bits of a byte add the next digit to those that have been read. -/
theorem or_bitsAt (bs : List UInt8) (b : UInt8) :
    BitVec.ofNat 32 (value 0 bs) ||| bitsAt (7 * bs.length) b =
      BitVec.ofNat 32 (value 0 (bs ++ [b])) := by
  rw [bitsAt_eq, or_shiftLeft (value_lt_two_pow bs), value_concat]

/-- Only a fifth byte has to pass. -/
theorem all_concat (fits : UInt8 → Bool) {front : List UInt8} (h : front.length < maxLength)
    (b : UInt8) :
    (front ++ [b])[4]?.all fits = !(front.length == maxLength - 1 && !fits b) := by
  have hle : front.length ≤ 4 := Nat.le_of_lt_succ h
  by_cases hfour : front.length = 4
  · simp [hfour, maxLength]
  · have hnone : (front ++ [b])[4]? = none := by
      apply List.getElem?_eq_none
      simp only [List.length_append, List.length_singleton]
      omega
    simp [hnone, hfour, maxLength]

/-- The loop of a decoder, behind the bytes `front`. -/
theorem collect_eq {fits : UInt8 → Bool} {extend : UInt8 → Nat → Word → Word}
    {word : List UInt8 → Word}
    (hword : ∀ bs b, continues b = false →
      extend b (7 * bs.length + 7) (BitVec.ofNat 32 (value 0 (bs ++ [b]))) = word (bs ++ [b]))
    {left : Nat} (front : List UInt8) (hl : front.length + left = maxLength)
    (bytes : List UInt8) :
    collect fits extend left front.length (BitVec.ofNat 32 (value 0 front)) bytes =
      match digits left bytes with
      | .error fault => .error fault
      | .ok bs =>
        if (front ++ bs)[4]?.all fits then .ok (word (front ++ bs), (front ++ bs).length)
        else .error .malformed := by
  induction left generalizing front bytes with
  | zero => rfl
  | succ left ih =>
    cases bytes with
    | nil => rfl
    | cons b bytes =>
      have hlt : front.length < maxLength := by omega
      have hfits := all_concat fits hlt b
      rw [collect, digits, or_bitsAt]
      by_cases hc : continues b = true
      · rw [if_pos hc, if_pos hc]
        by_cases hbad : (front.length == maxLength - 1 && !fits b) = true
        · -- the fifth byte is the last that is looked at, and another one follows it
          have hfour : front.length = maxLength - 1 := by
            simpa using (Bool.and_eq_true_iff.mp hbad).1
          obtain rfl : left = 0 := by omega
          rw [if_pos hbad]
          rfl
        · have hnext := ih (front ++ [b]) (by simp; omega) bytes
          rw [List.length_append, List.length_singleton] at hnext
          rw [if_neg hbad, hnext]
          cases digits left bytes with
          | error fault => rfl
          | ok bs => simp only [List.append_assoc, List.singleton_append]
      · rw [if_neg hc, if_neg hc]
        have hlast := hword front b (by simpa using hc)
        by_cases hbad : (front.length == maxLength - 1 && !fits b) = true
        · rw [if_pos hbad]
          simp only [hfits, hbad]
          rfl
        · rw [if_neg hbad, hlast]
          simp [hfits, hbad]

theorem judges_collect {fits : UInt8 → Bool} {extend : UInt8 → Nat → Word → Word}
    {word : List UInt8 → Word}
    (hword : ∀ bs b, continues b = false →
      extend b (7 * bs.length + 7) (BitVec.ofNat 32 (value 0 (bs ++ [b]))) = word (bs ++ [b])) :
    Judges fits word (collect fits extend maxLength 0 0) :=
  collect_eq hword [] rfl

theorem judges_unsigned :
    Judges fitsUnsigned (fun bs => BitVec.ofNat 32 (value 0 bs)) decodeUnsigned :=
  judges_collect fun _ _ _ => rfl

/-- The bits that a sign fills are those of digits over the highest one. Behind five bytes no such
bit is left. -/
theorem extendSign_eq (bs : List UInt8) {b : UInt8} (hb : continues b = false) :
    extendSign b (7 * bs.length + 7) (BitVec.ofNat 32 (value 0 (bs ++ [b]))) =
      BitVec.ofNat 32 (value (signOf (bs ++ [b])) (bs ++ [b])) := by
  have hlt := value_lt_two_pow (bs ++ [b])
  have hlength : 7 * (bs ++ [b]).length = 7 * bs.length + 7 := by simp; ring
  have hpow : 128 ^ (bs ++ [b]).length = 2 ^ (7 * bs.length + 7) := by rw [← hlength, pow_mul]; rfl
  rw [hlength] at hlt
  rw [value_above (signOf _), hpow, ← or_shiftLeft hlt, extendSign, signOf_eq, negative,
    List.getLast?_concat, Option.any_some]
  have hsign := sign_eq_zero_iff b hb
  by_cases hplus : b.toNat < 64
  · simp [hsign.mpr hplus, Nat.not_le.mpr hplus]
  · have hones : BitVec.ofNat 32 4294967295 = BitVec.allOnes 32 := rfl
    by_cases hroom : 7 * bs.length + 7 < 32
    · simp [hsign, hplus, Nat.le_of_not_lt hplus, hroom, hones]
    · simp [Nat.le_of_not_lt hplus, hroom,
        BitVec.shiftLeft_eq_zero (Nat.le_of_not_lt hroom)]

theorem judges_signed :
    Judges fitsSigned (fun bs => BitVec.ofNat 32 (value (signOf bs) bs)) decodeSigned :=
  judges_collect fun bs _ hb => extendSign_eq bs hb

theorem ofNat_value {bs : List UInt8} {v : Word} (h : value 0 bs < 4294967296) :
    BitVec.ofNat 32 (value 0 bs) = v ↔ value 0 bs = v.toNat := by
  rw [← BitVec.toNat_inj, BitVec.toNat_ofNat, Nat.mod_eq_of_lt (by simpa using h)]

/-- Enough ones over the highest digit of a negative number make its word. -/
theorem ofNat_signedValue {bs : List UInt8} {v : Word} (h1 : -2147483648 ≤ signedValue bs)
    (h2 : signedValue bs < 2147483648) :
    BitVec.ofNat 32 (value (signOf bs) bs) = v ↔ signedValue bs = v.toInt := by
  have hcong : ((value (signOf bs) bs : Nat) : Int).bmod 4294967296 = signedValue bs := by
    rw [value_above, signOf_eq]
    unfold signedValue at h1 h2 ⊢
    cases hn : negative bs with
    | true =>
      simp only [hn, if_true] at h1 h2 ⊢
      have he : ((value 0 bs + 128 ^ bs.length * 4294967295 : Nat) : Int) =
          ((value 0 bs : Int) - 128 ^ bs.length) + (4294967296 : Nat) * 128 ^ bs.length := by
        push_cast
        ring
      rw [he, Int.add_mul_bmod_self_left]
      apply Int.bmod_eq_of_le <;> omega
    | false =>
      simp only [hn, Bool.false_eq_true, if_false, Nat.mul_zero, Nat.add_zero, sub_zero] at h1 h2 ⊢
      apply Int.bmod_eq_of_le <;> omega
  rw [← BitVec.toInt_inj, BitVec.toInt_ofNat', ← hcong]

/-- A decoder accepts the bytes of numerals that pass, whatever follows, and nothing else. -/
theorem Judges.eq_ok_iff {fits : UInt8 → Bool} {word : List UInt8 → Word}
    {decode : List UInt8 → Except Fault (Word × Nat)} (h : Judges fits word decode)
    {bytes : List UInt8} {v : Word} {n : Nat} :
    decode bytes = .ok (v, n) ↔ ∃ bs rest, bytes = bs ++ rest ∧ n = bs.length ∧ Numeral bs ∧
      bs.length ≤ maxLength ∧ bs[4]?.all fits ∧ word bs = v := by
  rw [h bytes]
  constructor
  · intro hok
    cases hd : digits maxLength bytes with
    | error fault => simp [hd] at hok
    | ok bs =>
      obtain ⟨hn, hl, rest, hr⟩ := digits_sound hd
      simp only [hd] at hok
      split at hok
      · rename_i hf
        simp only [Except.ok.injEq, Prod.mk.injEq] at hok
        exact ⟨bs, rest, hr, hok.2.symm, hn, hl, hf, hok.1⟩
      · cases hok
  · rintro ⟨bs, rest, rfl, rfl, hn, hl, hf, rfl⟩
    simp only [digits_append hn rest _ hl, hf, if_true]

/-- Only bytes that end before the last digit are cut short. -/
theorem Judges.eq_truncated_iff {fits : UInt8 → Bool} {word : List UInt8 → Word}
    {decode : List UInt8 → Except Fault (Word × Nat)} (h : Judges fits word decode)
    {bytes : List UInt8} :
    decode bytes = .error .truncated ↔ digits maxLength bytes = .error .truncated := by
  rw [h bytes]
  cases digits maxLength bytes with
  | error fault => simp
  | ok bs =>
    simp only [reduceCtorEq, iff_false]
    split <;> exact nofun

theorem decodeUnsigned_eq_ok_iff {bytes : List UInt8} {v : Word} {n : Nat} :
    decodeUnsigned bytes = .ok (v, n) ↔
      ∃ bs rest, bytes = bs ++ rest ∧ n = bs.length ∧ Unsigned bs v := by
  rw [judges_unsigned.eq_ok_iff]
  constructor
  · rintro ⟨bs, rest, hr, hlength, hn, hl, hf, hv⟩
    have hlt := (fitsUnsigned_iff hn hl).mp hf
    exact ⟨bs, rest, hr, hlength, hn, hl, (ofNat_value hlt).mp hv⟩
  · rintro ⟨bs, rest, hr, hlength, hn, hl, hsum⟩
    have hlt : value 0 bs < 4294967296 := by
      rw [hsum]
      exact v.isLt
    exact ⟨bs, rest, hr, hlength, hn, hl, (fitsUnsigned_iff hn hl).mpr hlt,
      (ofNat_value hlt).mpr hsum⟩

theorem decodeSigned_eq_ok_iff {bytes : List UInt8} {v : Word} {n : Nat} :
    decodeSigned bytes = .ok (v, n) ↔
      ∃ bs rest, bytes = bs ++ rest ∧ n = bs.length ∧ Signed bs v := by
  rw [judges_signed.eq_ok_iff]
  constructor
  · rintro ⟨bs, rest, hr, hlength, hn, hl, hf, hv⟩
    obtain ⟨h1, h2⟩ := (fitsSigned_iff hn hl).mp hf
    exact ⟨bs, rest, hr, hlength, hn, hl, (ofNat_signedValue h1 h2).mp hv⟩
  · rintro ⟨bs, rest, hr, hlength, hn, hl, hsum⟩
    have h1 : -2147483648 ≤ signedValue bs := by
      rw [hsum]
      exact BitVec.le_toInt v
    have h2 : signedValue bs < 2147483648 := by
      rw [hsum]
      exact BitVec.toInt_lt
    exact ⟨bs, rest, hr, hlength, hn, hl, (fitsSigned_iff hn hl).mpr ⟨h1, h2⟩,
      (ofNat_signedValue h1 h2).mpr hsum⟩

/-! ## The encoders -/

theorem toNat_lastByte (v : Word) : (lastByte v).toNat = v.toNat % 128 := by
  have hmask : v.toNat &&& 127 = v.toNat % 128 := Nat.and_two_pow_sub_one_eq_mod v.toNat 7
  have hlow : (lastByte v).toNat = (v.toNat &&& 127) % 256 := by
    rw [lastByte, UInt8.toNat_ofBitVec, BitVec.toNat_setWidth, BitVec.toNat_and]
    rfl
  omega

theorem toNat_innerByte (v : Word) : (innerByte v).toNat = v.toNat % 128 + 128 := by
  have hlt : v.toNat % 128 < 2 ^ 7 := Nat.mod_lt _ (by decide)
  have hor := Nat.two_pow_add_eq_or_of_lt hlt 1
  rw [innerByte, UInt8.toNat_or, toNat_lastByte, Nat.or_comm, Nat.add_comm]
  exact hor.symm

theorem continues_lastByte (v : Word) : continues (lastByte v) = false := by
  simp only [continues_eq, toNat_lastByte, decide_eq_false_iff_not]
  omega

theorem continues_innerByte (v : Word) : continues (innerByte v) = true := by
  simp [continues_eq, toNat_innerByte]

theorem digit_innerByte (v : Word) : digit (innerByte v) = v.toNat % 128 := by
  rw [digit, toNat_innerByte]
  omega

theorem toNat_ushiftRight_seven (v : Word) : (v >>> 7).toNat = v.toNat / 128 := by
  rw [BitVec.toNat_ushiftRight, Nat.shiftRight_eq_div_pow]

/-- Digits are written until nothing is left over the highest one, so enough of them sum up. -/
theorem unsignedBytes_spec (limit : Nat) :
    ∀ v : Word, v.toNat < 128 ^ (limit + 1) →
      Numeral (unsignedBytes (limit + 1) v) ∧
        (unsignedBytes (limit + 1) v).length ≤ limit + 1 ∧
        value 0 (unsignedBytes (limit + 1) v) = v.toNat := by
  induction limit with
  | zero =>
    intro v hv
    have hz : v >>> 7 = 0 := by
      apply BitVec.eq_of_toNat_eq
      rw [toNat_ushiftRight_seven]
      simp at hv ⊢
      omega
    have hd : digit (lastByte v) = v.toNat := by
      rw [digit, toNat_lastByte]
      simp at hv
      omega
    simp only [unsignedBytes, hz, if_true]
    exact ⟨continues_lastByte v, by simp, by simp [value, hd]⟩
  | succ limit ih =>
    intro v hv
    rw [unsignedBytes]
    by_cases hz : v >>> 7 = 0
    · have hs : v.toNat / 128 = 0 := by
        rw [← toNat_ushiftRight_seven, hz]
        rfl
      have hd : digit (lastByte v) = v.toNat := by
        rw [digit, toNat_lastByte]
        omega
      simp only [hz, if_true]
      exact ⟨continues_lastByte v, by simp, by simp [value, hd]⟩
    · have hh : (v >>> 7).toNat < 128 ^ (limit + 1) := by
        rw [toNat_ushiftRight_seven]
        rw [pow_succ] at hv
        omega
      obtain ⟨hn, hl, hsum⟩ := ih (v >>> 7) hh
      simp only [hz, if_false]
      refine ⟨numeral_cons (continues_innerByte v) hn, by simp; omega, ?_⟩
      rw [value_cons, hsum, digit_innerByte, toNat_ushiftRight_seven]
      omega

theorem unsigned_encodeUnsigned (v : Word) : Unsigned (encodeUnsigned v) v := by
  have hv : v.toNat < 4294967296 := v.isLt
  obtain ⟨hn, hl, hsum⟩ := unsignedBytes_spec 4 v (by norm_num; omega)
  exact ⟨hn, hl, hsum⟩

theorem toInt_sshiftRight_seven (v : Word) : (v.sshiftRight 7).toInt = v.toInt / 128 := by
  rw [BitVec.toInt_sshiftRight, Int.shiftRight_eq_div_pow]
  rfl

theorem toInt_emod (v : Word) : v.toInt % 128 = (v.toNat % 128 : Nat) := by
  have hv : v.toNat < 4294967296 := v.isLt
  rw [BitVec.toInt_eq_toNat_cond]
  split <;> omega

/-- The sign is settled exactly if the lowest digit alone is the number in two's complement. -/
theorem signSettled_iff (v : Word) :
    signSettled v (v.sshiftRight 7) = true ↔ -64 ≤ v.toInt ∧ v.toInt < 64 := by
  have hm := toInt_emod v
  have hs := toInt_sshiftRight_seven v
  have hzero : v.sshiftRight 7 = 0 ↔ v.toInt / 128 = 0 := by
    rw [← BitVec.toInt_inj, hs]
    rfl
  have hones : v.sshiftRight 7 = BitVec.allOnes 32 ↔ v.toInt / 128 = -1 := by
    rw [← BitVec.toInt_inj, hs]
    rfl
  have hsign : lastByte v &&& 0x40 = 0 ↔ v.toNat % 128 < 64 := by
    rw [sign_eq_zero_iff _ (continues_lastByte v), toNat_lastByte]
  simp only [signSettled, Bool.or_eq_true, Bool.and_eq_true, beq_iff_eq, bne_iff_ne, ne_eq, hzero,
    hones, hsign]
  omega

theorem signedValue_lastByte {v : Word} (h1 : -64 ≤ v.toInt) (h2 : v.toInt < 64) :
    signedValue [lastByte v] = v.toInt := by
  have hm := toInt_emod v
  rw [signedValue_singleton (continues_lastByte v), toNat_lastByte]
  split <;> omega

theorem signedBytes_spec (limit : Nat) :
    ∀ v : Word, -(64 * 128 ^ limit) ≤ v.toInt → v.toInt < 64 * 128 ^ limit →
      Numeral (signedBytes (limit + 1) v) ∧
        (signedBytes (limit + 1) v).length ≤ limit + 1 ∧
        signedValue (signedBytes (limit + 1) v) = v.toInt := by
  induction limit with
  | zero =>
    intro v h1 h2
    rw [signedBytes, if_pos ((signSettled_iff v).mpr ⟨by simpa using h1, by simpa using h2⟩)]
    exact ⟨continues_lastByte v, by simp,
      signedValue_lastByte (by simpa using h1) (by simpa using h2)⟩
  | succ limit ih =>
    intro v h1 h2
    rw [signedBytes]
    by_cases hs : signSettled v (v.sshiftRight 7) = true
    · obtain ⟨hlo, hhi⟩ := (signSettled_iff v).mp hs
      rw [if_pos hs]
      exact ⟨continues_lastByte v, by simp, signedValue_lastByte hlo hhi⟩
    · have hshift := toInt_sshiftRight_seven v
      rw [pow_succ] at h1 h2
      obtain ⟨hn, hl, hsum⟩ := ih (v.sshiftRight 7) (by omega) (by omega)
      have hm := toInt_emod v
      rw [if_neg hs]
      refine ⟨numeral_cons (continues_innerByte v) hn, by simp; omega, ?_⟩
      rw [signedValue_cons _ hn.ne_nil, hsum, digit_innerByte, hshift]
      omega

theorem signed_encodeSigned (v : Word) : Signed (encodeSigned v) v := by
  have h1 : -2147483648 ≤ v.toInt := BitVec.le_toInt v
  have h2 : v.toInt < 2147483648 := BitVec.toInt_lt
  obtain ⟨hn, hl, hsum⟩ := signedBytes_spec 4 v (by norm_num; omega) (by norm_num; omega)
  exact ⟨hn, hl, hsum⟩

end WasmI32.Leb128
