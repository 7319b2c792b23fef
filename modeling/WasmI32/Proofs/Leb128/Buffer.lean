import WasmI32.Proofs.Leb128.Shortest
import WasmI32.Proofs.Lookahead

/-!
# Integers in a buffer

A buffer is read from a cursor on. Which integers stand there is told by its bytes alone: how many
of them there are up to the first without the continuation bit, and the exact sum of their digits.
Bytes that are refused are told apart by why: they end too soon, or no 32-bit integer starts so.
-/

namespace WasmI32

/-- The window onto `buffer` that is read from `cursor` on. -/
def Window.seek (buffer : List UInt8) (cursor : Nat) : Window := ⟨0, cursor, buffer.drop cursor⟩

theorem Window.behind_seek {buffer bs rest : List UInt8} {cursor : Nat}
    (h : buffer.drop cursor = bs ++ rest) :
    (seek buffer cursor).behind bs.length rest = seek buffer (cursor + bs.length) := by
  rw [behind, seek, seek, ← List.drop_drop, h, List.drop_left]

namespace Leb128

variable {bytes bs : List UInt8} {n : Nat} {v : Word}

/-! ## Numerals, byte by byte -/

/-- The first `n` bytes are all there, and the last of them is the first without bit 7, which says
that another digit follows. -/
structure Spans (bytes : List UInt8) (n : Nat) : Prop where
  pos : 0 < n
  inside : n ≤ bytes.length
  continues_iff : ∀ i < n, (bytes.getD i 0).toNat.testBit 7 = true ↔ i + 1 < n

/-- The exact sum of the first `n` digits. -/
def digitSum (bytes : List UInt8) (n : Nat) : Nat :=
  ∑ i ∈ Finset.range n, (bytes.getD i 0).toNat % 128 * 128 ^ i

/-- The number that the first `n` digits are in two's complement: bit 6 of the last is the sign. -/
def signedSum (bytes : List UInt8) (n : Nat) : Int :=
  digitSum bytes n - if (bytes.getD (n - 1) 0).toNat.testBit 6 then 128 ^ n else 0

theorem continues_eq_testBit (b : UInt8) : continues b = b.toNat.testBit 7 := by
  have hb := UInt8.toNat_lt b
  rw [continues_eq, Nat.testBit_eq_decide_div_mod_eq, decide_eq_decide]
  omega

theorem testBit_six {b : UInt8} (h : continues b = false) :
    b.toNat.testBit 6 = decide (64 ≤ b.toNat) := by
  have hb : b.toNat < 128 := toNat_lt_of_continues h
  rw [Nat.testBit_eq_decide_div_mod_eq, decide_eq_decide]
  omega

theorem digitSum_cons (b : UInt8) (bytes : List UInt8) (n : Nat) :
    digitSum (b :: bytes) (n + 1) = 128 * digitSum bytes n + digit b := by
  rw [digitSum, Finset.sum_range_succ', digitSum, Finset.mul_sum]
  congr 1
  · refine Finset.sum_congr rfl fun i _ => ?_
    rw [List.getD_cons_succ, pow_succ]
    ring
  · simp [digit]

theorem digitSum_append (bs rest : List UInt8) : digitSum (bs ++ rest) bs.length = value 0 bs := by
  induction bs with
  | nil => simp [digitSum, value]
  | cons b bs ih => rw [List.cons_append, List.length_cons, digitSum_cons, ih, value_cons]

theorem spans_cons_iff {b c : UInt8} :
    Spans (b :: c :: bytes) (n + 2) ↔ continues b = true ∧ Spans (c :: bytes) (n + 1) := by
  rw [continues_eq_testBit]
  constructor
  · intro h
    refine ⟨(h.continues_iff 0 (by omega)).mpr (by omega), Nat.succ_pos n, ?_, fun i hi => ?_⟩
    · simpa using h.inside
    · rw [← List.getD_cons_succ (x := b), h.continues_iff (i + 1) (by omega)]
      omega
  · rintro ⟨hb, h⟩
    refine ⟨Nat.succ_pos _, by simpa using h.inside, fun i hi => ?_⟩
    cases i with
    | zero => simpa using hb
    | succ i =>
      rw [List.getD_cons_succ, h.continues_iff i (by omega)]
      omega

theorem Numeral.spans (h : Numeral bs) (rest : List UInt8) : Spans (bs ++ rest) bs.length := by
  induction bs with
  | nil => exact h.elim
  | cons b bs ih =>
    cases bs with
    | nil =>
      have hb : continues b = false := h
      rw [continues_eq_testBit] at hb
      refine ⟨Nat.one_pos, by simp, fun i hi => ?_⟩
      obtain rfl : i = 0 := by simpa using hi
      simp [hb]
    | cons c bs => exact spans_cons_iff.mpr ⟨h.1, ih h.2⟩

theorem Spans.numeral (h : Spans bytes n) : Numeral (bytes.take n) := by
  induction bytes generalizing n with
  | nil => exact absurd h.inside (Nat.not_le.mpr h.pos)
  | cons b bytes ih =>
    match n, h with
    | 0, h => exact absurd h.pos (Nat.lt_irrefl 0)
    | 1, h =>
      have hb := h.continues_iff 0 Nat.one_pos
      rw [List.getD_cons_zero, ← continues_eq_testBit] at hb
      exact Bool.eq_false_iff.mpr fun hc => absurd (hb.mp hc) (Nat.lt_irrefl 1)
    | n + 2, h =>
      have hinside := h.inside
      cases bytes with
      | nil => simp at hinside
      | cons c bytes =>
        obtain ⟨hb, hrest⟩ := spans_cons_iff.mp h
        exact ⟨hb, ih hrest⟩

theorem spans_iff : Spans bytes n ↔ ∃ bs rest, bytes = bs ++ rest ∧ n = bs.length ∧ Numeral bs := by
  constructor
  · intro h
    have hlength : n = (bytes.take n).length := (List.length_take_of_le h.inside).symm
    exact ⟨_, _, (List.take_append_drop n bytes).symm, hlength, h.numeral⟩
  · rintro ⟨bs, rest, rfl, rfl, h⟩
    exact h.spans rest

theorem signedSum_append (h : Numeral bs) (rest : List UInt8) :
    signedSum (bs ++ rest) bs.length = signedValue bs := by
  have hlast : ∃ last, bs.getLast? = some last ∧ continues last = false := by
    induction bs with
    | nil => exact h.elim
    | cons b bs ih =>
      cases bs with
      | nil => exact ⟨b, rfl, h⟩
      | cons c bs => simpa using ih h.2
  obtain ⟨last, hget, hc⟩ := hlast
  have hlt : bs.length - 1 < bs.length := Nat.sub_one_lt_of_lt (List.length_pos_of_ne_nil h.ne_nil)
  have hat : (bs ++ rest).getD (bs.length - 1) 0 = last := by
    rw [List.getD_append _ _ _ _ hlt, List.getD_eq_getElem?_getD, ← List.getLast?_eq_getElem?, hget]
    rfl
  rw [signedSum, digitSum_append, hat, testBit_six hc, signedValue, negative, hget]
  rfl

/-! ## Why bytes are refused -/

/-- The bytes end before the last digit, and before there are five. -/
structure CutShort (bytes : List UInt8) : Prop where
  short : bytes.length < 5
  continues : ∀ b ∈ bytes, b.toNat.testBit 7 = true

theorem digits_eq_truncated_iff {limit : Nat} :
    digits limit bytes = .error .truncated ↔
      bytes.length < limit ∧ ∀ b ∈ bytes, b.toNat.testBit 7 = true := by
  induction limit generalizing bytes with
  | zero => simp [digits]
  | succ limit ih =>
    cases bytes with
    | nil => simp [digits]
    | cons b bytes =>
      rw [digits, List.forall_mem_cons, ← continues_eq_testBit, List.length_cons,
        Nat.add_lt_add_iff_right]
      by_cases hb : continues b = true
      · rw [if_pos hb, and_left_comm, ← ih]
        cases digits limit bytes <;> simp [hb]
      · simp [hb]

/-! ## Reading from a cursor -/

section Exact

variable {decode : List UInt8 → Except Fault (Word × Nat)} {number : List UInt8 → Nat → Int}
  {view : Word → Int} {low high : Int}

/-- The first `n` bytes are a numeral of at most five digits whose number lies in a range. -/
structure Encoded (number : List UInt8 → Nat → Int) (low high : Int) (bytes : List UInt8)
    (n : Nat) : Prop where
  spans : Spans bytes n
  short : n ≤ 5
  low_le : low ≤ number bytes n
  lt_high : number bytes n < high

/-- A reader of integers does at `start` what the bytes there ask for: it gives their number and
moves behind them, or it stays and says what is wrong. -/
structure ReadsExactly (x : Read ReadError Word) (number : List UInt8 → Nat → Int)
    (view : Word → Int) (low high : Int) (buffer : List UInt8) (start : Nat) : Prop where
  ok_iff : ∀ v w, x (.seek buffer start) = .ok v w ↔
    ∃ n, Encoded number low high (buffer.drop start) n ∧ view v = number (buffer.drop start) n ∧
      w = .seek buffer (start + n)
  error_iff : ∀ e w, x (.seek buffer start) = .error e w ↔
    (¬∃ n, Encoded number low high (buffer.drop start) n) ∧ w = .seek buffer start ∧
      (CutShort (buffer.drop start) ∧ e = .truncated buffer.length ∨
        ¬CutShort (buffer.drop start) ∧ e = .malformed start)

variable {buffer : List UInt8} {start : Nat}

theorem integer_seek_of_ok (h : decode (buffer.drop start) = .ok (v, n)) :
    Window.integer decode (.seek buffer start) = .ok v (.seek buffer (start + n)) := by
  have hmove : (Window.seek buffer start).advance n = .seek buffer (start + n) := by
    rw [Window.advance, Window.seek, List.drop_drop]
    rfl
  rw [Window.integer, Window.seek, h]
  exact congrArg _ hmove

theorem integer_seek_of_truncated (hstart : start ≤ buffer.length)
    (h : decode (buffer.drop start) = .error .truncated) :
    Window.integer decode (.seek buffer start) =
      .error (.truncated buffer.length) (.seek buffer start) := by
  have hstop : (Window.seek buffer start).stop = buffer.length := by
    rw [Window.stop, Window.seek, List.length_drop, Nat.add_sub_of_le hstart]
  rw [← hstop, Window.integer, Window.seek, h]

theorem integer_seek_of_malformed (h : decode (buffer.drop start) = .error .malformed) :
    Window.integer decode (.seek buffer start) =
      .error (.malformed start) (.seek buffer start) := by
  rw [Window.integer, Window.seek, h]

theorem readsExactly_integer {fits : UInt8 → Bool} {word : List UInt8 → Word}
    (hdecode : Judges fits word decode)
    (hok : ∀ {bytes v n}, decode bytes = .ok (v, n) ↔
      Encoded number low high bytes n ∧ view v = number bytes n)
    (hview : ∀ {bytes n}, Encoded number low high bytes n → ∃ v, view v = number bytes n)
    (hstart : start ≤ buffer.length) :
    ReadsExactly (Window.integer decode) number view low high buffer start := by
  have hcut : decode (buffer.drop start) = .error .truncated ↔ CutShort (buffer.drop start) := by
    rw [hdecode.eq_truncated_iff, digits_eq_truncated_iff]
    exact ⟨fun h => ⟨h.1, h.2⟩, fun h => ⟨h.short, h.continues⟩⟩
  cases hd : decode (buffer.drop start) with
  | ok found =>
    obtain ⟨v₀, n₀⟩ := found
    obtain ⟨henc, hnumber⟩ := hok.mp hd
    refine ⟨fun v w => ?_, fun e w => ?_⟩
    · rw [integer_seek_of_ok hd]
      constructor
      · intro h
        obtain ⟨rfl, rfl⟩ := EStateM.Result.ok.inj h
        exact ⟨n₀, henc, hnumber, rfl⟩
      · rintro ⟨n, hn, hv, rfl⟩
        have hsame := hd.symm.trans (hok.mpr ⟨hn, hv⟩)
        simp only [Except.ok.injEq, Prod.mk.injEq] at hsame
        rw [hsame.1, hsame.2]
    · rw [integer_seek_of_ok hd]
      exact iff_of_false nofun fun h => h.1 ⟨n₀, henc⟩
  | error fault =>
    -- bytes with a number in the range would be taken
    have hnone : ¬∃ n, Encoded number low high (buffer.drop start) n := by
      rintro ⟨n, hn⟩
      obtain ⟨v, hv⟩ := hview hn
      rw [hok.mpr ⟨hn, hv⟩] at hd
      cases hd
    have hnot (v : Word) (w : Window) : ¬∃ n, Encoded number low high (buffer.drop start) n ∧
        view v = number (buffer.drop start) n ∧ w = .seek buffer (start + n) := by
      rintro ⟨n, hn, -⟩
      exact hnone ⟨n, hn⟩
    cases fault with
    | truncated =>
      have hread := integer_seek_of_truncated hstart hd
      refine ⟨fun v w => iff_of_false (by rw [hread]; exact nofun) (hnot v w), fun e w => ?_⟩
      rw [hread, and_iff_right hnone, ← hcut, hd]
      simp [eq_comm, and_comm]
    | malformed =>
      have hread := integer_seek_of_malformed hd
      refine ⟨fun v w => iff_of_false (by rw [hread]; exact nofun) (hnot v w), fun e w => ?_⟩
      rw [hread, and_iff_right hnone, ← hcut, hd]
      simp [eq_comm, and_comm]

end Exact

theorem decodeUnsigned_eq_ok_iff_encoded :
    decodeUnsigned bytes = .ok (v, n) ↔
      Encoded (fun bytes n => digitSum bytes n) 0 (2 ^ 32) bytes n ∧
        (v.toNat : Int) = digitSum bytes n := by
  rw [decodeUnsigned_eq_ok_iff]
  constructor
  · rintro ⟨bs, rest, rfl, rfl, h⟩
    have hsum : digitSum (bs ++ rest) bs.length = v.toNat := (digitSum_append bs rest).trans h.sum
    have hv := v.isLt
    refine ⟨⟨h.numeral.spans rest, h.short, Int.natCast_nonneg _, ?_⟩, by rw [hsum]⟩
    rw [hsum]
    exact_mod_cast hv
  · rintro ⟨henc, hv⟩
    obtain ⟨bs, rest, rfl, rfl, hn⟩ := spans_iff.mp henc.spans
    rw [digitSum_append] at hv
    exact ⟨bs, rest, rfl, rfl, hn, henc.short, by exact_mod_cast hv.symm⟩

theorem decodeSigned_eq_ok_iff_encoded :
    decodeSigned bytes = .ok (v, n) ↔
      Encoded signedSum (-2 ^ 31) (2 ^ 31) bytes n ∧ v.toInt = signedSum bytes n := by
  rw [decodeSigned_eq_ok_iff]
  constructor
  · rintro ⟨bs, rest, rfl, rfl, h⟩
    have hsum : signedSum (bs ++ rest) bs.length = v.toInt :=
      (signedSum_append h.numeral rest).trans h.sum
    refine ⟨⟨h.numeral.spans rest, h.short, ?_, ?_⟩, hsum.symm⟩
    · rw [hsum]
      exact BitVec.le_toInt v
    · rw [hsum]
      exact BitVec.toInt_lt
  · rintro ⟨henc, hv⟩
    obtain ⟨bs, rest, rfl, rfl, hn⟩ := spans_iff.mp henc.spans
    rw [signedSum_append hn] at hv
    exact ⟨bs, rest, rfl, rfl, hn, henc.short, hv.symm⟩

/-- At every place of every buffer the readers of integers accept exactly the encodings of 32-bit
integers, give their exact value and move behind them. All else they refuse without moving: bytes
that end within the first five digits at the end of the buffer, the others at their start. -/
theorem integers_read_exactly (buffer : List UInt8) (start : Nat)
    (h : start ≤ buffer.length) :
    ReadsExactly Window.unsigned (fun bytes n => digitSum bytes n) (fun v => v.toNat) 0 (2 ^ 32)
        buffer start ∧
      ReadsExactly Window.signed signedSum BitVec.toInt (-2 ^ 31) (2 ^ 31) buffer start := by
  constructor
  · refine readsExactly_integer judges_unsigned decodeUnsigned_eq_ok_iff_encoded
      (fun {bytes n} henc => ⟨BitVec.ofNat 32 (digitSum bytes n), ?_⟩) h
    have hlt := henc.lt_high
    rw [BitVec.toNat_ofNat, Nat.mod_eq_of_lt (by exact_mod_cast hlt)]
  · refine readsExactly_integer judges_signed decodeSigned_eq_ok_iff_encoded
      (fun {bytes n} henc => ⟨BitVec.ofInt 32 (signedSum bytes n), ?_⟩) h
    rw [BitVec.toInt_ofInt]
    apply Int.bmod_eq_of_le
    · exact henc.low_le
    · exact henc.lt_high

/-- Behind an opcode, minus one in two digits is read as such, and a lone first digit is cut short
at the end of the buffer. -/
theorem integers_read_behindOpcode :
    1 ≤ [0x41, 0xff, 0x7f].length ∧
      Window.signed (.seek [0x41, 0xff, 0x7f] 1) = .ok (-1) (.seek [0x41, 0xff, 0x7f] 3) ∧
      Window.unsigned (.seek [0x20, 0x80] 1) = .error (.truncated 2) (.seek [0x20, 0x80] 1) := by
  refine ⟨by decide, ?_, ?_⟩
  · refine ((integers_read_exactly [0x41, 0xff, 0x7f] 1 (by decide)).2.ok_iff _ _).mpr
      ⟨2, ⟨⟨by decide, by decide, by decide⟩, by decide, ?_, ?_⟩, ?_, rfl⟩ <;> decide +kernel
  · refine ((integers_read_exactly [0x20, 0x80] 1 (by decide)).1.error_iff _ _).mpr
      ⟨?_, rfl, .inl ⟨⟨by decide, by decide +kernel⟩, rfl⟩⟩
    rintro ⟨n, hn⟩
    obtain rfl : n = 1 := Nat.le_antisymm hn.spans.inside hn.spans.pos
    exact absurd ((hn.spans.continues_iff 0 Nat.one_pos).mp (by decide)) (by decide)

/-! ## Reading what was written -/

section RoundTrip

variable {x : Read ReadError Word} {Encodes : List UInt8 → Word → Prop}

theorem reads_back (hx : x.Accepts fun _ bs v => Encodes bs v) (h : Encodes bs v)
    (p s : List UInt8) :
    x (.seek (p ++ bs ++ s) p.length) = .ok v (.seek (p ++ bs ++ s) (p.length + bs.length)) := by
  have hdrop : (p ++ bs ++ s).drop p.length = bs ++ s := by rw [List.append_assoc, List.drop_left]
  rw [hx.run hdrop h, Window.behind_seek hdrop]

theorem offset_le_of_shortens {encode : Word → List UInt8}
    (hx : x.Accepts fun _ bs v => Encodes bs v)
    (hshort : ∀ {bs v}, Encodes bs v → Shortens (encode v) bs) {w w' : Window}
    (h : x w = .ok v w') : w.offset + (encode v).length ≤ w'.offset := by
  obtain ⟨bs, rest, -, rfl, he⟩ := (hx w v w').mp h
  exact Nat.add_le_add_left (hshort he).length_le w.offset

end RoundTrip

/-- A number below a power of 128 is written in as many digits as the power has. -/
theorem length_unsignedBytes_le_of_lt (limit k : Nat) (h : v.toNat < 128 ^ (k + 1)) :
    (unsignedBytes limit v).length ≤ k + 1 := by
  induction limit generalizing k v with
  | zero => exact Nat.zero_le _
  | succ limit ih =>
    have hshift := toNat_ushiftRight_seven v
    rw [unsignedBytes]
    by_cases hz : v >>> 7 = 0
    · simp [hz]
    · have hpos : 0 < (v >>> 7).toNat :=
        Nat.pos_of_ne_zero fun h0 => hz (BitVec.eq_of_toNat_eq h0)
      simp only [hz, if_false, List.length_cons]
      cases k with
      | zero => omega
      | succ k =>
        rw [pow_succ] at h
        exact Nat.succ_le_succ (ih k (by omega))

theorem length_encodeUnsigned {k : Nat} (hlow : k = 0 ∨ 128 ^ k ≤ v.toNat)
    (hhigh : v.toNat < 128 ^ (k + 1)) : (encodeUnsigned v).length = k + 1 := by
  have hu := unsigned_encodeUnsigned v
  apply Nat.le_antisymm (length_unsignedBytes_le_of_lt maxLength k hhigh)
  rcases hlow with rfl | hlow
  · exact List.length_pos_of_ne_nil hu.numeral.ne_nil
  · -- the sum of `k` digits stays below the number
    have hlt := value_lt (encodeUnsigned v)
    rw [hu.sum] at hlt
    exact (Nat.pow_lt_pow_iff_right (by decide)).mp (hlow.trans_lt hlt)

theorem encodedSize_eq_length (v : Word) : encodedSize v = (encodeUnsigned v).length := by
  have hv : v.toNat < 4294967296 := v.isLt
  simp only [encodedSize]
  split_ifs
  · exact (length_encodeUnsigned (k := 0) (by omega) (by omega)).symm
  · exact (length_encodeUnsigned (k := 1) (by omega) (by omega)).symm
  · exact (length_encodeUnsigned (k := 2) (by omega) (by omega)).symm
  · exact (length_encodeUnsigned (k := 3) (by omega) (by omega)).symm
  · exact (length_encodeUnsigned (k := 4) (by omega) (by omega)).symm

/-- What is written for a word is read back as it, in any place and up to its end. The table of
sizes gives the length of what is written, and whatever else is read as the same word is no
shorter. -/
theorem encodings_read_back_and_shortest :
    (∀ (v : Word) (p s : List UInt8),
      Window.unsigned (.seek (p ++ encodeUnsigned v ++ s) p.length) =
          .ok v (.seek (p ++ encodeUnsigned v ++ s) (p.length + (encodeUnsigned v).length)) ∧
        encodedSize v = (encodeUnsigned v).length ∧
        Window.signed (.seek (p ++ encodeSigned v ++ s) p.length) =
          .ok v (.seek (p ++ encodeSigned v ++ s) (p.length + (encodeSigned v).length))) ∧
      (∀ (v : Word) (w w' : Window), Window.unsigned w = .ok v w' →
        w.offset + encodedSize v ≤ w'.offset) ∧
      ∀ (v : Word) (w w' : Window), Window.signed w = .ok v w' →
        w.offset + (encodeSigned v).length ≤ w'.offset := by
  refine ⟨fun v p s => ⟨?_, encodedSize_eq_length v, ?_⟩, fun v w w' h => ?_, fun v w w' h => ?_⟩
  · exact reads_back Read.accepts_unsigned (unsigned_encodeUnsigned v) p s
  · exact reads_back Read.accepts_signed (signed_encodeSigned v) p s
  · rw [encodedSize_eq_length]
    exact offset_le_of_shortens Read.accepts_unsigned Unsigned.shortens h
  · exact offset_le_of_shortens Read.accepts_signed Signed.shortens h

/-- Zero in three digits and minus one in two are read, and need one each. -/
theorem encodings_shortest_padded :
    (Window.unsigned (.seek [0x80, 0x80, 0x00] 0) = .ok 0 (.seek [0x80, 0x80, 0x00] 3) ∧
        0 + encodedSize 0 ≤ 3) ∧
      Window.signed (.seek [0xff, 0x7f] 0) = .ok (-1) (.seek [0xff, 0x7f] 2) ∧
        0 + (encodeSigned (-1)).length ≤ 2 := by
  have hzero : Window.unsigned (.seek [0x80, 0x80, 0x00] 0) =
      .ok 0 (.seek [0x80, 0x80, 0x00] 3) := rfl
  have hminus : Window.signed (.seek [0xff, 0x7f] 0) = .ok (-1) (.seek [0xff, 0x7f] 2) := rfl
  exact ⟨⟨hzero, encodings_read_back_and_shortest.2.1 _ _ _ hzero⟩, hminus,
    encodings_read_back_and_shortest.2.2 _ _ _ hminus⟩

end Leb128

end WasmI32
