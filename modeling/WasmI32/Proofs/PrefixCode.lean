import WasmI32.Proofs.Leb128.Buffer
import WasmI32.Proofs.Skipping

/-!
# Instructions as a prefix code

The bytes of an instruction tell where it ends, so that none of them is the start of another, and
nothing behind it matters. Bytes that are refused are so whatever follows, unless they only end too
soon, and these can always be completed.
-/

namespace WasmI32

/-! ## Integers that are cut short -/

namespace Leb128

variable {bs : List UInt8}

theorem numeral_concat_zero (h : ∀ b ∈ bs, b.toNat.testBit 7 = true) : Numeral (bs ++ [0]) := by
  induction bs with
  | nil => rfl
  | cons b bs ih =>
    obtain ⟨hb, hbs⟩ := List.forall_mem_cons.mp h
    exact numeral_cons ((continues_eq_testBit b).trans hb) (ih hbs)

theorem value_concat_zero (bs : List UInt8) : value 0 (bs ++ [0]) = value 0 bs := by
  simp [value, digit]

theorem CutShort.value_lt (h : CutShort bs) : value 0 (bs ++ [0]) < 268435456 := by
  rw [value_concat_zero]
  calc value 0 bs < 128 ^ bs.length := Leb128.value_lt bs
    _ ≤ 128 ^ 4 := Nat.pow_le_pow_right (by decide) (Nat.le_of_lt_succ h.short)

theorem CutShort.length_le (h : CutShort bs) : (bs ++ [0]).length ≤ maxLength := by
  rw [List.length_append]
  exact h.short

/-- A zero digit completes an unsigned integer. -/
theorem CutShort.unsigned (h : CutShort bs) : ∃ v, Unsigned (bs ++ [0]) v := by
  have hlt := h.value_lt
  refine ⟨BitVec.ofNat 32 (value 0 (bs ++ [0])), numeral_concat_zero h.continues, h.length_le, ?_⟩
  rw [BitVec.toNat_ofNat]
  omega

/-- A zero digit completes a signed integer, for it has no sign. -/
theorem CutShort.signed (h : CutShort bs) : ∃ v, Signed (bs ++ [0]) v := by
  have hlt := h.value_lt
  have hvalue : signedValue (bs ++ [0]) = value 0 (bs ++ [0]) := by simp [signedValue, negative]
  refine ⟨BitVec.ofInt 32 (signedValue (bs ++ [0])), numeral_concat_zero h.continues,
    h.length_le, ?_⟩
  rw [BitVec.toInt_ofInt, hvalue]
  symm
  apply Int.bmod_eq_of_le <;> omega

theorem Judges.cutShort {fits : UInt8 → Bool} {word : List UInt8 → Word}
    {decode : List UInt8 → Except Fault (Word × Nat)} (h : Judges fits word decode)
    (hd : decode bs = .error .truncated) : CutShort bs := by
  obtain ⟨hlt, hall⟩ := digits_eq_truncated_iff.mp (h.eq_truncated_iff.mp hd)
  exact ⟨hlt, hall⟩

end Leb128

namespace Instruction

open Leb128 (Judges CutShort)

variable {code : Array UInt8} {ip next start o k : Nat} {i : Instruction} {bs : List UInt8}
  {w : Window} {e : InstructionError}

/-! ## Instructions that are cut short -/

theorem cutShort_of_integer {fits : UInt8 → Bool} {word : List UInt8 → Word}
    {decode : List UInt8 → Except Leb128.Fault (Word × Nat)} (hj : Judges fits word decode)
    (h : (Window.integer decode : Read InstructionError Word) ⟨start, o, bs⟩ =
      .error (.unexpectedEnd k) w) : CutShort bs := by
  cases hd : decode bs with
  | ok found =>
    change EStateM.adaptExcept _ (Window.integer decode) _ = _ at h
    simp [EStateM.adaptExcept, Window.integer, hd] at h
  | error fault =>
    cases fault with
    | truncated => exact hj.cutShort hd
    | malformed =>
      change EStateM.adaptExcept _ (Window.integer decode) _ = _ at h
      simp [EStateM.adaptExcept, Window.integer, hd, InstructionError.ofRead] at h

/-- Immediates that end too soon can be completed. -/
theorem Form.exists_completion {form : Form}
    (h : form.read ⟨start, o, bs⟩ = .error (.unexpectedEnd k) w) :
    ∃ more i, more ≠ [] ∧ form.Denotes (bs ++ more) i := by
  cases form with
  | plain i => cases h
  | construct kind =>
    cases bs with
    | nil => exact ⟨[0x40], enter kind .empty, by simp, .construct rfl⟩
    | cons b bs =>
      simp only [Form.read] at h
      rw [bind_of_ok (Window.here_eq_ok _), bind_of_ok (byte_cons start o b bs)] at h
      cases ht : blockType? b <;> rw [ht] at h <;> cases h
  | indexed build =>
    rcases bind_eq_error h with h | ⟨n, w₁, -, h⟩
    · obtain ⟨v, hv⟩ := (cutShort_of_integer Leb128.judges_unsigned h).unsigned
      exact ⟨[0], build v, by simp, .indexed hv⟩
    · cases h
  | access build =>
    have hzero : Leb128.Unsigned [0] 0 := ⟨rfl, by decide, rfl⟩
    rcases bind_eq_error h with h | ⟨align, w₁, hfirst, h⟩
    · obtain ⟨align, hv⟩ := (cutShort_of_integer Leb128.judges_unsigned h).unsigned
      refine ⟨[0, 0], build ⟨align, 0⟩, by simp, ?_⟩
      have hd : (Form.access build).Denotes (bs ++ [0] ++ [0]) (build ⟨align, 0⟩) :=
        .access hv hzero
      rwa [List.append_assoc] at hd
    · obtain ⟨front, back, hbs, rfl, ha⟩ :=
        (Read.accepts_adaptExcept Read.accepts_unsigned _ _ _ _).mp hfirst
      obtain rfl : bs = front ++ back := hbs
      rcases bind_eq_error h with h | ⟨offset, w₂, -, h⟩
      · obtain ⟨offset, hv⟩ := (cutShort_of_integer Leb128.judges_unsigned h).unsigned
        refine ⟨[0], build ⟨align, offset⟩, by simp, ?_⟩
        rw [List.append_assoc]
        exact .access ha hv
      · cases h
  | constant =>
    rcases bind_eq_error h with h | ⟨n, w₁, -, h⟩
    · obtain ⟨v, hv⟩ := (cutShort_of_integer Leb128.judges_signed h).signed
      exact ⟨[0], const v, by simp, .constant hv⟩
    · cases h
  | reserved i =>
    cases bs with
    | nil => exact ⟨[0], i, by simp, .reserved i⟩
    | cons b bs =>
      simp only [Form.read] at h
      rw [bind_of_ok (Window.here_eq_ok _), bind_of_ok (byte_cons start o b bs)] at h
      split at h <;> cases h

theorem exists_completion (h : read ⟨start, o, bs⟩ = .error (.unexpectedEnd k) w) :
    ∃ more i, more ≠ [] ∧ Denotes (bs ++ more) i := by
  cases bs with
  | nil => exact ⟨[0x00], unreachable, by simp, .intro rfl (.plain _)⟩
  | cons b bs =>
    cases hf : form? b with
    | none =>
      rw [read_of_form?_none start o bs hf] at h
      cases h
    | some form =>
      rw [read_of_form? start o bs hf] at h
      obtain ⟨more, i, hne, hd⟩ := Form.exists_completion h
      exact ⟨more, i, hne, .intro hf hd⟩

/-! ## Code and its extensions -/

theorem decodeAt_eq_read (code : Array UInt8) (ip : Nat) :
    decodeAt code ip = outcome (read ⟨ip, ip, code.toList.drop ip⟩) := by
  by_cases h : ip < code.size
  · exact decodeAt_eq_outcome ip h
  · have hsize : code.size ≤ ip := Nat.le_of_not_lt h
    have hnil : code.toList.drop ip = [] := List.drop_eq_nil_of_le (by simpa using hsize)
    rw [decodeAt_of_size_le hsize, hnil]
    rfl

theorem decodeAt_append_eq_read (hip : ip ≤ code.size) (more : Array UInt8) :
    decodeAt (code ++ more) ip =
      outcome (read ⟨ip, ip, code.toList.drop ip ++ more.toList⟩) := by
  rw [decodeAt_eq_read, Array.toList_append, List.drop_append_of_le_length (by simpa using hip)]

theorem outcome_eq_error {r : EStateM.Result InstructionError Window Instruction}
    (h : outcome r = .error e) : ∃ w, r = .error e w := by
  cases r with
  | ok i w => cases h
  | error e' w =>
    cases h
    exact ⟨w, rfl⟩

theorem standsAt_iff_getElem? :
    StandsAt code ip bs ↔ ∀ k, k < bs.length → code[ip + k]? = bs[k]? := by
  have hstands : StandsAt code ip bs ↔ bs <+: code.toList.drop ip := by
    simp only [StandsAt, List.IsPrefix, eq_comm]
  rw [hstands, List.prefix_iff_getElem?]
  refine forall₂_congr fun k hk => ?_
  rw [List.getElem?_drop, Array.getElem?_toList, List.getElem?_eq_getElem hk]

theorem Denotes.length_le (h : Denotes bs i) : bs.length ≤ 11 := by
  cases h with
  | @intro opcode form bs i hf hd =>
    have hle : form.maxLength ≤ 10 := by
      cases form <;> simp [Form.maxLength, Leb128.maxLength]
    have hlength := hd.length_le
    rw [List.length_cons]
    omega

/-- An instruction is told by its own bytes. -/
theorem decodeAt_congr {code' : Array UInt8} (h : decodeAt code ip = .ok (i, next))
    (hsame : ∀ k, ip ≤ k → k < next → code'[k]? = code[k]?) :
    decodeAt code' ip = .ok (i, next) := by
  obtain ⟨bs, hd, hs, rfl⟩ := decodeAt_eq_ok_iff.mp h
  refine decodeAt_eq_ok_iff.mpr ⟨bs, hd, standsAt_iff_getElem?.mpr fun k hk => ?_, rfl⟩
  rw [hsame (ip + k) (by omega) (by omega), standsAt_iff_getElem?.mp hs k hk]

theorem decodeAt_append_of_ok (h : decodeAt code ip = .ok (i, next)) (more : Array UInt8) :
    decodeAt (code ++ more) ip = .ok (i, next) := by
  have hle := le_size_of_decodeAt h
  exact decodeAt_congr h fun k _ hk => Array.getElem?_append_left (by omega)

theorem exists_settles_read (o : Nat) (bs : List UInt8) :
    ∃ n, Read.Settles InstructionError.unexpectedEnd n read o bs := by
  cases bs with
  | nil => exact ⟨1, .ended Nat.one_pos fun start => ⟨_, rfl⟩⟩
  | cons b bs => exact ⟨maxLength b, settles_read b o bs⟩

theorem decodeAt_append_of_unexpectedEnd (hip : ip ≤ code.size)
    (h : decodeAt code ip = .error (.unexpectedEnd o)) :
    ∃ more : Array UInt8, more ≠ #[] ∧ ∃ i,
      decodeAt (code ++ more) ip = .ok (i, code.size + more.size) := by
  rw [decodeAt_eq_read] at h
  obtain ⟨w, hr⟩ := outcome_eq_error h
  obtain ⟨more, i, hne, hd⟩ := exists_completion hr
  refine ⟨more.toArray, by simpa using hne, i, decodeAt_eq_ok_iff.mpr ⟨_, hd, ⟨[], ?_⟩, ?_⟩⟩
  · rw [List.append_nil, Array.toList_append, List.drop_append_of_le_length (by simpa using hip)]
  · simp only [List.length_append, List.length_drop, Array.length_toList, List.size_toArray]
    omega

/-- Code that is refused is cut short at its end, or is refused whatever follows. -/
theorem decodeAt_error_cases (hip : ip ≤ code.size) (h : decodeAt code ip = .error e) :
    e = .unexpectedEnd code.size ∨
      ∀ more : Array UInt8, decodeAt (code ++ more) ip = .error e := by
  rw [decodeAt_eq_read] at h
  obtain ⟨n, hsettles⟩ := exists_settles_read ip (code.toList.drop ip)
  cases hsettles with
  | ok front back hbs _ hread =>
    rw [hbs, hread] at h
    cases h
  | error hread =>
    right
    intro more
    obtain ⟨w, hw⟩ := hread ip []
    obtain ⟨w', hw'⟩ := hread ip more.toList
    rw [List.append_nil] at hw
    rw [hw] at h
    rw [decodeAt_append_eq_read hip, hw']
    exact h
  | ended _ hread =>
    left
    obtain ⟨w, hw⟩ := hread ip
    rw [hw] at h
    cases h
    rw [List.length_drop, Array.length_toList, Nat.add_sub_cancel' hip]

/-- Code is cut short nowhere but at its end. -/
theorem eq_size_of_unexpectedEnd (hip : ip ≤ code.size)
    (h : decodeAt code ip = .error (.unexpectedEnd o)) : o = code.size := by
  obtain ⟨more, -, i, hmore⟩ := decodeAt_append_of_unexpectedEnd hip h
  rcases decodeAt_error_cases hip h with hend | hrefused
  · cases hend
    rfl
  · -- a completion would not be refused
    rw [hrefused more] at hmore
    cases hmore

/-- An error that is not the end of the code stays, whatever follows. -/
theorem decodeAt_append_of_error (hip : ip ≤ code.size) (h : decodeAt code ip = .error e)
    (he : ∀ o, e ≠ .unexpectedEnd o) (more : Array UInt8) :
    decodeAt (code ++ more) ip = .error e := by
  rcases decodeAt_error_cases hip h with rfl | hrefused
  · exact absurd rfl (he _)
  · exact hrefused more

theorem unexpectedEnd_iff (hip : ip ≤ code.size) :
    decodeAt code ip = .error (.unexpectedEnd o) ↔
      o = code.size ∧ ∃ more : Array UInt8, more ≠ #[] ∧ ∃ i next,
        decodeAt (code ++ more) ip = .ok (i, next) ∧ code.size < next := by
  constructor
  · intro h
    obtain ⟨more, hne, i, hmore⟩ := decodeAt_append_of_unexpectedEnd hip h
    have hpos : 0 < more.size := Array.size_pos_iff.mpr hne
    exact ⟨eq_size_of_unexpectedEnd hip h, more, hne, i, _, hmore, by omega⟩
  · rintro ⟨rfl, more, -, i, next, hmore, hlt⟩
    cases hd : decodeAt code ip with
    | ok found =>
      obtain ⟨i', next'⟩ := found
      have hle := le_size_of_decodeAt hd
      rw [decodeAt_append_of_ok hd] at hmore
      cases hmore
      omega
    | error e =>
      cases e with
      | unexpectedEnd o => rw [eq_size_of_unexpectedEnd hip hd]
      | _ =>
        rw [decodeAt_append_of_error hip hd nofun] at hmore
        cases hmore

/-- What is found at a place in the code depends on the bytes that it takes up, and on no others. An
instruction is found in any code with the same bytes, eleven at most. An error other than the end of
the code is found in all extensions of the code. The end of the code is found exactly where an
extension has an instruction that goes beyond it. So no bytes of an instruction are the start of
those of another. -/
theorem decodeAt_settled_by_bytes :
    (∀ (code : Array UInt8) (ip : Nat), ip ≤ code.size →
      (∀ i next, decodeAt code ip = .ok (i, next) →
        ip < next ∧ next ≤ min code.size (ip + 11) ∧
        ∀ code' : Array UInt8, (∀ k, ip ≤ k → k < next → code'[k]? = code[k]?) →
          decodeAt code' ip = .ok (i, next)) ∧
      (∀ e, decodeAt code ip = .error e → (∀ o, e ≠ .unexpectedEnd o) →
        ∀ more, decodeAt (code ++ more) ip = .error e) ∧
      ∀ o, decodeAt code ip = .error (.unexpectedEnd o) ↔
        o = code.size ∧ ∃ more : Array UInt8, more ≠ #[] ∧ ∃ i next,
          decodeAt (code ++ more) ip = .ok (i, next) ∧ code.size < next) ∧
    ∀ (bs cs : List UInt8) (i j : Instruction), decodeAt bs.toArray 0 = .ok (i, bs.length) →
      decodeAt cs.toArray 0 = .ok (j, cs.length) → bs <+: cs → bs = cs ∧ i = j := by
  refine ⟨fun code ip hip => ⟨fun i next h => ?_, fun e h he => ?_, fun o => ?_⟩, ?_⟩
  · have hle := le_size_of_decodeAt h
    obtain ⟨bs, hd, -, rfl⟩ := decodeAt_eq_ok_iff.mp h
    have hlength := hd.length_le
    exact ⟨lt_of_decodeAt h, by omega, fun code' => decodeAt_congr h⟩
  · exact decodeAt_append_of_error hip h he
  · exact unexpectedEnd_iff hip
  · rintro bs cs i j hi hj ⟨more, rfl⟩
    have hmore := decodeAt_append_of_ok hi more.toArray
    rw [List.append_toArray, hj] at hmore
    simp only [Except.ok.injEq, Prod.mk.injEq, List.length_append, Nat.add_eq_left,
      List.length_eq_zero_iff] at hmore
    rw [hmore.1, hmore.2, List.append_nil]
    exact ⟨rfl, rfl⟩

/-- A constant is found whatever byte follows it. A load whose offset is cut short can be completed;
one whose alignment has a sixth digit is refused before its offset is looked at. -/
theorem decodeAt_settled_constAndLoads :
    decodeAt #[0x41, 0x7f, 0xff] 0 = .ok (const (-1), 2) ∧
      (∃ more : Array UInt8, more ≠ #[] ∧ ∃ i next,
        decodeAt (#[0x28, 0x02, 0x80] ++ more) 0 = .ok (i, next) ∧ 3 < next) ∧
      decodeAt (#[0x28, 0x80, 0x80, 0x80, 0x80, 0x80] ++ #[0x00, 0x00]) 0 =
        .error (.malformedImmediate 1) := by
  have hconst : decodeAt #[0x41, 0x7f] 0 = .ok (const (-1), 2) := by decide +kernel
  have hcut : decodeAt #[0x28, 0x02, 0x80] 0 = .error (.unexpectedEnd 3) := by decide +kernel
  have hlong : decodeAt #[0x28, 0x80, 0x80, 0x80, 0x80, 0x80] 0 =
      .error (.malformedImmediate 1) := by decide +kernel
  refine ⟨?_, ?_, ?_⟩
  · refine ((decodeAt_settled_by_bytes.1 _ 0 (Nat.zero_le _)).1 _ _ hconst).2.2 _ ?_
    intro k _ hk
    interval_cases k <;> rfl
  · exact (((decodeAt_settled_by_bytes.1 _ 0 (Nat.zero_le _)).2.2 3).mp hcut).2
  · exact (decodeAt_settled_by_bytes.1 _ 0 (Nat.zero_le _)).2.1 _ hlong nofun #[0x00, 0x00]

end Instruction

end WasmI32
