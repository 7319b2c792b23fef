import WasmI32.Proofs.Leb128.Shortest
import WasmI32.Proofs.Lookahead
import WasmI32.Proofs.Reencoding
import WasmI32.Proofs.Skipping

/-!
# Writing and reading instructions

What is written is read back, wherever it stands and whatever is around it, one instruction or a row
of them. In the other direction the bytes of an instruction need not be those that are written for
it, for integers may have more digits than they need: the written bytes are the only ones of their
length, and no longer than any others.
-/

namespace WasmI32.Instruction

open Leb128 (Shortens encodeUnsigned encodeSigned)
open Structured (encodeAll_append encodeAll_cons)

variable {code : Array UInt8} {ip next stop stop' : Nat} {i : Instruction} {bs : List UInt8}

/-! ## The shortest bytes -/

/-- The bytes that are written for the instructions of a form whose opcode is `b`. -/
def Form.Writes (b : UInt8) : Form → Prop
  | plain i => i.encode = [b]
  | construct kind => ∀ type, (enter kind type).encode = [b, type.toByte]
  | indexed build => ∀ n, (build n).encode = b :: encodeUnsigned n
  | access build => ∀ arg, (build arg).encode = b :: arg.encode
  | constant => ∀ v, (const v).encode = b :: encodeSigned v
  | reserved i => i.encode = [b, 0]

theorem writes_of_form? {b : UInt8} {form : Form} (hf : form? b = some form) : form.Writes b := by
  unfold form? at hf
  split at hf <;> cases hf <;> (try intro) <;> rfl

theorem eq_toByte_of_blockType? {b : UInt8} {type : BlockType} (h : blockType? b = some type) :
    b = type.toByte := by
  unfold blockType? at h
  split at h
  · cases h
    assumption
  · split at h
    · cases h
      assumption
    · cases h

theorem Form.Denotes.shortens {b : UInt8} {form : Form} (hd : form.Denotes bs i)
    (hw : form.Writes b) : Shortens i.encode (b :: bs) := by
  have hfirst := Shortens.refl [b]
  cases hd with
  | plain i =>
    have hwrites : i.encode = [b] := hw
    rw [hwrites]
    exact hfirst
  | @construct kind c type h =>
    have hwrites : (enter kind type).encode = [b, type.toByte] := hw type
    rw [hwrites, ← eq_toByte_of_blockType? h]
    exact .refl _
  | @indexed build bs n h =>
    have hwrites : (build n).encode = b :: encodeUnsigned n := hw n
    rw [hwrites]
    exact hfirst.append h.shortens
  | @access build bs cs align offset ha ho =>
    have hwrites : (build ⟨align, offset⟩).encode =
        b :: (encodeUnsigned align ++ encodeUnsigned offset) := hw ⟨align, offset⟩
    rw [hwrites]
    exact hfirst.append (ha.shortens.append ho.shortens)
  | @constant bs v h =>
    have hwrites : (const v).encode = b :: encodeSigned v := hw v
    rw [hwrites]
    exact hfirst.append h.shortens
  | reserved i =>
    have hwrites : i.encode = [b, 0] := hw
    rw [hwrites]
    exact .refl _

theorem Denotes.shortens (h : Denotes bs i) : Shortens i.encode bs := by
  cases h with
  | intro hf hd => exact hd.shortens (writes_of_form? hf)

theorem shortens_of_decodeAt (h : decodeAt code ip = .ok (i, next)) :
    Shortens i.encode (code.extract ip next).toList := by
  obtain ⟨bs, hd, ⟨rest, hrest⟩, rfl⟩ := decodeAt_eq_ok_iff.mp h
  have hbytes : (code.extract ip (ip + bs.length)).toList = bs := by
    rw [Array.toList_extract, List.extract_eq_take_drop, hrest, Nat.add_sub_cancel_left,
      List.take_left]
  rw [hbytes]
  exact hd.shortens

/-! ## Rows of instructions -/

/-- Instructions in a row, the first at `o`, each with its offset if they are written out. -/
def numbered (o : Nat) : List Instruction → List (Nat × Instruction)
  | [] => []
  | i :: is => (o, i) :: numbered (o + i.encode.length) is

theorem getElem?_numbered (o : Nat) (is : List Instruction) (k : Nat) :
    (numbered o is)[k]? =
      is[k]?.map fun i => (o + ((is.take k).map fun j => j.encode.length).sum, i) := by
  induction is generalizing o k with
  | nil => rfl
  | cons i is ih =>
    cases k with
    | zero => rfl
    | succ k =>
      rw [numbered, List.getElem?_cons_succ, List.getElem?_cons_succ, ih, List.take_succ_cons,
        List.map_cons, List.sum_cons, Nat.add_assoc]

theorem Row.unique {is js : List (Nat × Instruction)} (h : Row code ip is stop)
    (h' : Row code ip js stop') : is = js ∧ stop = stop' := by
  induction h generalizing js with
  | nil hn =>
    cases h' with
    | nil => exact ⟨rfl, rfl⟩
    | cons hd => exact absurd hd (hn _ _)
  | cons hd _ ih =>
    obtain ⟨rest, rfl, hrest⟩ := h'.uncons hd
    obtain ⟨rfl, hstop⟩ := ih hrest
    exact ⟨rfl, hstop⟩

theorem row_encodeAll (front back : List Instruction) :
    Row (encodeAll (front ++ back)).toArray (encodeAll front).length
      (numbered (encodeAll front).length back) (encodeAll (front ++ back)).length := by
  induction back generalizing front with
  | nil =>
    rw [List.append_nil]
    refine .nil fun i next hd => ?_
    have hlt := lt_of_decodeAt hd
    have hle := le_size_of_decodeAt hd
    rw [List.size_toArray] at hle
    omega
  | cons i back ih =>
    have hrest := ih (front ++ [i])
    rw [List.append_assoc, List.singleton_append, length_encodeAll_concat] at hrest
    exact .cons (decodeAt_encode (standsAt_encodeAll front back i)) hrest

theorem EndsAt.error_eq_none {error : Option InstructionError} (h : EndsAt code code.size error) :
    error = none := by
  cases h with
  | whole => rfl
  | fault hlt => exact absurd hlt (Nat.lt_irrefl _)

theorem scan_encodeAll (is : List Instruction) :
    (scan (encodeAll is).toArray).instructions.toList = numbered 0 is ∧
      (scan (encodeAll is).toArray).error = none := by
  obtain ⟨hfound, hstop⟩ := (row_scan (encodeAll is).toArray).unique (row_encodeAll [] is)
  have hends := endsAt_scan (encodeAll is).toArray
  have hsize : (scan (encodeAll is).toArray).stop = (encodeAll is).toArray.size := hstop
  rw [hsize] at hends
  exact ⟨hfound, hends.error_eq_none⟩

/-! ## Round trips -/

/-- The encoder writes the opcodes of most instructions itself. -/
theorem head?_encode (i : Instruction) : i.encode.head? = some i.opcode := by
  cases i with
  | enter kind type => cases kind <;> rfl
  | _ => rfl

theorem decodeAt_append (p s : List UInt8) (i : Instruction) :
    decodeAt (p ++ i.encode ++ s).toArray p.length = .ok (i, p.length + i.encode.length) := by
  refine decodeAt_encode ⟨s, ?_⟩
  rw [List.append_assoc, List.drop_left]

/-- An instruction is read back from its bytes in any place, and so is a row of them, at the offsets
that their lengths give and without a fault. An instruction that is read starts with its opcode, and
its bytes are as many as are written for it only if they are the same. -/
theorem decodeAt_inverts_encode :
    (∀ (i : Instruction) (p s : List UInt8),
      decodeAt (p ++ i.encode ++ s).toArray p.length = .ok (i, p.length + i.encode.length) ∧
      i.encode.head? = some i.opcode) ∧
    (∀ is : List Instruction,
      (∀ k, (scan (encodeAll is).toArray).instructions[k]? =
        is[k]?.map fun i => (((is.take k).map fun j => j.encode.length).sum, i)) ∧
      (scan (encodeAll is).toArray).error = none) ∧
    ∀ (code : Array UInt8) (ip : Nat) (i : Instruction) (next : Nat),
      decodeAt code ip = .ok (i, next) →
        code[ip]? = some i.opcode ∧ i.encode.length ≤ next - ip ∧
        (i.encode.length = next - ip → i.encode = (code.extract ip next).toList) := by
  refine ⟨fun i p s => ⟨decodeAt_append p s i, head?_encode i⟩, fun is => ?_,
    fun code ip i next h => ?_⟩
  · obtain ⟨hfound, herror⟩ := scan_encodeAll is
    refine ⟨fun k => ?_, herror⟩
    rw [← Array.getElem?_toList, hfound, getElem?_numbered]
    simp
  · have hshort := shortens_of_decodeAt h
    have hlength : (code.extract ip next).toList.length = next - ip := by
      have hle := le_size_of_decodeAt h
      rw [Array.length_toList, Array.size_extract]
      omega
    rw [← hlength]
    exact ⟨getElem?_of_decodeAt h, hshort.length_le, hshort.eq_of_length_eq⟩

/-- A constant with a digit that it does not need is read, and written without it. -/
theorem decodeAt_paddedConst :
    decodeAt #[0x41, 0xff, 0x7f] 0 = .ok (const (-1), 3) ∧
      (const (-1)).encode = [0x41, 0x7f] ∧ (const (-1)).encode.length ≤ 3 - 0 := by
  have hread : decodeAt #[0x41, 0xff, 0x7f] 0 = .ok (const (-1), 3) := by decide +kernel
  exact ⟨hread, by decide +kernel, (decodeAt_inverts_encode.2.2 _ _ _ _ hread).2.1⟩

end WasmI32.Instruction
