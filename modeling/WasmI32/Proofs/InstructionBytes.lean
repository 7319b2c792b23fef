import WasmI32.Instruction.Decode
import WasmI32.Proofs.Reading

/-!
# The bytes of instructions

`Instruction.Denotes` says which bytes are an instruction: integers need not be written in the
fewest bytes. Reading accepts exactly these, and encoding gives one of them. The machine reads
through a window that is cut to the longest form of the opcode; what it finds there is what stands
in the whole code.
-/

namespace WasmI32.Instruction

open Leb128 (Unsigned Signed)

/-- The immediates of a form, with the instruction they make. -/
inductive Form.Denotes : Form → List UInt8 → Instruction → Prop
  | plain (i : Instruction) : Denotes (.plain i) [] i
  | construct {kind : BlockKind} {b : UInt8} {type : BlockType} (h : blockType? b = some type) :
    Denotes (.construct kind) [b] (enter kind type)
  | indexed {build : Word → Instruction} {bs : List UInt8} {n : Word} (h : Unsigned bs n) :
    Denotes (.indexed build) bs (build n)
  | access {build : MemArg → Instruction} {bs cs : List UInt8} {align offset : Word}
    (ha : Unsigned bs align) (ho : Unsigned cs offset) :
    Denotes (.access build) (bs ++ cs) (build ⟨align, offset⟩)
  | constant {bs : List UInt8} {v : Word} (h : Signed bs v) : Denotes .constant bs (const v)
  | reserved (i : Instruction) : Denotes (.reserved i) [0] i

/-- The bytes are an opcode followed by immediates of its form. -/
inductive Denotes : List UInt8 → Instruction → Prop
  | intro {opcode : UInt8} {form : Form} {bs : List UInt8} {i : Instruction}
    (hf : form? opcode = some form) (hd : form.Denotes bs i) : Denotes (opcode :: bs) i

/-! ## Reading -/

theorem accepts_form (form : Form) : form.read.Accepts (fun _ bs i => form.Denotes bs i) := by
  cases form with
  | plain i =>
    refine (Read.accepts_pure i).congr fun o bs j => ?_
    constructor
    · rintro ⟨rfl, rfl⟩
      exact .plain _
    · intro h
      cases h
      exact ⟨rfl, rfl⟩
  | construct kind =>
    refine (Read.accepts_bind Read.accepts_here fun offset =>
      Read.accepts_bind (H := fun b _ bs i => bs = [] ∧ ∃ type, blockType? b = some type ∧
        i = enter kind type) (Read.accepts_adaptExcept Read.accepts_byte _) fun b => ?_).congr
          fun o bs i => ?_
    · cases blockType? b with
      | none => exact (Read.accepts_throw _).congr fun o bs a => by simp
      | some type => exact (Read.accepts_pure _).congr fun o bs a => by simp [Read.nothing]
    constructor
    · rintro ⟨_, _, _, rfl, ⟨rfl, -⟩, b, _, _, rfl, rfl, rfl, type, ht, rfl⟩
      exact .construct ht
    · intro h
      cases h with
      | construct ht => exact ⟨o, [], _, rfl, ⟨rfl, rfl⟩, _, [_], [], rfl, rfl, rfl, _, ht, rfl⟩
  | indexed build =>
    refine (Read.accepts_bind (Read.accepts_adaptExcept Read.accepts_unsigned _) fun n =>
      Read.accepts_pure (build n)).congr fun o bs i => ?_
    constructor
    · rintro ⟨n, bs, _, rfl, hn, rfl, rfl⟩
      rw [List.append_nil]
      exact .indexed hn
    · intro h
      cases h with
      | indexed hn => exact ⟨_, bs, [], by simp, hn, rfl, rfl⟩
  | access build =>
    refine (Read.accepts_bind (Read.accepts_adaptExcept Read.accepts_unsigned _) fun align =>
      Read.accepts_bind (Read.accepts_adaptExcept Read.accepts_unsigned _) fun offset =>
        Read.accepts_pure (build ⟨align, offset⟩)).congr fun o bs i => ?_
    constructor
    · rintro ⟨align, bs, _, rfl, ha, offset, cs, _, rfl, ho, rfl, rfl⟩
      rw [List.append_nil]
      exact .access ha ho
    · intro h
      cases h with
      | access ha ho => exact ⟨_, _, _, rfl, ha, _, _, [], by simp, ho, rfl, rfl⟩
  | constant =>
    refine (Read.accepts_bind (Read.accepts_adaptExcept Read.accepts_signed _) fun v =>
      Read.accepts_pure (const v)).congr fun o bs i => ?_
    constructor
    · rintro ⟨v, bs, _, rfl, hv, rfl, rfl⟩
      rw [List.append_nil]
      exact .constant hv
    · intro h
      cases h with
      | constant hv => exact ⟨_, bs, [], by simp, hv, rfl, rfl⟩
  | reserved i =>
    have hcheck (offset : Nat) (b : UInt8) : Read.Accepts
        (if b = 0 then pure i else throw (.malformedImmediate offset) :
          Read InstructionError Instruction)
        (fun _ bs j => bs = [] ∧ b = 0 ∧ j = i) := by
      split
      · exact (Read.accepts_pure _).congr fun o bs a => by simp [Read.nothing, *]
      · exact (Read.accepts_throw _).congr fun o bs a => by simp [*]
    refine (Read.accepts_bind Read.accepts_here fun offset =>
      Read.accepts_bind (Read.accepts_adaptExcept Read.accepts_byte _) (hcheck offset)).congr
        fun o bs j => ?_
    constructor
    · rintro ⟨_, _, _, rfl, ⟨rfl, -⟩, b, _, _, rfl, rfl, rfl, rfl, rfl⟩
      exact .reserved _
    · intro h
      cases h
      exact ⟨o, [], _, rfl, ⟨rfl, rfl⟩, 0, [0], [], rfl, rfl, rfl, rfl, rfl⟩

/-- Reading an instruction accepts what denotes it. -/
theorem accepts_read : read.Accepts (fun _ bs i => Denotes bs i) := by
  refine (Read.accepts_bind Read.accepts_here fun offset =>
    Read.accepts_bind (H := fun opcode _ bs i => ∃ form, form? opcode = some form ∧
      form.Denotes bs i) (Read.accepts_adaptExcept Read.accepts_byte _) fun opcode => ?_).congr
        fun o bs i => ?_
  · cases form? opcode with
    | none => exact (Read.accepts_throw _).congr fun o bs a => by simp
    | some form => exact (accepts_form form).congr fun o bs a => by simp
  constructor
  · rintro ⟨_, _, _, rfl, ⟨rfl, -⟩, opcode, _, bs, rfl, rfl, form, hf, hd⟩
    exact .intro hf hd
  · rintro ⟨hf, hd⟩
    exact ⟨o, [], _, rfl, ⟨rfl, rfl⟩, _, [_], _, rfl, rfl, _, hf, hd⟩

/-! ## Writing -/

theorem blockType?_toByte (type : BlockType) : blockType? type.toByte = some type := by
  cases type <;> rfl

/-- Encoding an instruction gives bytes that denote it. -/
theorem denotes_encode (i : Instruction) : Denotes i.encode i := by
  cases i with
  | enter kind type =>
    have htype : (Form.construct kind).Denotes [type.toByte] (enter kind type) :=
      .construct (blockType?_toByte type)
    cases kind with
    | block => exact .intro rfl htype
    | loop => exact .intro rfl htype
    | cond => exact .intro rfl htype
  | br label => exact .intro rfl (.indexed (Leb128.unsigned_encodeUnsigned label))
  | brIf label => exact .intro rfl (.indexed (Leb128.unsigned_encodeUnsigned label))
  | call function => exact .intro rfl (.indexed (Leb128.unsigned_encodeUnsigned function))
  | localGet index => exact .intro rfl (.indexed (Leb128.unsigned_encodeUnsigned index))
  | localSet index => exact .intro rfl (.indexed (Leb128.unsigned_encodeUnsigned index))
  | localTee index => exact .intro rfl (.indexed (Leb128.unsigned_encodeUnsigned index))
  | load op arg =>
    have hf : form? op.opcode = some (.access (load op)) := by cases op <;> rfl
    exact .intro hf (.access (Leb128.unsigned_encodeUnsigned arg.align)
      (Leb128.unsigned_encodeUnsigned arg.offset))
  | store width arg =>
    have hf : form? width.storeOpcode = some (.access (store width)) := by cases width <;> rfl
    exact .intro hf (.access (Leb128.unsigned_encodeUnsigned arg.align)
      (Leb128.unsigned_encodeUnsigned arg.offset))
  | memorySize => exact .intro rfl (.reserved memorySize)
  | memoryGrow => exact .intro rfl (.reserved memoryGrow)
  | const value => exact .intro rfl (.constant (Leb128.signed_encodeSigned value))
  | unary op =>
    have hf : form? op.opcode = some (.plain (unary op)) := by cases op <;> rfl
    exact .intro hf (.plain _)
  | compare op =>
    have hf : form? op.opcode = some (.plain (compare op)) := by cases op <;> rfl
    exact .intro hf (.plain _)
  | binary op =>
    have hf : form? op.opcode = some (.plain (binary op)) := by cases op <;> rfl
    exact .intro hf (.plain _)
  | unreachable => exact .intro rfl (.plain _)
  | nop => exact .intro rfl (.plain _)
  | elseMark => exact .intro rfl (.plain _)
  | endMark => exact .intro rfl (.plain _)
  | ret => exact .intro rfl (.plain _)
  | drop => exact .intro rfl (.plain _)

/-! ## Reading at a place in the code -/

theorem Form.Denotes.length_le {form : Form} {bs : List UInt8} {i : Instruction}
    (h : form.Denotes bs i) : bs.length ≤ form.maxLength := by
  cases h with
  | plain | construct | reserved => simp [Form.maxLength]
  | indexed h => exact h.short
  | access ha ho =>
    have h1 := ha.short
    have h2 := ho.short
    simp only [List.length_append, Form.maxLength]
    omega
  | constant h => exact h.short

theorem Denotes.length_pos {bs : List UInt8} {i : Instruction} (h : Denotes bs i) :
    0 < bs.length := by
  cases h
  simp

theorem byte_cons (start o : Nat) (b : UInt8) (rest : List UInt8) :
    (Window.byte : Read InstructionError UInt8) ⟨start, o, b :: rest⟩ =
      .ok b ⟨start, o + 1, rest⟩ := rfl

theorem read_of_form? {b : UInt8} {form : Form} (start o : Nat) (rest : List UInt8)
    (hf : form? b = some form) :
    read ⟨start, o, b :: rest⟩ = form.read ⟨start, o + 1, rest⟩ := by
  unfold read
  rw [bind_of_ok (Window.here_eq_ok _), bind_of_ok (byte_cons start o b rest)]
  simp only [hf]

theorem read_of_form?_none {b : UInt8} (start o : Nat) (rest : List UInt8) (hf : form? b = none) :
    read ⟨start, o, b :: rest⟩ = .error (.invalidOpcode b o) ⟨start, o + 1, rest⟩ := by
  unfold read
  rw [bind_of_ok (Window.here_eq_ok _), bind_of_ok (byte_cons start o b rest)]
  simp only [hf]
  rfl

/-- The bytes `bs` stand at `ip` in the code. -/
def StandsAt (code : Array UInt8) (ip : Nat) (bs : List UInt8) : Prop :=
  ∃ rest, code.toList.drop ip = bs ++ rest

theorem window_rest (code : Array UInt8) (ip : Nat) (opcode : UInt8) (h : code[ip]? = some opcode) :
    window code ip = ⟨ip, ip, (code.toList.drop ip).take (maxLength opcode)⟩ := by
  simp only [window, h, Array.toList_extract, List.extract, Nat.add_sub_cancel_left]

/-- What the machine reads at `ip` is what stands there, with any bytes behind it. -/
theorem decodeAt_eq_ok_iff {code : Array UInt8} {ip next : Nat} {i : Instruction} :
    decodeAt code ip = .ok (i, next) ↔
      ∃ bs, Denotes bs i ∧ StandsAt code ip bs ∧ next = ip + bs.length := by
  have hread : decodeAt code ip = .ok (i, next) ↔
      ∃ w', read (window code ip) = .ok i w' ∧ w'.offset = next := by
    unfold decodeAt
    cases read (window code ip) <;> simp
  rw [hread]
  constructor
  · rintro ⟨w', hr, rfl⟩
    obtain ⟨bs, rest, hb, rfl, hd⟩ := (accepts_read _ _ _).mp hr
    cases ho : code[ip]? with
    | none =>
      have hnil : bs ++ rest = [] := by rw [← hb, window, ho]
      have hlen := hd.length_pos
      rw [(List.append_eq_nil_iff.mp hnil).1] at hlen
      simp at hlen
    | some opcode =>
      rw [window_rest code ip opcode ho] at hb ⊢
      refine ⟨bs, hd, ⟨rest ++ (code.toList.drop ip).drop (maxLength opcode), ?_⟩, rfl⟩
      rw [← List.append_assoc, ← hb, List.take_append_drop]
  · rintro ⟨bs, hd, ⟨rest, hr⟩, rfl⟩
    obtain ⟨opcode, imm, rfl, form, hf, hi⟩ :
        ∃ opcode imm, bs = opcode :: imm ∧
          ∃ form, form? opcode = some form ∧ form.Denotes imm i := by
      cases hd with
      | intro hf hi => exact ⟨_, _, rfl, _, hf, hi⟩
    have ho : code[ip]? = some opcode := by
      have h0 : (code.toList.drop ip)[0]? = some opcode := by rw [hr]; rfl
      simpa using h0
    have hlen : (opcode :: imm).length ≤ maxLength opcode := by
      have := hi.length_le
      simp only [maxLength, hf, List.length_cons]
      omega
    have hwin : (code.toList.drop ip).take (maxLength opcode) =
        (opcode :: imm) ++ rest.take (maxLength opcode - (opcode :: imm).length) := by
      rw [hr, List.take_append, List.take_of_length_le hlen]
    rw [window_rest code ip opcode ho, hwin]
    exact ⟨_, accepts_read.run rfl hd, rfl⟩

theorem decodeAt_encode {code : Array UInt8} {ip : Nat} {i : Instruction}
    (h : StandsAt code ip i.encode) : decodeAt code ip = .ok (i, ip + i.encode.length) :=
  decodeAt_eq_ok_iff.mpr ⟨i.encode, denotes_encode i, h, rfl⟩

end WasmI32.Instruction
