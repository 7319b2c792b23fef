import WasmI32.Proofs.Checked.Reading
import WasmI32.Proofs.Leb128.Buffer
import WasmI32.Proofs.Module.Contents
import WasmI32.Window.Nested

/-!
# Windows of one file

Windows are opened, read and left in any order, and reads fail in between. Whatever was done, an
open window shows the bytes of the file at their place and lies in what is read of the window around
it. A read finds what stands in the file at its offset if that ends inside the window, and fails
otherwise: what follows the window is never seen. A read that fails leaves the windows as they were,
unless it has already read the length of a vector.
-/

namespace WasmI32

/-- The `n` bytes of a file at `offset`, or as many as there are. -/
def bytesAt (file : List UInt8) (offset n : Nat) : List UInt8 := (file.drop offset).take n

namespace Leb128

/-- The first `n` bytes are the unsigned encoding of an integer of 32 bits. -/
abbrev EncodedUnsigned (bytes : List UInt8) (n : Nat) : Prop :=
  Encoded (fun bytes n => digitSum bytes n) 0 (2 ^ 32) bytes n

/-- The first `n` bytes are the signed encoding of an integer of 32 bits. -/
abbrev EncodedSigned (bytes : List UInt8) (n : Nat) : Prop :=
  Encoded signedSum (-2 ^ 31) (2 ^ 31) bytes n

theorem EncodedUnsigned.toNat_ofNat {bytes : List UInt8} {n : Nat} (h : EncodedUnsigned bytes n) :
    (BitVec.ofNat 32 (digitSum bytes n)).toNat = digitSum bytes n := by
  have hlt : digitSum bytes n < 2 ^ 32 := by exact_mod_cast h.lt_high
  rw [BitVec.toNat_ofNat, Nat.mod_eq_of_lt hlt]

end Leb128

/-! ## One window -/

namespace Window

/-- The window covers `len` bytes of the file from its start on. The first of them, as many as its
position says, are read, and it shows the others. -/
structure OnFile (file : List UInt8) (len : Nat) (w : Window) : Prop where
  inside : w.start + len ≤ file.length
  position_le : w.position ≤ len
  offset_eq : w.offset = w.start + w.position
  remaining_eq : w.remaining = len - w.position
  rest_eq : w.rest = (bytesAt file w.start len).drop w.position

/-- The window lies in what is read of another one. -/
def Within (child parent : Window) : Prop :=
  parent.start ≤ child.start ∧ child.stop ≤ parent.offset

/-- Where the window is in its bytes and in the file, and how many bytes are left. -/
def place (w : Window) : Nat × Nat × Nat := (w.position, w.offset, w.remaining)

variable {file : List UInt8} {len n : Nat} {w w' : Window}

theorem onFile_ofBytes (file : List UInt8) : (ofBytes file).OnFile file file.length := by
  refine ⟨?_, Nat.zero_le _, rfl, rfl, ?_⟩
  · exact (Nat.zero_add file.length).le
  · exact (List.take_length (l := file)).symm

theorem OnFile.stop_eq (h : w.OnFile file len) : w.stop = w.start + len := by
  have hstop : w.stop = w.offset + w.remaining := rfl
  have hposition := h.position_le
  rw [hstop, h.remaining_eq, h.offset_eq]
  omega

theorem OnFile.stop_le (h : w.OnFile file len) : w.offset + w.remaining ≤ file.length := by
  have hstop : w.offset + w.remaining = w.start + len := h.stop_eq
  rw [hstop]
  exact h.inside

theorem OnFile.take_rest (h : w.OnFile file len) (hn : n ≤ w.remaining) :
    w.rest.take n = bytesAt file w.offset n := by
  rw [h.remaining_eq] at hn
  rw [h.rest_eq, bytesAt, bytesAt, List.drop_take, List.drop_drop, List.take_take,
    Nat.min_eq_left hn, ← h.offset_eq]

theorem OnFile.length_bytesAt (h : w.OnFile file len) (hn : n ≤ w.remaining) :
    (bytesAt file w.offset n).length = n := by
  rw [← h.take_rest hn]
  exact List.length_take_of_le hn

theorem OnFile.advance (h : w.OnFile file len) (hn : n ≤ w.remaining) :
    (w.advance n).OnFile file len := by
  have hoffset := h.offset_eq
  have hremaining := h.remaining_eq
  have hposition := h.position_le
  have hmoved : (w.advance n).position = w.position + n := by
    simp only [Window.advance, position] at hoffset ⊢
    omega
  refine ⟨h.inside, ?_, ?_, ?_, ?_⟩
  · rw [hmoved]
    omega
  · rw [hmoved]
    change w.offset + n = w.start + (w.position + n)
    omega
  · have hleft : (w.advance n).remaining = w.remaining - n := List.length_drop
    rw [hleft, hmoved]
    omega
  · rw [hmoved, ← List.drop_drop]
    exact congrArg (List.drop n) h.rest_eq

/-- The window onto the next bytes. -/
theorem OnFile.next (h : w.OnFile file len) (hn : n ≤ w.remaining) :
    (⟨w.offset, w.offset, bytesAt file w.offset n⟩ : Window).OnFile file n := by
  have hstop := h.stop_le
  have hposition : (⟨w.offset, w.offset, bytesAt file w.offset n⟩ : Window).position = 0 :=
    Nat.sub_self _
  refine ⟨?_, ?_, ?_, ?_, ?_⟩
  · exact (Nat.add_le_add_left hn w.offset).trans hstop
  · rw [hposition]
    exact Nat.zero_le n
  · rw [hposition]
    rfl
  · rw [hposition]
    exact h.length_bytesAt hn
  · rw [hposition]
    rfl

theorem advance_stop (hn : n ≤ w.remaining) : (w.advance n).stop = w.stop := by
  simp only [remaining] at hn
  simp only [Window.advance, stop, List.length_drop]
  omega

/-- A reader finds a string of its grammar in the file if the string ends inside the window. -/
theorem ok_iff_of_accepts {ε α : Type} {x : Read ε α} {G : Grammar α} {a : α} (hx : x.Accepts G)
    (hw : w.OnFile file len) :
    x w = .ok a w' ↔
      ∃ n ≤ w.remaining, G w.offset (bytesAt file w.offset n) a ∧ w' = w.advance n := by
  rw [hx w a w']
  constructor
  · rintro ⟨bs, rest, hr, rfl, hg⟩
    have hn : bs.length ≤ w.remaining := by
      rw [remaining, hr, List.length_append]
      exact Nat.le_add_right _ _
    refine ⟨bs.length, hn, ?_, (advance_append hr).symm⟩
    rwa [← hw.take_rest hn, hr, List.take_left]
  · rintro ⟨n, hn, hg, rfl⟩
    refine ⟨bytesAt file w.offset n, w.rest.drop n, ?_, ?_, hg⟩
    · rw [← hw.take_rest hn, List.take_append_drop]
    · rw [hw.length_bytesAt hn]
      rfl

end Window

/-! ## What an operation finds -/

/-- The value that a read finds at an offset of the file, and how many bytes it takes up. Only the
bytes of the file matter, not where a window ends. -/
inductive ReadOp.Finds (file : List UInt8) (offset : Nat) : ReadOp → ReadValue → Nat → Prop
  | byte {b : UInt8} (h : file[offset]? = some b) : Finds file offset .byte (.byte b) 1
  | bytes (n : Nat) : Finds file offset (.bytes n) (.bytes (bytesAt file offset n)) n
  | skip (n : Nat) : Finds file offset (.skip n) .nothing n
  | unsigned {n : Nat} {v : Word} (h : Leb128.EncodedUnsigned (file.drop offset) n)
    (hv : v.toNat = Leb128.digitSum (file.drop offset) n) :
    Finds file offset .unsigned (.unsigned v) n
  | signed {n : Nat} {v : Word} (h : Leb128.EncodedSigned (file.drop offset) n)
    (hv : v.toInt = Leb128.signedSum (file.drop offset) n) :
    Finds file offset .signed (.signed v) n
  | byteVector {k n : Nat} (h : Leb128.EncodedUnsigned (file.drop offset) k)
    (hn : n = Leb128.digitSum (file.drop offset) k) :
    Finds file offset .byteVector (.bytes (bytesAt file (offset + k) n)) (k + n)
  | enter (n : Nat) : Finds file offset (.enter n) .nothing n

namespace Window

variable {file : List UInt8} {len n : Nat} {w w' : Window}

theorem byte_eq_ok_iff (hw : w.OnFile file len) {b : UInt8} :
    byte w = .ok b w' ↔ file[w.offset]? = some b ∧ 1 ≤ w.remaining ∧ w' = w.advance 1 := by
  rw [ok_iff_of_accepts Read.accepts_byte hw]
  constructor
  · rintro ⟨n, hn, hb, rfl⟩
    obtain rfl : n = 1 := by
      rw [← hw.length_bytesAt hn, hb]
      rfl
    have hget := congrArg (·[0]?) hb
    simp only [bytesAt, List.getElem?_take_of_lt Nat.one_pos, List.getElem?_drop] at hget
    exact ⟨hget, hn, rfl⟩
  · rintro ⟨hb, hn, rfl⟩
    refine ⟨1, hn, ?_, rfl⟩
    rw [bytesAt, List.take_one, List.head?_drop, hb]
    rfl

/-- A reader that takes `n` bytes, whatever they are. -/
theorem sized_eq_ok_iff {ε α : Type} {x : Read ε α} {f : Nat → List UInt8 → α} {v : α}
    (hx : x.Accepts fun o bs v => bs.length = n ∧ v = f o bs) (hw : w.OnFile file len) :
    x w = .ok v w' ↔
      v = f w.offset (bytesAt file w.offset n) ∧ n ≤ w.remaining ∧ w' = w.advance n := by
  rw [ok_iff_of_accepts hx hw]
  constructor
  · rintro ⟨k, hk, ⟨hlength, rfl⟩, rfl⟩
    obtain rfl : k = n := by rw [← hlength, hw.length_bytesAt hk]
    exact ⟨rfl, hk, rfl⟩
  · rintro ⟨rfl, hn, rfl⟩
    exact ⟨n, hn, ⟨hw.length_bytesAt hn, rfl⟩, rfl⟩

theorem bytes_eq_ok_iff (hw : w.OnFile file len) {bs : List UInt8} :
    bytes n w = .ok bs w' ↔ bs = bytesAt file w.offset n ∧ n ≤ w.remaining ∧ w' = w.advance n :=
  sized_eq_ok_iff (f := fun _ bs => bs) (Read.accepts_bytes n) hw

theorem skip_eq_ok_iff (hw : w.OnFile file len) {u : Unit} :
    skip n w = .ok u w' ↔ n ≤ w.remaining ∧ w' = w.advance n := by
  rw [skip, bind_eq_ok_iff]
  constructor
  · rintro ⟨bs, w₁, hb, hr⟩
    obtain ⟨-, hn, rfl⟩ := (bytes_eq_ok_iff hw).mp hb
    exact ⟨hn, (EStateM.Result.ok.inj hr).2.symm⟩
  · rintro ⟨hn, rfl⟩
    exact ⟨_, _, (bytes_eq_ok_iff hw).mpr ⟨rfl, hn, rfl⟩, rfl⟩

theorem integer_eq_ok_iff {decode : List UInt8 → Except Leb128.Fault (Word × Nat)}
    {Encodes : List UInt8 → Word → Prop} {number : List UInt8 → Nat → Int} {view : Word → Int}
    {low high : Int} {v : Word}
    (hsplit : ∀ {bytes v n}, decode bytes = .ok (v, n) ↔
      ∃ bs rest, bytes = bs ++ rest ∧ n = bs.length ∧ Encodes bs v)
    (hvalue : ∀ {bytes v n}, decode bytes = .ok (v, n) ↔
      Leb128.Encoded number low high bytes n ∧ view v = number bytes n)
    (hw : w.OnFile file len) :
    integer decode w = .ok v w' ↔
      ∃ n, (Leb128.Encoded number low high (file.drop w.offset) n ∧
        view v = number (file.drop w.offset) n) ∧ n ≤ w.remaining ∧ w' = w.advance n := by
  rw [ok_iff_of_accepts (Read.accepts_integer hsplit) hw]
  constructor
  · rintro ⟨n, hn, hv, rfl⟩
    have hdecode : decode (file.drop w.offset) = .ok (v, n) := hsplit.mpr
      ⟨_, _, (List.take_append_drop n _).symm, (hw.length_bytesAt hn).symm, hv⟩
    exact ⟨n, hvalue.mp hdecode, hn, rfl⟩
  · rintro ⟨n, henc, hn, rfl⟩
    obtain ⟨bs, rest, hfile, rfl, hv⟩ := hsplit.mp (hvalue.mpr henc)
    refine ⟨bs.length, hn, ?_, rfl⟩
    rwa [bytesAt, hfile, List.take_left]

theorem unsigned_eq_ok_iff (hw : w.OnFile file len) {v : Word} :
    unsigned w = .ok v w' ↔
      ∃ n, (Leb128.EncodedUnsigned (file.drop w.offset) n ∧
        (v.toNat : Int) = Leb128.digitSum (file.drop w.offset) n) ∧
          n ≤ w.remaining ∧ w' = w.advance n :=
  integer_eq_ok_iff Leb128.decodeUnsigned_eq_ok_iff Leb128.decodeUnsigned_eq_ok_iff_encoded hw

theorem signed_eq_ok_iff (hw : w.OnFile file len) {v : Word} :
    signed w = .ok v w' ↔
      ∃ n, (Leb128.EncodedSigned (file.drop w.offset) n ∧
        v.toInt = Leb128.signedSum (file.drop w.offset) n) ∧ n ≤ w.remaining ∧ w' = w.advance n :=
  integer_eq_ok_iff Leb128.decodeSigned_eq_ok_iff Leb128.decodeSigned_eq_ok_iff_encoded hw

theorem byteVector_eq_ok_iff (hw : w.OnFile file len) {bs : List UInt8} :
    byteVector w = .ok bs w' ↔
      ∃ k n, (Leb128.EncodedUnsigned (file.drop w.offset) k ∧
        n = Leb128.digitSum (file.drop w.offset) k) ∧ bs = bytesAt file (w.offset + k) n ∧
          k + n ≤ w.remaining ∧ w' = w.advance (k + n) := by
  have hadvance (k n : Nat) : (w.advance k).advance n = w.advance (k + n) := by
    simp only [advance, List.drop_drop, Nat.add_assoc]
  have hleft (k : Nat) : (w.advance k).remaining = w.remaining - k := List.length_drop
  rw [byteVector, bind_eq_ok_iff]
  constructor
  · rintro ⟨v, w₁, hv, hb⟩
    obtain ⟨k, ⟨henc, hsum⟩, hk, rfl⟩ := (unsigned_eq_ok_iff hw).mp hv
    obtain ⟨rfl, hn, rfl⟩ := (bytes_eq_ok_iff (hw.advance hk)).mp hb
    rw [hleft] at hn
    exact ⟨k, v.toNat, ⟨henc, by exact_mod_cast hsum⟩, rfl, by omega, hadvance k _⟩
  · rintro ⟨k, n, ⟨henc, hsum⟩, rfl, hn, rfl⟩
    have hword : (BitVec.ofNat 32 n).toNat = n := by
      rw [hsum]
      exact Leb128.EncodedUnsigned.toNat_ofNat henc
    have hk : k ≤ w.remaining := by omega
    refine ⟨BitVec.ofNat 32 n, w.advance k, ?_, ?_⟩
    · exact (unsigned_eq_ok_iff hw).mpr ⟨k, ⟨henc, by exact_mod_cast hword.trans hsum⟩, hk, rfl⟩
    · refine (bytes_eq_ok_iff (hw.advance hk)).mpr ⟨?_, ?_, ?_⟩
      · rw [hword]
        rfl
      · rw [hword, hleft]
        omega
      · rw [hword, hadvance]

theorem split_eq_ok_iff (hw : w.OnFile file len) {child : Window} :
    split n w = .ok child w' ↔
      child = ⟨w.offset, w.offset, bytesAt file w.offset n⟩ ∧ n ≤ w.remaining ∧
        w' = w.advance n :=
  sized_eq_ok_iff (f := fun o bs => (⟨o, o, bs⟩ : Window)) (Decode.accepts_split n) hw

end Window

/-! ## Operations on nested windows -/

namespace Read

variable {n : Nat} {w w' : Window} {e : ReadError}

theorem byte_eq_error (h : Window.byte w = .error e w') : w' = w := by
  unfold Window.byte at h
  split at h <;> cases h
  rfl

theorem bytes_eq_error (h : Window.bytes n w = .error e w') : w' = w := by
  simp only [Window.bytes] at h
  split at h
  · exact (EStateM.Result.error.inj h).2.symm
  · cases h

theorem skip_eq_error (h : Window.skip n w = .error e w') : w' = w := by
  rcases bind_eq_error h with hb | ⟨bs, w₁, -, hpure⟩
  · exact bytes_eq_error hb
  · cases hpure

theorem split_eq_error (h : Window.split n w = .error e w') : w' = w := by
  rcases bind_eq_error h with hhere | ⟨start, w₁, hhere, h⟩
  · cases hhere
  · cases hhere
    rcases bind_eq_error h with hb | ⟨bs, w₂, -, hpure⟩
    · exact bytes_eq_error hb
    · cases hpure

theorem advances_bytes (n : Nat) : Advances (Window.bytes n) :=
  advances_of_accepts (accepts_bytes n) fun _ _ _ => bytes_eq_error

theorem advances_skip (n : Nat) : Advances (Window.skip n) :=
  advances_bind (advances_bytes n) fun _ => advances_pure ()

theorem advances_byteVector : Advances Window.byteVector :=
  advances_bind advances_unsigned fun n => advances_bytes n.toNat

end Read

namespace Nested

variable {file : List UInt8} {s s' s₁ : Nested} {op : ReadOp} {v : ReadValue} {e : ReadError}
  {len n : Nat}

/-- The open windows, the innermost first. -/
def windows (s : Nested) : List Window := s.inner :: s.outer

/-- What an operation leaves, also when it fails. -/
def after (s : Nested) (op : ReadOp) : Nested := stateOf (perform op s)

/-- What operations leave that are performed one after the other. -/
def performAll (s : Nested) (ops : List ReadOp) : Nested := ops.foldl after s

/-- The innermost window has been read on. -/
def advance (s : Nested) (n : Nat) : Nested := { s with inner := s.inner.advance n }

/-- A window has been opened onto the next `n` bytes of the innermost one. -/
def entered (s : Nested) (n : Nat) : Nested :=
  ⟨⟨s.inner.offset, s.inner.offset, s.inner.rest.take n⟩, s.inner.advance n :: s.outer⟩

/-- What an operation leaves that has found something of `n` bytes. -/
def past (s : Nested) : ReadOp → Nat → Nested
  | .enter _, n => s.entered n
  | _, n => s.advance n

section Read

variable {α : Type} {x : Read ReadError α} {f : α → ReadValue}

theorem map_read_eq_ok_iff :
    (f <$> read x) s = .ok v s' ↔
      ∃ a w, x s.inner = .ok a w ∧ v = f a ∧ s' = { s with inner := w } := by
  simp only [Functor.map, EStateM.map, read]
  cases x s.inner with
  | ok a w => simp [eq_comm]
  | error e w => simp

theorem map_read_eq_error_iff :
    (f <$> read x) s = .error e s' ↔ ∃ w, x s.inner = .error e w ∧ s' = { s with inner := w } := by
  simp only [Functor.map, EStateM.map, read]
  cases x s.inner with
  | ok a w => simp
  | error e' w => simp [eq_comm]

theorem eq_of_map_read_eq_error (hx : ∀ {w}, x s.inner = .error e w → w = s.inner)
    (h : (f <$> read x) s = .error e s') : s' = s := by
  obtain ⟨w, hw, rfl⟩ := map_read_eq_error_iff.mp h
  rw [hx hw]

theorem stateOf_map_read (hx : x.Advances) (f : α → ReadValue) (s : Nested) :
    ∃ k ≤ s.inner.remaining, stateOf ((f <$> read x) s) = s.advance k := by
  obtain ⟨k, hk, hstate⟩ := hx s.inner
  refine ⟨k, hk, ?_⟩
  rw [advance, ← hstate]
  simp only [Functor.map, EStateM.map, read]
  cases x s.inner <;> rfl

end Read

theorem perform_skip (n : Nat) :
    perform (.skip n) = (fun _ => ReadValue.nothing) <$> read (Window.skip n) := by
  funext s
  simp only [perform, bind, EStateM.bind, Functor.map, EStateM.map]
  cases read (Window.skip n) s <;> rfl

theorem perform_enter_eq_ok_iff :
    perform (.enter n) s = .ok v s' ↔ ∃ child parent, Window.split n s.inner = .ok child parent ∧
      v = .nothing ∧ s' = ⟨child, parent :: s.outer⟩ := by
  simp only [perform, bind, EStateM.bind, enter]
  cases Window.split n s.inner with
  | ok child parent => simp [pure, EStateM.pure, eq_comm]
  | error e w => simp

theorem perform_enter_eq_error_iff :
    perform (.enter n) s = .error e s' ↔
      ∃ w, Window.split n s.inner = .error e w ∧ s' = { s with inner := w } := by
  simp only [perform, bind, EStateM.bind, enter]
  cases Window.split n s.inner with
  | ok child parent => simp [pure, EStateM.pure]
  | error e' w => simp [eq_comm]

/-- An operation finds what stands in the file at the offset of the innermost window if that ends
inside the window. -/
theorem perform_eq_ok_iff (hw : s.inner.OnFile file len) (hop : op ≠ .leave) :
    perform op s = .ok v s' ↔
      ∃ n, op.Finds file s.inner.offset v n ∧ n ≤ s.inner.remaining ∧ s' = s.past op n := by
  cases op with
  | byte =>
    refine map_read_eq_ok_iff.trans ⟨?_, ?_⟩
    · rintro ⟨b, w, hb, rfl, rfl⟩
      obtain ⟨hget, hn, rfl⟩ := (Window.byte_eq_ok_iff hw).mp hb
      exact ⟨1, .byte hget, hn, rfl⟩
    · rintro ⟨_, ⟨hget⟩, hn, rfl⟩
      exact ⟨_, _, (Window.byte_eq_ok_iff hw).mpr ⟨hget, hn, rfl⟩, rfl, rfl⟩
  | bytes n =>
    refine map_read_eq_ok_iff.trans ⟨?_, ?_⟩
    · rintro ⟨bs, w, hb, rfl, rfl⟩
      obtain ⟨rfl, hn, rfl⟩ := (Window.bytes_eq_ok_iff hw).mp hb
      exact ⟨n, .bytes n, hn, rfl⟩
    · rintro ⟨_, ⟨⟩, hn, rfl⟩
      exact ⟨_, _, (Window.bytes_eq_ok_iff hw).mpr ⟨rfl, hn, rfl⟩, rfl, rfl⟩
  | skip n =>
    rw [perform_skip]
    refine map_read_eq_ok_iff.trans ⟨?_, ?_⟩
    · rintro ⟨u, w, hb, rfl, rfl⟩
      obtain ⟨hn, rfl⟩ := (Window.skip_eq_ok_iff hw).mp hb
      exact ⟨n, .skip n, hn, rfl⟩
    · rintro ⟨_, ⟨⟩, hn, rfl⟩
      exact ⟨(), _, (Window.skip_eq_ok_iff hw).mpr ⟨hn, rfl⟩, rfl, rfl⟩
  | unsigned =>
    refine map_read_eq_ok_iff.trans ⟨?_, ?_⟩
    · rintro ⟨v, w, hv, rfl, rfl⟩
      obtain ⟨n, ⟨henc, hsum⟩, hn, rfl⟩ := (Window.unsigned_eq_ok_iff hw).mp hv
      exact ⟨n, .unsigned henc (by exact_mod_cast hsum), hn, rfl⟩
    · rintro ⟨n, hfound, hn, rfl⟩
      cases hfound with
      | unsigned henc hsum =>
        have hread := (Window.unsigned_eq_ok_iff hw).mpr
          ⟨n, ⟨henc, by exact_mod_cast hsum⟩, hn, rfl⟩
        exact ⟨_, _, hread, rfl, rfl⟩
  | signed =>
    refine map_read_eq_ok_iff.trans ⟨?_, ?_⟩
    · rintro ⟨v, w, hv, rfl, rfl⟩
      obtain ⟨n, ⟨henc, hsum⟩, hn, rfl⟩ := (Window.signed_eq_ok_iff hw).mp hv
      exact ⟨n, .signed henc hsum, hn, rfl⟩
    · rintro ⟨n, hfound, hn, rfl⟩
      cases hfound with
      | signed henc hsum =>
        have hread := (Window.signed_eq_ok_iff hw).mpr ⟨n, ⟨henc, hsum⟩, hn, rfl⟩
        exact ⟨_, _, hread, rfl, rfl⟩
  | byteVector =>
    refine map_read_eq_ok_iff.trans ⟨?_, ?_⟩
    · rintro ⟨bs, w, hb, rfl, rfl⟩
      obtain ⟨k, n, ⟨henc, hsum⟩, rfl, hn, rfl⟩ := (Window.byteVector_eq_ok_iff hw).mp hb
      exact ⟨k + n, .byteVector henc hsum, hn, rfl⟩
    · rintro ⟨_, hfound, hn, rfl⟩
      cases hfound with
      | byteVector henc hsum =>
        have hread := (Window.byteVector_eq_ok_iff hw).mpr ⟨_, _, ⟨henc, hsum⟩, rfl, hn, rfl⟩
        exact ⟨_, _, hread, rfl, rfl⟩
  | enter n =>
    refine perform_enter_eq_ok_iff.trans ⟨?_, ?_⟩
    · rintro ⟨child, parent, hsplit, rfl, rfl⟩
      obtain ⟨rfl, hn, rfl⟩ := (Window.split_eq_ok_iff hw).mp hsplit
      exact ⟨n, .enter n, hn, by rw [past, entered, hw.take_rest hn]⟩
    · rintro ⟨_, ⟨⟩, hn, rfl⟩
      exact ⟨_, _, (Window.split_eq_ok_iff hw).mpr ⟨rfl, hn, rfl⟩, rfl,
        by rw [past, entered, hw.take_rest hn]⟩
  | leave => exact absurd rfl hop

theorem after_leave {w : Window} {outer : List Window} (h : s.outer = w :: outer) :
    s.after .leave = ⟨w, outer⟩ := by
  simp only [after, perform, bind, EStateM.bind, leave, h]
  rfl

/-- All that an operation can leave. -/
theorem after_cases (s : Nested) (op : ReadOp) :
    (∃ k ≤ s.inner.remaining, s.after op = s.advance k) ∨
      (∃ n ≤ s.inner.remaining, op = .enter n ∧ s.after op = s.entered n) ∨
      ∃ w outer, op = .leave ∧ s.outer = w :: outer ∧ s.after op = ⟨w, outer⟩ := by
  cases op with
  | byte => exact .inl (stateOf_map_read Read.advances_byte _ s)
  | bytes n => exact .inl (stateOf_map_read (Read.advances_bytes n) _ s)
  | skip n =>
    rw [after, perform_skip]
    exact .inl (stateOf_map_read (Read.advances_skip n) _ s)
  | unsigned => exact .inl (stateOf_map_read Read.advances_unsigned _ s)
  | signed => exact .inl (stateOf_map_read Read.advances_signed _ s)
  | byteVector => exact .inl (stateOf_map_read Read.advances_byteVector _ s)
  | enter n =>
    cases h : perform (.enter n) s with
    | error e s' =>
      obtain ⟨w, hsplit, rfl⟩ := perform_enter_eq_error_iff.mp h
      obtain rfl := Read.split_eq_error hsplit
      exact .inl ⟨0, Nat.zero_le _, by rw [after, h]; rfl⟩
    | ok v s' =>
      obtain ⟨child, parent, hsplit, rfl, rfl⟩ := perform_enter_eq_ok_iff.mp h
      obtain ⟨bs, rest, hrest, rfl, rfl, rfl⟩ := (Decode.accepts_split n _ _ _).mp hsplit
      refine .inr (.inl ⟨bs.length, ?_, rfl, ?_⟩)
      · rw [Window.remaining, hrest, List.length_append]
        exact Nat.le_add_right _ _
      · rw [after, h, entered, Window.advance_append hrest, hrest, List.take_left]
        rfl
  | leave =>
    cases hs : s.outer with
    | nil =>
      refine .inl ⟨0, Nat.zero_le _, ?_⟩
      simp only [after, perform, bind, EStateM.bind, leave, hs]
      rfl
    | cons w outer => exact .inr (.inr ⟨w, outer, rfl, rfl, after_leave hs⟩)

/-! ## All open windows -/

/-- Where the open windows start and stop in the file. -/
def bounds (s : Nested) : List (Nat × Nat) := s.windows.map fun w => (w.start, w.stop)

/-- Each open window covers a part of the file and lies in what is read of the one around it. The
outermost one covers all of the file. -/
structure Lies (file : List UInt8) (s : Nested) : Prop where
  windows : ∀ w ∈ s.windows, ∃ len, w.OnFile file len
  nested : s.windows.IsChain Window.Within
  outermost : s.bounds.getLast? = some (0, file.length)

theorem lies_ofBytes (file : List UInt8) : (ofBytes file).Lies file := by
  refine ⟨?_, .singleton _, ?_⟩
  · intro w hw
    obtain rfl := List.mem_singleton.mp hw
    exact ⟨file.length, Window.onFile_ofBytes file⟩
  · have hstop := (Window.onFile_ofBytes file).stop_eq
    simp only [bounds, windows, ofBytes, List.map_cons, List.map_nil, List.getLast?_singleton,
      hstop]
    exact congrArg (fun n => some (0, n)) (Nat.zero_add file.length)

theorem Lies.inner (h : s.Lies file) : ∃ len, s.inner.OnFile file len :=
  h.windows s.inner List.mem_cons_self

theorem bounds_advance {k : Nat} (hk : k ≤ s.inner.remaining) :
    (s.advance k).bounds = s.bounds := by
  have hstop := Window.advance_stop hk
  exact congrArg (fun stop => (s.inner.start, stop) :: s.outer.map fun w => (w.start, w.stop)) hstop

theorem bounds_entered (hn : n ≤ s.inner.remaining) :
    (s.entered n).bounds = (s.inner.offset, s.inner.offset + n) :: s.bounds := by
  have hlength : (s.inner.rest.take n).length = n := List.length_take_of_le hn
  have hchild : (s.inner.offset, s.inner.offset + (s.inner.rest.take n).length) =
      (s.inner.offset, s.inner.offset + n) := by rw [hlength]
  rw [← bounds_advance hn, ← hchild]
  rfl

theorem Lies.advance {k : Nat} (h : s.Lies file) (hk : k ≤ s.inner.remaining) :
    (s.advance k).Lies file := by
  obtain ⟨len, hinner⟩ := h.inner
  refine ⟨?_, ?_, ?_⟩
  · refine List.forall_mem_cons.mpr ⟨⟨len, hinner.advance hk⟩, fun w hw => ?_⟩
    exact h.windows w (List.mem_cons_of_mem _ hw)
  · -- the window keeps its start and its stop
    obtain ⟨hhead, htail⟩ := List.isChain_cons.mp h.nested
    refine List.isChain_cons.mpr ⟨fun parent hparent => ?_, htail⟩
    obtain ⟨hstart, hstop⟩ := hhead parent hparent
    exact ⟨hstart, (Window.advance_stop hk).trans_le hstop⟩
  · rw [bounds_advance hk]
    exact h.outermost

theorem Lies.entered (h : s.Lies file) (hn : n ≤ s.inner.remaining) : (s.entered n).Lies file := by
  obtain ⟨len, hinner⟩ := h.inner
  have hparent := h.advance hn
  have hchild := hinner.next hn
  rw [← hinner.take_rest hn] at hchild
  have hstart : s.inner.start ≤ s.inner.offset := by
    rw [hinner.offset_eq]
    exact Nat.le_add_right _ _
  refine ⟨?_, ?_, ?_⟩
  · exact List.forall_mem_cons.mpr ⟨⟨n, hchild⟩, hparent.windows⟩
  · exact List.isChain_cons_cons.mpr ⟨⟨hstart, hchild.stop_eq.le⟩, hparent.nested⟩
  · have hbounds : s.bounds ≠ [] := List.cons_ne_nil _ _
    rw [bounds_entered hn, List.getLast?_cons_of_ne_nil hbounds]
    exact h.outermost

theorem Lies.after (h : s.Lies file) (op : ReadOp) : (s.after op).Lies file := by
  obtain ⟨k, hk, heq⟩ | ⟨n, hn, -, heq⟩ | ⟨w, outer, -, houter, heq⟩ := after_cases s op
  · rw [heq]
    exact h.advance hk
  · rw [heq]
    exact h.entered hn
  · rw [heq]
    obtain ⟨hwindows, hnested, houtermost⟩ := h
    rw [bounds] at houtermost
    rw [Nested.windows, houter] at hwindows hnested houtermost
    exact ⟨(List.forall_mem_cons.mp hwindows).2, (List.isChain_cons_cons.mp hnested).2, houtermost⟩

theorem Lies.performAll (h : s.Lies file) (ops : List ReadOp) : (s.performAll ops).Lies file := by
  induction ops generalizing s with
  | nil => exact h
  | cons op ops ih => exact ih (h.after op)

/-- The bounds of a window are settled when it is opened. -/
theorem bounds_after (s : Nested) (op : ReadOp) :
    (s.after op).bounds = s.bounds ∨
      (∃ n, op = .enter n ∧
        (s.after op).bounds = (s.inner.offset, s.inner.offset + n) :: s.bounds) ∨
      op = .leave ∧ (s.after op).bounds = s.bounds.tail := by
  obtain ⟨k, hk, heq⟩ | ⟨n, hn, hop, heq⟩ | ⟨w, outer, hop, houter, heq⟩ := after_cases s op
  · exact .inl (by rw [heq, bounds_advance hk])
  · exact .inr (.inl ⟨n, hop, by rw [heq, bounds_entered hn]⟩)
  · refine .inr (.inr ⟨hop, ?_⟩)
    rw [heq, bounds, bounds, windows, windows, houter]
    rfl

/-- While as many windows are open as there were, those around are not touched. -/
theorem suffix_after {around : List Window} (h : around <:+ s.outer)
    (hopen : around.length ≤ (s.after op).outer.length) : around <:+ (s.after op).outer := by
  obtain ⟨k, hk, heq⟩ | ⟨n, hn, -, heq⟩ | ⟨w, outer, -, houter, heq⟩ := after_cases s op
  · rw [heq]
    exact h
  · rw [heq]
    exact h.trans (List.suffix_cons _ _)
  · rw [heq] at hopen ⊢
    rw [houter] at h
    obtain rfl | hsuffix := List.suffix_cons_iff.mp h
    · exact absurd hopen (Nat.not_succ_le_self _)
    · exact hsuffix

theorem suffix_performAll {around : List Window} {ops : List ReadOp} (h : around <:+ s.outer)
    (hopen : ∀ initial, initial <+: ops → around.length ≤ (s.performAll initial).outer.length) :
    around <:+ (s.performAll ops).outer := by
  induction ops generalizing s with
  | nil => exact h
  | cons op ops ih =>
    have hfirst := hopen [op] (List.prefix_append [op] ops)
    refine ih (suffix_after h hfirst) fun initial hinitial => ?_
    exact hopen (op :: initial) (List.cons_prefix_cons.mpr ⟨rfl, hinitial⟩)

/-- What holds of nested windows of a file, and what follows for an operation on them. -/
structure ExactOn (file : List UInt8) (s : Nested) : Prop where
  /-- Every open window covers a part of the file, its offset is the place in the file of the next
  byte, and what is left of it is what is not read. -/
  windows : ∀ w ∈ s.windows, ∃ len, w.OnFile file len
  /-- Every open window lies in what is read of the one around it, and the outermost one covers the
  file. -/
  nested : s.windows.IsChain Window.Within ∧ s.bounds.getLast? = some (0, file.length)
  /-- No operation changes where an open window starts and stops. -/
  settled : ∀ op, (s.after op).bounds = s.bounds ∨
    (∃ n, op = .enter n ∧ (s.after op).bounds = (s.inner.offset, s.inner.offset + n) :: s.bounds) ∨
    op = .leave ∧ (s.after op).bounds = s.bounds.tail
  /-- A read gives what stands in the file at the offset of the innermost window and moves behind
  it, if all of it lies in the window. Otherwise it fails. -/
  reads : ∀ op v s', op ≠ .leave → (perform op s = .ok v s' ↔
    ∃ n, op.Finds file s.inner.offset v n ∧ n ≤ s.inner.remaining ∧ s' = s.past op n)
  /-- Opening a window moves the one around it by its length, and nothing that is done until the
  new window is left moves that one again. -/
  parent : ∀ n s₁ later, perform (.enter n) s = .ok .nothing s₁ →
    (∀ initial, initial <+: later → s.outer.length < (s₁.performAll initial).outer.length) →
      s.inner.advance n :: s.outer <:+ (s₁.performAll later).outer ∧
        ((s₁.performAll later).outer.length = s.outer.length + 1 →
          s₁.performAll (later ++ [.leave]) = ⟨s.inner.advance n, s.outer⟩)

/-- However a file has been read, its open windows are exact. -/
theorem exactOn_performAll (file : List UInt8) (ops : List ReadOp) :
    ((ofBytes file).performAll ops).ExactOn file := by
  have h : ((ofBytes file).performAll ops).Lies file := (lies_ofBytes file).performAll ops
  generalize (ofBytes file).performAll ops = s at h
  obtain ⟨len, hinner⟩ := h.inner
  refine ⟨h.windows, ⟨h.nested, h.outermost⟩, bounds_after s, ?_, ?_⟩
  · exact fun op v s' hop => perform_eq_ok_iff hinner hop
  · intro n s₁ later henter hopen
    have hop : ReadOp.enter n ≠ .leave := nofun
    obtain ⟨k, hfound, -, rfl⟩ := (perform_eq_ok_iff hinner hop).mp henter
    cases hfound
    have hsuffix : s.inner.advance n :: s.outer <:+
        ((s.past (.enter n) n).performAll later).outer :=
      suffix_performAll List.suffix_rfl hopen
    refine ⟨hsuffix, fun hlength => ?_⟩
    have houter := hsuffix.eq_of_length hlength.symm
    rw [performAll, List.foldl_concat]
    exact after_leave houter.symm

/-! ## Operations that fail -/

/-- A vector is to be read, and its length stands in the next `k` bytes. -/
def LengthStands (s : Nested) (op : ReadOp) (k : Nat) : Prop :=
  op = .byteVector ∧ Leb128.EncodedUnsigned s.inner.rest k

theorem unsigned_of_encoded {w : Window} {k : Nat} (h : Leb128.EncodedUnsigned w.rest k) :
    ∃ v, Window.unsigned w = .ok v (w.advance k) := by
  have hword := Leb128.EncodedUnsigned.toNat_ofNat h
  have hdecode := Leb128.decodeUnsigned_eq_ok_iff_encoded.mpr ⟨h, congrArg Nat.cast hword⟩
  exact ⟨_, by rw [Window.unsigned, Window.integer, hdecode]⟩

theorem encoded_of_unsigned {w w' : Window} {v : Word} (h : Window.unsigned w = .ok v w') :
    ∃ k, Leb128.EncodedUnsigned w.rest k := by
  obtain ⟨bs, rest, hrest, -, hencodes⟩ := (Read.accepts_unsigned w v w').mp h
  have hdecode := Leb128.decodeUnsigned_eq_ok_iff.mpr ⟨bs, rest, hrest, rfl, hencodes⟩
  exact ⟨bs.length, (Leb128.decodeUnsigned_eq_ok_iff_encoded.mp hdecode).1⟩

/-- Of the two reads of a vector, the first one stays made if the second one fails. -/
theorem eq_advance_of_lengthStands {k : Nat} (hk : s.LengthStands op k)
    (h : perform op s = .error e s') : s' = s.advance k := by
  obtain ⟨rfl, henc⟩ := hk
  obtain ⟨w, hvector, rfl⟩ := map_read_eq_error_iff.mp h
  obtain ⟨v, hlength⟩ := unsigned_of_encoded henc
  rw [Window.byteVector, bind_of_ok hlength] at hvector
  rw [Read.bytes_eq_error hvector]
  rfl

theorem eq_of_not_lengthStands (hno : ¬∃ k, s.LengthStands op k)
    (h : perform op s = .error e s') : s' = s := by
  cases op with
  | byte => exact eq_of_map_read_eq_error Read.byte_eq_error h
  | bytes n => exact eq_of_map_read_eq_error Read.bytes_eq_error h
  | skip n =>
    rw [perform_skip] at h
    exact eq_of_map_read_eq_error Read.skip_eq_error h
  | unsigned => exact eq_of_map_read_eq_error Read.integer_eq_error h
  | signed => exact eq_of_map_read_eq_error Read.integer_eq_error h
  | byteVector =>
    refine eq_of_map_read_eq_error (fun hvector => ?_) h
    rcases bind_eq_error hvector with hlength | ⟨v, w₁, hlength, -⟩
    · exact Read.integer_eq_error hlength
    · obtain ⟨k, henc⟩ := encoded_of_unsigned hlength
      exact absurd ⟨k, rfl, henc⟩ hno
  | enter n =>
    obtain ⟨w, hw, rfl⟩ := perform_enter_eq_error_iff.mp h
    rw [Read.split_eq_error hw]
  | leave =>
    simp only [perform, bind, EStateM.bind, leave] at h
    cases houter : s.outer <;> simp [houter, pure, EStateM.pure] at h

/-- An operation that fails leaves the windows as they were, but for one: where the bytes of a
vector are missing, its length stays read. -/
theorem failed_read_keeps_place_iff (h : perform op s = .error e s') :
    (s'.inner.place = s.inner.place ↔ ¬∃ k, s.LengthStands op k) ∧
      ((¬∃ k, s.LengthStands op k) → s' = s) ∧ ∀ k, s.LengthStands op k → s' = s.advance k := by
  have hmoved : ∀ k, s.LengthStands op k → s' = s.advance k :=
    fun k hk => eq_advance_of_lengthStands hk h
  have hstays : (¬∃ k, s.LengthStands op k) → s' = s := fun hno => eq_of_not_lengthStands hno h
  refine ⟨⟨?_, fun hno => by rw [hstays hno]⟩, hstays, hmoved⟩
  rintro hplace ⟨k, hk⟩
  rw [hmoved k hk] at hplace
  have hoffset : s.inner.offset + k = s.inner.offset := congrArg (fun place => place.2.1) hplace
  have hpos := hk.2.spans.pos
  omega

/-- A length that is cut off, and one whose bytes are. -/
theorem failed_read_keeps_place_cutVectors :
    (perform .byteVector (ofBytes [0x85]) = .error (.truncated 1) (ofBytes [0x85]) ∧
      ¬∃ k, (ofBytes [0x85]).LengthStands .byteVector k) ∧
    perform .byteVector (ofBytes [0x05, 0x61, 0x62]) =
        .error (.truncated 3) ((ofBytes [0x05, 0x61, 0x62]).advance 1) ∧
      ∃ k, (ofBytes [0x05, 0x61, 0x62]).LengthStands .byteVector k := by
  have hcut : perform .byteVector (ofBytes [0x85]) = .error (.truncated 1) (ofBytes [0x85]) := rfl
  have hmissing : perform .byteVector (ofBytes [0x05, 0x61, 0x62]) =
    .error (.truncated 3) ((ofBytes [0x05, 0x61, 0x62]).advance 1) := rfl
  refine ⟨⟨hcut, (failed_read_keeps_place_iff hcut).1.mp rfl⟩, hmissing, ?_⟩
  by_contra hno
  have hplace := (failed_read_keeps_place_iff hmissing).1.mpr hno
  exact absurd hplace (by decide)

/-- A vector of five bytes of which two are there: the read fails, and the next one starts behind
the length. -/
theorem failed_vector_moves_on :
    ∃ e s', perform .byteVector (ofBytes [0x05, 0x61, 0x62]) = .error e s' ∧
      s'.inner.position ≠ (ofBytes [0x05, 0x61, 0x62]).inner.position ∧
      s'.inner.offset ≠ (ofBytes [0x05, 0x61, 0x62]).inner.offset ∧
      s'.inner.remaining ≠ (ofBytes [0x05, 0x61, 0x62]).inner.remaining :=
  ⟨.truncated 3, (ofBytes [0x05, 0x61, 0x62]).advance 1, rfl, by decide, by decide, by decide⟩

end Nested

end WasmI32
