import WasmI32.Proofs.LinearMemory

/-!
# Linear memory as a map of bytes

A reference for linear memory: its size, and for each address the byte written there last, if any.
It knows nothing of pages of bytes, of words in them or of how an access is carried out. Any row of
operations on a memory gives the answers and the errors that the reference gives, so that a load
shows, byte by byte, what the last of the writes before it left, whatever their widths. The one
exception is a read whose end is no 64-bit number. The reference refuses it; the memory has no
answer.
-/

namespace WasmI32

namespace Memory

/-- An operation on a memory. -/
inductive Op where
  | grow (delta : Word)
  | load (address offset : Word) (width : Width) (signed : Bool)
  | store (address offset : Word) (width : Width) (value : Word)
  | write (address : Word) (bytes : List UInt8)
  | read (address : Word) (length : BitVec 64)
  deriving DecidableEq

/-- The end of the access is a 64-bit number. Only the length of a read can be too large for it. -/
def Op.HasEnd : Op → Prop
  | .read address length => address.toNat + length.toNat < 2 ^ 64
  | .grow _ | .load .. | .store .. | .write .. => True

/-- What an operation gives if it succeeds. -/
inductive Answer where
  | nothing
  | pages (n : Nat)
  | word (v : Word)
  | bytes (bs : List UInt8)
  deriving DecidableEq

/-- What an operation gives, and the memory it leaves. -/
abbrev Outcome (σ : Type) := Except MemoryError Answer × σ

/-- The outcome of an operation that may change the memory. -/
def changing {α : Type} (x : EStateM MemoryError Memory α) (answer : α → Answer) (m : Memory) :
    Outcome Memory :=
  match x m with
  | .ok a m' => (.ok (answer a), m')
  | .error e m' => (.error e, m')

/-- The outcome of an operation, if it has one. -/
def perform (m : Memory) : Op → Option (Outcome Memory)
  | .grow delta => some (changing (grow delta) .pages m)
  | .load address offset width signed => some ((m.load address offset width signed).map .word, m)
  | .store address offset width value =>
    some (changing (store address offset width value) (fun _ => .nothing) m)
  | .write address bytes => some (changing (write address bytes) (fun _ => .nothing) m)
  | .read address length => (m.read address length).map fun found => (found.map .bytes, m)

/-- The answers of operations performed one after the other, and the memory they leave. One without
an outcome ends the row. -/
def performAll (m : Memory) : List Op → Option (List (Except MemoryError Answer) × Memory)
  | [] => some ([], m)
  | op :: ops =>
    match m.perform op with
    | none => none
    | some (answer, m') =>
      match m'.performAll ops with
      | none => none
      | some (answers, last) => some (answer :: answers, last)

end Memory

/-! ## The reference -/

/-- A size, and the byte that was written last at each address. -/
structure ByteMap where
  size : Nat
  maxPages : Nat
  last : Nat → Option UInt8

namespace ByteMap

open Memory (Op Answer Outcome)

/-- A memory of so many bytes, with nothing written to it. -/
def fresh (size maxPages : Nat) : ByteMap := ⟨size, maxPages, fun _ => none⟩

/-- The byte at an address, zero if none was written. -/
def byte (r : ByteMap) (k : Nat) : UInt8 := (r.last k).getD 0

/-- Writes byte `j` at `address + j` for each `j < width`, and nothing else. -/
def set (r : ByteMap) (address width : Nat) (byte : Nat → UInt8) : ByteMap :=
  { r with last := fun k =>
      if address ≤ k ∧ k < address + width then some (byte (k - address)) else r.last k }

/-- Extends a number of `width` bytes to a word, by its top bit if it is `signed`. -/
def extend (signed : Bool) (width n : Nat) : Word :=
  if signed = true ∧ width < 4 ∧ 2 ^ (8 * width - 1) ≤ n then
    BitVec.ofInt 32 ((n : Int) - 2 ^ (8 * width))
  else BitVec.ofNat 32 n

/-- Does `outcome` if the access lies inside the memory. -/
def access (r : ByteMap) (address offset : Word) (width : Nat) (outcome : Outcome ByteMap) :
    Outcome ByteMap :=
  if address.toNat + offset.toNat + width ≤ r.size then outcome
  else (.error (.outOfBounds address.toNat offset.toNat width r.size), r)

def perform (r : ByteMap) : Op → Outcome ByteMap
  | .grow delta =>
    let pages := r.size / 65536
    if pages + delta.toNat ≤ r.maxPages then
      (.ok (.pages pages), { r with size := r.size + delta.toNat * 65536 })
    else (.error (.growthExceedsMaximum pages delta.toNat r.maxPages), r)
  | .load address offset width signed =>
    let start := address.toNat + offset.toNat
    let sum := ∑ j ∈ Finset.range width.size, (r.byte (start + j)).toNat * 256 ^ j
    r.access address offset width.size (.ok (.word (extend signed width.size sum)), r)
  | .store address offset width value =>
    let start := address.toNat + offset.toNat
    let byte := fun j => UInt8.ofNat (value.toNat / 256 ^ j % 256)
    r.access address offset width.size (.ok .nothing, r.set start width.size byte)
  | .write address bytes =>
    r.access address 0 bytes.length
      (.ok .nothing, r.set address.toNat bytes.length fun j => bytes.getD j 0)
  | .read address length =>
    let bytes := (List.range length.toNat).map fun j => r.byte (address.toNat + j)
    r.access address 0 length.toNat (.ok (.bytes bytes), r)

def performAll (r : ByteMap) : List Op → List (Except MemoryError Answer) × ByteMap
  | [] => ([], r)
  | op :: ops =>
    let (answer, r') := r.perform op
    let (answers, last) := r'.performAll ops
    (answer :: answers, last)

theorem byte_set (r : ByteMap) (address width : Nat) (byte : Nat → UInt8) (k : Nat) :
    (r.set address width byte).byte k =
      if address ≤ k ∧ k < address + width then byte (k - address) else r.byte k := by
  simp only [ByteMap.byte, set]
  split <;> rfl

end ByteMap

/-! ## Bytes and numbers -/

namespace Memory

variable {m : Memory}

theorem byteAt_extend (m : Memory) (delta k : Nat) : (m.extend delta).byteAt k = m.byteAt k := by
  have hdata : (m.extend delta).data.data = m.data.data ++ Array.replicate (delta * 65536) 0 :=
    data_appendPages m.data delta
  rw [byteAt_eq, byteAt_eq, hdata, Array.getElem?_append]
  split
  · rfl
  · rename_i hk
    rw [Array.getElem?_replicate, Array.getElem?_eq_none (Nat.not_lt.mp hk)]
    split <;> rfl

theorem byteAt_put_eq {address : Nat} {bytes : List UInt8}
    (h : address + bytes.length ≤ m.data.size) (k : Nat) :
    (m.put address bytes).byteAt k =
      if address ≤ k ∧ k < address + bytes.length then bytes.getD (k - address) 0
      else m.byteAt k := by
  rw [byteAt_eq, byteAt_eq]
  change ((overwrite m.data address bytes).data[k]?).getD 0 = _
  rw [getElem?_overwrite h]
  split
  · rw [List.getD_eq_getElem?_getD]
  · rfl

theorem number_eq_sum (m : Memory) (address width : Nat) :
    m.number address width =
      ∑ j ∈ Finset.range width, (m.byteAt (address + j)).toNat * 256 ^ j := by
  induction width generalizing address with
  | zero => rfl
  | succ width ih =>
    have hterm (j : Nat) : (m.byteAt (address + (j + 1))).toNat * 256 ^ (j + 1) =
        256 * ((m.byteAt (address + 1 + j)).toNat * 256 ^ j) := by
      rw [Nat.add_assoc, Nat.add_comm 1, pow_succ]
      ring
    rw [number, ih, Finset.sum_range_succ', Finset.sum_congr rfl fun j _ => hterm j,
      ← Finset.mul_sum]
    simp only [Nat.add_zero, pow_zero, Nat.mul_one]
    omega

theorem number_lt (m : Memory) (address width : Nat) :
    m.number address width < 2 ^ (8 * width) := by
  induction width generalizing address with
  | zero => exact Nat.one_pos
  | succ width ih =>
    have hbyte := (m.byteAt address).toNat_lt
    have hrest := ih (address + 1)
    have hpow : 2 ^ (8 * (width + 1)) = 256 * 2 ^ (8 * width) := by
      rw [Nat.mul_add, pow_add]
      ring
    rw [number, hpow]
    omega

theorem getD_lowBytes (value : Word) {count j : Nat} (h : j < count) :
    (lowBytes value count).getD j 0 = UInt8.ofNat (value.toNat / 256 ^ j % 256) := by
  induction count generalizing value j with
  | zero => exact absurd h (Nat.not_lt_zero j)
  | succ count ih =>
    cases j with
    | zero =>
      apply UInt8.toNat_inj.mp
      simp [lowBytes]
    | succ j =>
      have hshift : (value >>> 8).toNat = value.toNat / 256 := by
        rw [BitVec.toNat_ushiftRight, Nat.shiftRight_eq_div_pow]
      rw [lowBytes, List.getD_cons_succ, ih _ (Nat.lt_of_succ_lt_succ h), hshift,
        Nat.div_div_eq_div_mul, pow_succ, Nat.mul_comm 256]

theorem ofInt_sub_eq_ofNat (n : Nat) :
    BitVec.ofInt 32 ((n : Int) - 2 ^ 32) = BitVec.ofNat 32 n := by
  have hsub : (n : Int) - 2 ^ 32 = n + (2 ^ 32 : Nat) * (-1) := by
    push_cast
    ring
  apply BitVec.eq_of_toInt_eq
  rw [BitVec.toInt_ofInt, BitVec.toInt_ofNat', hsub, Int.add_mul_bmod_self_left]

theorem size_cases (width : Width) : 0 < width.size ∧ (width.size < 4 ∨ width.size = 4) := by
  cases width <;> decide

/-- Extension by the top bit, of bits and of numbers. A word is full already. -/
theorem signExtend_eq_extend (width : Width) {n : Nat} (h : n < 2 ^ (8 * width.size)) :
    (BitVec.ofNat (8 * width.size) n).signExtend 32 = ByteMap.extend true width.size n := by
  obtain ⟨hpos, hsize⟩ := size_cases width
  have hpow : 2 ^ (8 * width.size) = 2 * 2 ^ (8 * width.size - 1) := by
    rw [← pow_succ']
    congr 1
    omega
  have htoNat : (BitVec.ofNat (8 * width.size) n).toNat = n := by
    rw [BitVec.toNat_ofNat, Nat.mod_eq_of_lt h]
  rw [BitVec.signExtend, BitVec.toInt_eq_toNat_cond, htoNat, ByteMap.extend]
  by_cases htop : 2 ^ (8 * width.size - 1) ≤ n
  · rw [if_neg (by omega), Nat.cast_pow, Nat.cast_ofNat]
    rcases hsize with hlt | hword
    · rw [if_pos ⟨rfl, hlt, htop⟩]
    · rw [hword, if_neg (by simp)]
      exact ofInt_sub_eq_ofNat n
  · rw [if_pos (by omega), if_neg (fun hc => htop hc.2.2)]
    exact BitVec.ofInt_natCast 32 n

theorem toList_extract_eq {address count : Nat} (h : address + count ≤ m.data.size) :
    (m.data.extract address (address + count)).data.toList =
      (List.range count).map fun j => m.byteAt (address + j) := by
  have hsize : m.data.data.size = m.data.size := rfl
  apply List.ext_getElem?
  intro j
  rw [ByteArray.data_extract, Array.getElem?_toList, List.getElem?_map]
  by_cases hj : j < count
  · rw [Array.getElem?_extract_of_lt (by omega), List.getElem?_range hj, Option.map_some, byteAt_eq,
      Array.getElem?_eq_getElem (by omega), Option.getD_some]
  · rw [List.getElem?_eq_none (by simpa using hj), Array.getElem?_eq_none]
    · rfl
    · rw [Array.size_extract]
      omega

/-! ## Agreement -/

/-- A memory shows what the reference says of it. -/
structure Agrees (m : Memory) (r : ByteMap) : Prop where
  size_eq : m.data.size = r.size
  pages_eq : r.size = m.pages * 65536
  maxPages_eq : m.maxPages = r.maxPages
  byte_eq : ∀ k, m.byteAt k = r.byte k

/-- The same answers, and states that agree. -/
def SameOutcome {α : Type} (x : α × Memory) (y : α × ByteMap) : Prop := x.1 = y.1 ∧ x.2.Agrees y.2

variable {r : ByteMap}

theorem Agrees.pages (h : m.Agrees r) : r.size / 65536 = m.pages := by
  rw [h.pages_eq]
  exact Nat.mul_div_cancel _ (by decide)

/-- Accesses are refused alike, and leave everything as it was. -/
theorem Agrees.access (h : m.Agrees r) {address offset : Word} {width : Nat} {x : Outcome Memory}
    {y : Outcome ByteMap} (hok : m.Holds address offset width → SameOutcome x y) :
    SameOutcome (if m.Holds address offset width then x else
      (.error (m.refusal address offset width), m)) (r.access address offset width y) := by
  have hholds : m.Holds address offset width ↔
      address.toNat + offset.toNat + width ≤ r.size := by rw [Holds, h.size_eq]
  unfold ByteMap.access
  by_cases hin : m.Holds address offset width
  · rw [if_pos hin, if_pos (hholds.mp hin)]
    exact hok hin
  · rw [if_neg hin, if_neg (mt hholds.mpr hin), refusal, h.size_eq]
    exact ⟨rfl, h⟩

theorem Agrees.put (h : m.Agrees r) {address n : Nat} {bytes : List UInt8} {byte : Nat → UInt8}
    (hn : bytes.length = n) (hin : address + n ≤ m.data.size)
    (hbyte : ∀ j < n, bytes.getD j 0 = byte j) :
    (m.put address bytes).Agrees (r.set address n byte) := by
  subst hn
  refine ⟨(size_put m address bytes).trans h.size_eq, h.pages_eq, h.maxPages_eq, fun k => ?_⟩
  rw [byteAt_put_eq hin, ByteMap.byte_set]
  by_cases hk : address ≤ k ∧ k < address + bytes.length
  · rw [if_pos hk, if_pos hk]
    exact hbyte _ (by omega)
  · rw [if_neg hk, if_neg hk]
    exact h.byte_eq k

theorem changing_of_checked {α : Type} {x : EStateM MemoryError Memory α} {m' : Memory} {c : Prop}
    [Decidable c] {a : α} {e : MemoryError} (h : x m = if c then .ok a m' else .error e m)
    (answer : α → Answer) :
    changing x answer m = if c then (.ok (answer a), m') else (.error e, m) := by
  rw [changing, h]
  by_cases hc : c
  · rw [if_pos hc, if_pos hc]
  · rw [if_neg hc, if_neg hc]

theorem Agrees.grow (h : m.Agrees r) (delta : Word) :
    SameOutcome (changing (grow delta) .pages m) (r.perform (.grow delta)) := by
  have hperform : changing (Memory.grow delta) .pages m =
      if m.CanGrow delta then (.ok (.pages m.pages), m.extend delta.toNat)
      else (.error (.growthExceedsMaximum m.pages delta.toNat m.maxPages), m) :=
    changing_of_checked rfl _
  rw [hperform]
  simp only [ByteMap.perform, h.pages]
  by_cases hg : m.CanGrow delta
  · have hle : m.pages + delta.toNat ≤ r.maxPages := h.maxPages_eq ▸ hg
    rw [if_pos hg, if_pos hle]
    refine ⟨rfl, ?_, ?_, h.maxPages_eq, fun k => ?_⟩
    · exact (size_appendPages m.data _).trans (by rw [h.size_eq])
    · exact (congrArg (· + delta.toNat * 65536) h.pages_eq).trans (Nat.add_mul ..).symm
    · exact (byteAt_extend m _ k).trans (h.byte_eq k)
  · have hlt : ¬ m.pages + delta.toNat ≤ r.maxPages := h.maxPages_eq ▸ hg
    rw [if_neg hg, if_neg hlt, h.maxPages_eq]
    exact ⟨rfl, h⟩

theorem Agrees.sum_eq (h : m.Agrees r) (address width : Nat) :
    m.number address width =
      ∑ j ∈ Finset.range width, (r.byte (address + j)).toNat * 256 ^ j := by
  rw [number_eq_sum]
  exact Finset.sum_congr rfl fun j _ => by rw [h.byte_eq]

theorem Agrees.load (h : m.Agrees r) (address offset : Word) (width : Width) (signed : Bool) :
    SameOutcome ((m.load address offset width signed).map .word, m)
      (r.perform (.load address offset width signed)) := by
  have hperform : ((m.load address offset width signed).map Answer.word, m) =
      if m.Holds address offset width.size then
        (.ok (.word (if signed then
          (BitVec.ofNat (8 * width.size)
            (m.number (address.toNat + offset.toNat) width.size)).signExtend 32
          else BitVec.ofNat 32 (m.number (address.toNat + offset.toNat) width.size))), m)
      else (.error (m.refusal address offset width.size), m) := by
    simp only [Memory.load]
    split <;> rfl
  rw [hperform]
  refine h.access fun _ => ⟨?_, h⟩
  rw [← h.sum_eq]
  cases signed with
  | true => rw [if_pos rfl, signExtend_eq_extend width (number_lt m _ _)]
  | false => rfl

theorem Agrees.store (h : m.Agrees r) (address offset : Word) (width : Width) (value : Word) :
    SameOutcome (changing (store address offset width value) (fun _ => .nothing) m)
      (r.perform (.store address offset width value)) := by
  have hperform : changing (Memory.store address offset width value) (fun _ => .nothing) m =
      if m.Holds address offset width.size then
        (.ok .nothing, m.put (address.toNat + offset.toNat) (lowBytes value width.size))
      else (.error (m.refusal address offset width.size), m) :=
    changing_of_checked rfl _
  rw [hperform]
  refine h.access fun hin => ⟨rfl, ?_⟩
  exact h.put (length_lowBytes value width.size) hin fun j hj => getD_lowBytes value hj

theorem Agrees.write (h : m.Agrees r) (address : Word) (bytes : List UInt8) :
    SameOutcome (changing (write address bytes) (fun _ => .nothing) m)
      (r.perform (.write address bytes)) := by
  have hperform : changing (Memory.write address bytes) (fun _ => .nothing) m =
      if m.Holds address 0 bytes.length then (.ok .nothing, m.put address.toNat bytes)
      else (.error (m.refusal address 0 bytes.length), m) :=
    changing_of_checked rfl _
  rw [hperform]
  exact h.access fun hin => ⟨rfl, h.put rfl (by simpa [Holds] using hin) fun _ _ => rfl⟩

/-- A read whose end does not overflow is checked as any other access. -/
theorem read_eq {address : Word} {length : BitVec 64}
    (h : address.toNat + length.toNat < 2 ^ 64) :
    m.read address length = some (if m.Holds address 0 length.toNat then
      .ok (m.data.extract address.toNat (address.toNat + length.toNat)).data.toList
      else .error (m.refusal address 0 length.toNat)) := by
  have hstart : (address.setWidth 64).toNat = address.toNat :=
    BitVec.toNat_setWidth_of_le (by decide)
  have hstop : (address.setWidth 64 + length).toNat = address.toNat + length.toNat := by
    rw [BitVec.toNat_add, hstart, Nat.mod_eq_of_lt h]
  have hover : (address.setWidth 64).uaddOverflow length = false := by
    rw [BitVec.uaddOverflow, hstart]
    exact decide_eq_false (Nat.not_le.mpr h)
  have hholds : m.Holds address 0 length.toNat ↔
      ¬ m.data.size < address.toNat + length.toNat := Nat.not_lt.symm
  simp only [read, hover, hstart, hstop, Bool.false_eq_true, if_false]
  by_cases hin : m.Holds address 0 length.toNat
  · rw [if_pos hin, if_neg (hholds.mp hin)]
  · rw [if_neg hin, if_pos (Decidable.not_not.mp (mt hholds.mpr hin))]

theorem Agrees.read (h : m.Agrees r) {address : Word} {length : BitVec 64}
    (hend : address.toNat + length.toNat < 2 ^ 64) :
    ∃ x, m.perform (.read address length) = some x ∧
      SameOutcome x (r.perform (.read address length)) := by
  have hperform : m.perform (.read address length) =
      some (if m.Holds address 0 length.toNat then
        (.ok (.bytes
          (m.data.extract address.toNat (address.toNat + length.toNat)).data.toList), m)
      else (.error (m.refusal address 0 length.toNat), m)) := by
    simp only [perform, read_eq hend]
    split <;> rfl
  refine ⟨_, hperform, h.access fun hin => ⟨?_, h⟩⟩
  rw [toList_extract_eq (by simpa [Holds] using hin)]
  simp only [h.byte_eq]

/-- One operation gives the same, and keeps memory and reference in agreement. -/
theorem Agrees.perform (h : m.Agrees r) {op : Op} (hend : op.HasEnd) :
    ∃ x, m.perform op = some x ∧ SameOutcome x (r.perform op) := by
  cases op with
  | grow delta => exact ⟨_, rfl, h.grow delta⟩
  | load address offset width signed => exact ⟨_, rfl, h.load address offset width signed⟩
  | store address offset width value => exact ⟨_, rfl, h.store address offset width value⟩
  | write address bytes => exact ⟨_, rfl, h.write address bytes⟩
  | read address length => exact h.read hend

theorem Agrees.performAll (h : m.Agrees r) {ops : List Op} (hend : ∀ op ∈ ops, op.HasEnd) :
    ∃ x, m.performAll ops = some x ∧ SameOutcome x (r.performAll ops) := by
  induction ops generalizing m r with
  | nil => exact ⟨_, rfl, rfl, h⟩
  | cons op ops ih =>
    obtain ⟨hop, hops⟩ := List.forall_mem_cons.mp hend
    obtain ⟨⟨answer, m₁⟩, hperform, hanswer, hstate⟩ := h.perform hop
    obtain ⟨⟨answers, last⟩, hall, hanswers, hlast⟩ := ih hstate hops
    refine ⟨(answer :: answers, last), ?_, congrArg₂ List.cons hanswer hanswers, hlast⟩
    simp only [Memory.performAll, hperform, hall]

/-- A memory that has just been made, and the reference for it. -/
inductive Starts : Memory → ByteMap → Prop
  | empty : Starts .empty (.fresh 0 0)
  | create {initial maxPages : Nat} {m : Memory} (h : create initial maxPages = .ok m) :
    Starts m (.fresh (initial * 65536) maxPages)

end Memory

end WasmI32
