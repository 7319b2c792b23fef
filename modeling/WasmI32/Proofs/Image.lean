import Mathlib
import WasmI32.Memory

/-!
# The memory a module starts with

Pages of zeros, with data segments put in one after the other. Where segments overlap, the later one
wins. The memory is told by its sizes and its bytes, not by the way it came about.
-/

namespace WasmI32.Memory

/-- A memory of `initial` pages, all zero. -/
def zeroed (initial maxPages : Nat) : Memory := ⟨appendPages .empty initial, initial, maxPages⟩

theorem create_eq_ok_iff {initial maxPages : Nat} {m : Memory} :
    create initial maxPages = .ok m ↔
      1 ≤ maxPages ∧ maxPages ≤ 128 ∧ initial ≤ maxPages ∧ m = zeroed initial maxPages := by
  have hpages : Limits.pages = 128 := rfl
  unfold create zeroed
  by_cases hmax : maxPages < 1 ∨ Limits.pages < maxPages
  · rw [if_pos hmax]
    simp only [reduceCtorEq, false_iff]
    omega
  · rw [if_neg hmax]
    by_cases hinit : maxPages < initial
    · rw [if_pos hinit]
      simp only [reduceCtorEq, false_iff]
      omega
    · rw [if_neg hinit]
      constructor
      · intro h
        cases h
        exact ⟨by omega, by omega, by omega, rfl⟩
      · rintro ⟨-, -, -, rfl⟩
        rfl

/-! ## Sizes -/

theorem size_appendPages (data : ByteArray) (n : Nat) :
    (appendPages data n).size = data.size + n * 65536 := by
  induction n generalizing data with
  | zero => simp [appendPages]
  | succ n ih =>
    have hzero : zeroPage.size = 65536 := by
      rw [zeroPage, ByteArray.size, Array.size_replicate, pageSize]
    rw [appendPages, ih, ByteArray.size_append, hzero]
    omega

@[simp] theorem size_zeroed (initial maxPages : Nat) :
    (zeroed initial maxPages).data.size = initial * 65536 := by
  have hempty : ByteArray.empty.size = 0 := rfl
  rw [zeroed, size_appendPages, hempty, Nat.zero_add]

theorem size_set (data : ByteArray) (i : Nat) (b : UInt8) (h : i < data.size) :
    (data.set i b h).size = data.size := by
  change (data.data.set i b h).size = data.data.size
  exact Array.size_set h

theorem size_overwrite (data : ByteArray) (address : Nat) (bytes : List UInt8) :
    (overwrite data address bytes).size = data.size := by
  induction bytes generalizing data address with
  | nil => rfl
  | cons b rest ih =>
    unfold overwrite
    split
    · rw [ih, size_set]
    · rfl

@[simp] theorem size_put (m : Memory) (address : Nat) (bytes : List UInt8) :
    (m.put address bytes).data.size = m.data.size :=
  size_overwrite m.data address bytes

theorem length_lowBytes (value : Word) (count : Nat) : (lowBytes value count).length = count := by
  induction count generalizing value with
  | zero => rfl
  | succ count ih => rw [lowBytes, List.length_cons, ih]

/-! ## Data segments -/

/-- An address and the bytes to be put there. -/
abbrev Segment := Word × List UInt8

/-- The segment ends within the first `size` bytes. -/
def Segment.Fits (size : Nat) (s : Segment) : Prop := s.1.toNat + s.2.length ≤ size

/-- The memory with segments put in, in order. -/
def putAll (m : Memory) (segments : List Segment) : Memory :=
  segments.foldl (fun m s => m.put s.1.toNat s.2) m

theorem write_eq_ok_iff {m m' : Memory} {address : Word} {bytes : List UInt8} :
    m.write address bytes = .ok () m' ↔
      Segment.Fits m.data.size (address, bytes) ∧ m' = m.put address.toNat bytes := by
  have hholds : m.Holds address 0 bytes.length ↔ Segment.Fits m.data.size (address, bytes) := by
    simp [Holds, Segment.Fits]
  unfold write
  simp only
  by_cases h : m.Holds address 0 bytes.length
  · rw [if_pos h]
    simp [hholds.mp h, eq_comm]
  · rw [if_neg h]
    simp [mt hholds.mpr h]

/-! ## Bytes -/

theorem byteAt_eq (m : Memory) (k : Nat) : m.byteAt k = (m.data.data[k]?).getD 0 := by
  have hsize : m.data.size = m.data.data.size := rfl
  unfold byteAt
  by_cases h : k < m.data.size
  · rw [dif_pos h, Array.getElem?_eq_getElem (by rwa [hsize] at h)]
    rfl
  · rw [dif_neg h, Array.getElem?_eq_none (by omega)]
    rfl

theorem getElem?_overwrite {data : ByteArray} {address : Nat} {bytes : List UInt8}
    (h : address + bytes.length ≤ data.size) (k : Nat) :
    (overwrite data address bytes).data[k]? =
      if address ≤ k ∧ k < address + bytes.length then bytes[k - address]? else data.data[k]? := by
  induction bytes generalizing data address with
  | nil =>
    rw [if_neg (by simp)]
    rfl
  | cons b rest ih =>
    rw [List.length_cons] at h ⊢
    have hlt : address < data.size := by omega
    have hset : (data.set address b hlt).data = data.data.set address b hlt := rfl
    rw [overwrite, dif_pos hlt, ih (by rw [size_set]; omega), hset, Array.getElem?_set]
    by_cases hk : k = address
    · subst hk
      simp
    · by_cases hin : address + 1 ≤ k ∧ k < address + 1 + rest.length
      · rw [if_pos hin, if_pos (by omega)]
        have hsub : k - address = k - (address + 1) + 1 := by omega
        rw [hsub, List.getElem?_cons_succ]
      · rw [if_neg hin, if_neg (by omega), if_neg (by omega)]

theorem eq_zero_of_mem_appendPages {data : ByteArray} (h : ∀ b ∈ data.data, b = 0) (n : Nat) :
    ∀ b ∈ (appendPages data n).data, b = 0 := by
  induction n generalizing data with
  | zero => exact h
  | succ n ih =>
    refine ih fun b hb => ?_
    rw [ByteArray.data_append, Array.mem_append] at hb
    obtain hb | hb := hb
    · exact h b hb
    · exact Array.eq_of_mem_replicate hb

theorem byteAt_zeroed (initial maxPages k : Nat) : (zeroed initial maxPages).byteAt k = 0 := by
  have hzero : ∀ b ∈ (appendPages .empty initial).data, b = 0 :=
    eq_zero_of_mem_appendPages (by simp) initial
  rw [byteAt_eq]
  cases hk : (zeroed initial maxPages).data.data[k]? with
  | none => rfl
  | some b => exact hzero b (Array.mem_of_getElem? hk)

/-! ## Images -/

/-- The byte a segment puts at address `k`, if it does. -/
def Segment.byteAt? (k : Nat) (s : Segment) : Option UInt8 :=
  if s.1.toNat ≤ k then s.2[k - s.1.toNat]? else none

/-- The byte at address `k` after all segments: that of the last segment there, or else zero. -/
def imageByte (segments : List Segment) (k : Nat) : UInt8 :=
  ((segments.filterMap (Segment.byteAt? k)).getLast?).getD 0

theorem byteAt_put {m : Memory} {s : Segment} (h : s.Fits m.data.size) (k : Nat) :
    (m.put s.1.toNat s.2).byteAt k = (s.byteAt? k).getD (m.byteAt k) := by
  rw [byteAt_eq, byteAt_eq, Segment.byteAt?]
  change ((overwrite m.data s.1.toNat s.2).data[k]?).getD 0 = _
  rw [getElem?_overwrite h]
  by_cases hle : s.1.toNat ≤ k
  · rw [if_pos hle]
    by_cases hlt : k < s.1.toNat + s.2.length
    · rw [if_pos ⟨hle, hlt⟩, List.getElem?_eq_getElem (by omega)]
      rfl
    · rw [if_neg (fun hk => hlt hk.2), List.getElem?_eq_none (by omega)]
      rfl
  · rw [if_neg hle, if_neg (fun hk => hle hk.1)]
    rfl

/-- Putting in segments shows the last byte put at each address. -/
theorem byteAt_putAll {m : Memory} {segments : List Segment}
    (h : ∀ s ∈ segments, Segment.Fits m.data.size s) (k : Nat) :
    (m.putAll segments).byteAt k =
      ((segments.filterMap (Segment.byteAt? k)).getLast?).getD (m.byteAt k) := by
  induction segments generalizing m with
  | nil => rfl
  | cons s segments ih =>
    obtain ⟨hs, hrest⟩ := List.forall_mem_cons.mp h
    have hput := byteAt_put hs k
    change ((m.put s.1.toNat s.2).putAll segments).byteAt k = _
    rw [ih (by rwa [size_put]), hput]
    cases hb : s.byteAt? k with
    | none => rw [List.filterMap_cons_none hb, Option.getD_none]
    | some b =>
      rw [List.filterMap_cons_some hb, List.getLast?_cons, Option.getD_some, Option.getD_some]

theorem putAll_sizes (m : Memory) (segments : List Segment) :
    (m.putAll segments).data.size = m.data.size ∧ (m.putAll segments).pages = m.pages ∧
      (m.putAll segments).maxPages = m.maxPages := by
  induction segments generalizing m with
  | nil => exact ⟨rfl, rfl, rfl⟩
  | cons s segments ih =>
    obtain ⟨hsize, hpages, hmax⟩ := ih (m.put s.1.toNat s.2)
    exact ⟨hsize.trans (size_put m _ _), hpages, hmax⟩

/-- A memory that holds the segments in pages of zeros. -/
structure Image (pages maxPages : Nat) (segments : List Segment) (m : Memory) : Prop where
  pages_eq : m.pages = pages
  maxPages_eq : m.maxPages = maxPages
  size_eq : m.data.size = pages * 65536
  byte_eq : ∀ k < pages * 65536, m.byteAt k = imageByte segments k

theorem image_putAll {pages : Nat} {segments : List Segment} (maxPages : Nat)
    (h : ∀ s ∈ segments, Segment.Fits (pages * 65536) s) :
    Image pages maxPages segments ((zeroed pages maxPages).putAll segments) := by
  obtain ⟨hsize, hpages, hmax⟩ := putAll_sizes (zeroed pages maxPages) segments
  refine ⟨hpages, hmax, hsize.trans (size_zeroed pages maxPages), fun k _ => ?_⟩
  rw [byteAt_putAll (by rwa [size_zeroed]), byteAt_zeroed]
  rfl

theorem Image.unique {pages maxPages : Nat} {segments : List Segment} {m m' : Memory}
    (h : Image pages maxPages segments m) (h' : Image pages maxPages segments m') : m = m' := by
  obtain ⟨⟨bytes⟩, p, mp⟩ := m
  obtain ⟨⟨bytes'⟩, p', mp'⟩ := m'
  obtain rfl : p = p' := h.pages_eq.trans h'.pages_eq.symm
  obtain rfl : mp = mp' := h.maxPages_eq.trans h'.maxPages_eq.symm
  have hsize : bytes.size = pages * 65536 := h.size_eq
  have hsize' : bytes'.size = pages * 65536 := h'.size_eq
  have hbytes : bytes = bytes' := by
    refine Array.ext (hsize.trans hsize'.symm) fun k hk hk' => ?_
    have hbyte := (h.byte_eq k (by omega)).trans (h'.byte_eq k (by omega)).symm
    rwa [byteAt_eq, byteAt_eq, Array.getElem?_eq_getElem hk, Array.getElem?_eq_getElem hk'] at hbyte
  rw [hbytes]

end WasmI32.Memory
