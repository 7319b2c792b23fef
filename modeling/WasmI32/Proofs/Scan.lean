import WasmI32.Proofs.InstructionBytes

/-!
# Reading code from its start

A scan reads instructions one behind the other. The instructions it finds are those the machine
would read at the same offsets, so that the two never disagree on where an instruction starts. A
scan says nothing of the bytes behind the place where it stops.
-/

namespace WasmI32.Instruction

variable {code : Array UInt8} {ip next stop : Nat} {i : Instruction}

theorem lt_of_decodeAt (h : decodeAt code ip = .ok (i, next)) : ip < next := by
  obtain ⟨bs, hd, -, rfl⟩ := decodeAt_eq_ok_iff.mp h
  have hpos := hd.length_pos
  omega

/-! ## Instructions in a row -/

/-- The instructions from `ip` on, each with its offset, up to a place where none can be read. -/
inductive Row (code : Array UInt8) : Nat → List (Nat × Instruction) → Nat → Prop
  | nil {ip : Nat} (h : ∀ i next, decodeAt code ip ≠ .ok (i, next)) : Row code ip [] ip
  | cons {ip next stop : Nat} {i : Instruction} {is : List (Nat × Instruction)}
    (h : decodeAt code ip = .ok (i, next)) (hr : Row code next is stop) :
    Row code ip ((ip, i) :: is) stop

theorem Row.le_of_mem {is : List (Nat × Instruction)} (h : Row code ip is stop) :
    ∀ x ∈ is, ip ≤ x.1 := by
  induction h with
  | nil => simp
  | @cons ip next stop i is h _ ih =>
    intro x hx
    have hlt := lt_of_decodeAt h
    cases hx with
    | head => exact Nat.le_refl ip
    | tail _ hx =>
      have hle := ih x hx
      omega

/-- Where an instruction can be read, the row starts with it. -/
theorem Row.uncons {is : List (Nat × Instruction)} (h : Row code ip is stop)
    (hd : decodeAt code ip = .ok (i, next)) :
    ∃ rest, is = (ip, i) :: rest ∧ Row code next rest stop := by
  cases h with
  | nil hn => exact absurd hd (hn i next)
  | cons h hr =>
    rw [h] at hd
    cases hd
    exact ⟨_, rfl, hr⟩

/-! ## Scans -/

section Window

variable {w w' : Window}

theorem decodeAt_of_read (hw : w.rest = code.toList.drop w.offset) (h : read w = .ok i w') :
    decodeAt code w.offset = .ok (i, w'.offset) ∧ w'.rest = code.toList.drop w'.offset ∧
      w'.rest.length < w.rest.length := by
  obtain ⟨bs, rest, hb, rfl, hd⟩ := (accepts_read w i w').mp h
  have hpos := hd.length_pos
  refine ⟨decodeAt_eq_ok_iff.mpr ⟨bs, hd, ⟨rest, by rw [← hw, hb]⟩, rfl⟩, ?_, ?_⟩
  · rw [Window.behind_rest, Window.behind_offset, ← List.drop_drop, ← hw, hb, List.drop_left]
  · rw [Window.behind_rest, hb, List.length_append]
    omega

theorem read_of_decodeAt (hw : w.rest = code.toList.drop w.offset)
    (h : decodeAt code w.offset = .ok (i, next)) : ∃ w', read w = .ok i w' := by
  obtain ⟨bs, hd, ⟨rest, hr⟩, -⟩ := decodeAt_eq_ok_iff.mp h
  exact ⟨_, accepts_read.run (hw.trans hr) hd⟩

theorem decodeAt_ne_ok_of_rest_eq_nil (hw : w.rest = code.toList.drop w.offset) (hnil : w.rest = [])
    (i : Instruction) (next : Nat) : decodeAt code w.offset ≠ .ok (i, next) := by
  intro hd
  obtain ⟨w', hr⟩ := read_of_decodeAt hw hd
  have hlt := (decodeAt_of_read hw hr).2.2
  rw [hnil] at hlt
  exact Nat.not_lt_zero _ hlt

theorem row_scanFrom (fuel : Nat) (found : Array (Nat × Instruction))
    (hw : w.rest = code.toList.drop w.offset) (hf : w.rest.length ≤ fuel) :
    ∃ is, (scanFrom fuel found w).instructions.toList = found.toList ++ is ∧
      Row code w.offset is (scanFrom fuel found w).stop := by
  induction fuel generalizing found w with
  | zero =>
    have hnil : w.rest = [] := List.length_eq_zero_iff.mp (by omega)
    exact ⟨[], by simp [scanFrom], .nil (decodeAt_ne_ok_of_rest_eq_nil hw hnil)⟩
  | succ fuel ih =>
    unfold scanFrom
    by_cases he : w.isEmpty = true
    · rw [if_pos he]
      have hnil : w.rest = [] := List.isEmpty_iff.mp he
      exact ⟨[], by simp, .nil (decodeAt_ne_ok_of_rest_eq_nil hw hnil)⟩
    · rw [if_neg he]
      cases hr : read w with
      | error e w' =>
        refine ⟨[], by simp, .nil fun i next hd => ?_⟩
        obtain ⟨w'', hr'⟩ := read_of_decodeAt hw hd
        rw [hr] at hr'
        cases hr'
      | ok i w' =>
        obtain ⟨hd, hw', hlt⟩ := decodeAt_of_read hw hr
        obtain ⟨is, his, hrow⟩ := ih (found.push (w.offset, i)) hw' (by omega)
        exact ⟨(w.offset, i) :: is, by simp [his], .cons hd hrow⟩

end Window

theorem row_scan (code : Array UInt8) :
    Row code 0 (scan code).instructions.toList (scan code).stop := by
  have hw : (Window.ofBytes code.toList).rest = code.toList.drop 0 := rfl
  have hlen : (Window.ofBytes code.toList).rest.length ≤ code.size := by simp [Window.ofBytes]
  obtain ⟨is, his, hrow⟩ := row_scanFrom code.size #[] hw hlen
  rw [List.nil_append] at his
  rw [scan, his]
  exact hrow

/-! ## Places in the code -/

/-- The instructions in front of `ip`, each with its offset. -/
def before (code : Array UInt8) (ip : Nat) : List (Nat × Instruction) :=
  (scan code).instructions.toList.filter fun x => x.1 < ip

/-- Whether a scan comes to `ip`: an instruction starts there, or the scan stops there, be it at the
end of the code or at bytes that are no instruction. -/
def IsBoundary (code : Array UInt8) (ip : Nat) : Prop :=
  ip ∈ (scan code).instructions.toList.map Prod.fst ∨ ip = (scan code).stop

instance (code : Array UInt8) (ip : Nat) : Decidable (IsBoundary code ip) :=
  inferInstanceAs (Decidable (_ ∨ _))

/-- A scan that has read `front` stands at `ip`. -/
structure ScansTo (code : Array UInt8) (front : List (Nat × Instruction)) (ip : Nat) : Prop where
  lt_of_mem : ∀ x ∈ front, x.1 < ip
  row : ∃ back, (scan code).instructions.toList = front ++ back ∧ Row code ip back (scan code).stop

theorem ScansTo.start (code : Array UInt8) : ScansTo code [] 0 :=
  ⟨by simp, _, rfl, row_scan code⟩

theorem ScansTo.step {front : List (Nat × Instruction)} (h : ScansTo code front ip)
    (hd : decodeAt code ip = .ok (i, next)) : ScansTo code (front ++ [(ip, i)]) next := by
  obtain ⟨hlt, back, hall, hrow⟩ := h
  obtain ⟨rest, rfl, hrest⟩ := hrow.uncons hd
  have hip := lt_of_decodeAt hd
  refine ⟨?_, rest, by simp [hall], hrest⟩
  intro x hx
  obtain hx | hx := List.mem_append.mp hx
  · have hx := hlt x hx
    omega
  · rw [List.mem_singleton.mp hx]
    exact hip

theorem ScansTo.before_eq {front : List (Nat × Instruction)} (h : ScansTo code front ip) :
    before code ip = front := by
  obtain ⟨hlt, back, hall, hrow⟩ := h
  have hfront : front.filter (fun x => x.1 < ip) = front :=
    List.filter_eq_self.mpr fun x hx => decide_eq_true (hlt x hx)
  have hback : back.filter (fun x => x.1 < ip) = [] :=
    List.filter_eq_nil_iff.mpr fun x hx => by
      have hle := hrow.le_of_mem x hx
      simp only [decide_eq_true_eq]
      omega
  rw [before, hall, List.filter_append, hfront, hback, List.append_nil]

theorem ScansTo.isBoundary {front : List (Nat × Instruction)} (h : ScansTo code front ip) :
    IsBoundary code ip := by
  obtain ⟨-, back, hall, hrow⟩ := h
  unfold IsBoundary
  cases hrow with
  | nil => exact .inr rfl
  | cons =>
    rw [hall]
    exact .inl (by simp)

end WasmI32.Instruction
