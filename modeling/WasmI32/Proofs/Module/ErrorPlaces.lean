import WasmI32.Proofs.Module.Faults

/-!
# The places that errors name

An error that carries an offset carries one of the whole binary, behind the header, and what it says
of that place is so. Nearly all integers of a binary are unsigned; the address of a data segment is
signed. Which places hold addresses is told by the grammar alone, so that an error cannot be right
about an integer of the wrong kind. Errors that carry no offset are not looked at.
-/

namespace WasmI32

/-- A string that a reader accepts is told from what follows it. -/
theorem Read.Accepts.append_inj {ε α : Type} {x : Read ε α} {G : Grammar α} (h : x.Accepts G)
    {o : Nat} {bs cs rest tail : List UInt8} {a b : α} (hb : G o bs a) (hc : G o cs b)
    (heq : bs ++ rest = cs ++ tail) : bs = cs ∧ rest = tail := by
  have hread := h.run (w := ⟨0, o, bs ++ rest⟩) rfl hb
  have hread' := h.run (w := ⟨0, o, bs ++ rest⟩) heq hc
  rw [hread] at hread'
  obtain ⟨-, hwindow⟩ := EStateM.Result.ok.inj hread'
  have hlength : o + bs.length = o + cs.length := congrArg Window.offset hwindow
  exact List.append_inj heq (by omega)

/-- Where no unsigned integer can be read, no number stands. -/
theorem Format.not_number_of_fails {w : Window} (h : ∀ n w', Window.unsigned w ≠ .ok n w')
    {o n : Nat} {ns rest : List UInt8} (hw : w.rest = ns ++ rest) : ¬ number o ns n := by
  rintro ⟨v, hv, -⟩
  exact h v _ (Read.accepts_unsigned.run hw hv)

namespace Format

/-! ## The addresses of data segments -/

/-- The address of one of `count` data segments, which stand in `bs` from `o` on, starts at `p`. The
segments in front of that one are whole, and it is read up to its address at least. -/
def AddressAmong (count o : Nat) (bs : List UInt8) (p : Nat) : Prop :=
  ∃ ds segments is tail, bs = ds ++ (is ++ 0x41 :: tail) ∧ Items segment o ds segments ∧
    segments.length < count ∧ number 0 is 0 ∧ tail ≠ [] ∧ p = o + ds.length + is.length + 1

/-- The address of a data segment starts at `p` in the contents of a data section. -/
def AddressInData (o : Nat) (bs : List UInt8) (p : Nat) : Prop :=
  ∃ ns count rest, bs = ns ++ rest ∧ number o ns count ∧
    AddressAmong count (o + ns.length) rest p

/-- The address of a data segment starts at `p` in a row of sections. What the other sections hold
does not matter. -/
def AddressInSections (o : Nat) (bs : List UInt8) (p : Nat) : Prop :=
  ∃ front sections size contents back, bs = front ++ (framed 11 size contents ++ back) ∧
    Sections o front sections ∧ number 0 size contents.length ∧
    AddressInData (o + front.length + 1 + size.length) contents p

/-- The address of a data segment starts at `p` in a binary. -/
def IsAddress (bytes : List UInt8) (p : Nat) : Prop :=
  ∃ rest, bytes = Module.header ++ rest ∧ AddressInSections 8 rest p

variable {count o p : Nat} {bs ns rest size contents : List UInt8}

theorem AddressAmong.bounds (h : AddressAmong count o bs p) : o < p ∧ p < o + bs.length := by
  obtain ⟨ds, segments, is, tail, rfl, -, -, -, htail, rfl⟩ := h
  have hpos := List.length_pos_iff.mpr htail
  simp only [List.length_append, List.length_cons]
  omega

/-- In front of an address stands the index of a memory. -/
theorem AddressAmong.exists_number (h : AddressAmong count o bs p) :
    ∃ is tail, bs = is ++ tail ∧ number 0 is 0 := by
  obtain ⟨ds, segments, is, tail, rfl, hitems, -, his, -⟩ := h
  cases hitems with
  | nil => exact ⟨is, _, rfl, his⟩
  | cons hs _ =>
    obtain ⟨is', as, ns, rfl, his', -⟩ := hs
    exact ⟨is', _, (List.append_assoc ..).trans (List.append_assoc ..), his'⟩

/-- Behind a whole segment only the addresses of the others are met. -/
theorem addressAmong_append {s : List UInt8} {seg : Word × List UInt8} (hs : segment o s seg)
    (hp : o + s.length ≤ p) :
    AddressAmong (count + 1) o (s ++ rest) p ↔ AddressAmong count (o + s.length) rest p := by
  constructor
  · rintro ⟨ds, segments, is, tail, heq, hitems, hcount, his, htail, rfl⟩
    cases hitems with
    | nil =>
      obtain ⟨is', as, ns, rfl, his', -⟩ := hs
      obtain ⟨rfl, -⟩ := number_append_inj his' his ((List.append_assoc ..).symm.trans heq)
      simp only [List.length_append, List.length_cons, List.length_nil] at hp
      omega
    | @cons _ s' ds _ segments hs' hitems =>
      rw [List.append_assoc] at heq
      obtain ⟨rfl, rfl⟩ := Decode.accepts_dataSegment.append_inj hs hs' heq
      refine ⟨ds, segments, is, tail, rfl, hitems, Nat.lt_of_succ_lt_succ hcount, his, htail, ?_⟩
      rw [List.length_append]
      omega
  · rintro ⟨ds, segments, is, tail, rfl, hitems, hcount, his, htail, rfl⟩
    refine ⟨s ++ ds, seg :: segments, is, tail, (List.append_assoc ..).symm, .cons hs hitems,
      Nat.succ_lt_succ hcount, his, htail, ?_⟩
    rw [List.length_append]
    omega

/-- Where a segment cannot be read behind its address, that address is the only one. -/
theorem AddressAmong.eq_of_no_length {is as : List UInt8} {a : Word}
    (h : AddressAmong count o (is ++ 0x41 :: (as ++ 0x0b :: rest)) p) (his : number 0 is 0)
    (has : Leb128.Signed as a) (hrest : ∀ ns n tail, rest = ns ++ tail → ¬ number 0 ns n) :
    p = o + is.length + 1 := by
  obtain ⟨ds, segments, is', tail, heq, hitems, -, his', -, rfl⟩ := h
  cases hitems with
  | nil =>
    obtain ⟨rfl, -⟩ := number_append_inj his his' heq
    rfl
  | cons hs _ =>
    obtain ⟨is', as', ns, rfl, his', has', hns⟩ := hs
    simp only [List.append_assoc, List.cons_append] at heq
    obtain ⟨rfl, -⟩ := number_append_inj his his' heq
    have hbehind := (List.cons.inj (List.append_cancel_left heq)).2
    obtain ⟨-, htail⟩ := Read.accepts_signed.append_inj (o := 0) has has' hbehind
    exact absurd hns (hrest ns _ _ (List.cons.inj htail).2)

theorem AddressInData.bounds (h : AddressInData o bs p) : o < p ∧ p < o + bs.length := by
  obtain ⟨ns, count, rest, rfl, -, h⟩ := h
  have hbounds := h.bounds
  rw [List.length_append]
  omega

theorem addressInData_append (hns : number o ns count) :
    AddressInData o (ns ++ rest) p ↔ AddressAmong count (o + ns.length) rest p := by
  constructor
  · rintro ⟨ns', count', rest', heq, hns', h⟩
    obtain ⟨rfl, rfl⟩ := number_append_inj hns hns' heq
    rwa [List.append_cancel_left heq]
  · intro h
    exact ⟨ns, count, rest, rfl, hns, h⟩

/-- A section is told from what follows it. -/
theorem framed_append_inj {o' : Nat} {id id' : UInt8} {size' contents' tail : List UInt8}
    (hsize : number o size contents.length) (hsize' : number o' size' contents'.length)
    (heq : framed id size contents ++ rest = framed id' size' contents' ++ tail) :
    id = id' ∧ size = size' ∧ contents = contents' ∧ rest = tail := by
  rw [← cons_eq_framed_append, ← cons_eq_framed_append] at heq
  obtain ⟨hid, heq⟩ := List.cons.inj heq
  obtain ⟨rfl, hlength⟩ := number_append_inj hsize hsize' heq
  obtain ⟨hcontents, hrest⟩ := List.append_inj (List.append_cancel_left heq) hlength
  exact ⟨hid, rfl, hcontents, hrest⟩

theorem AddressInSections.lt (h : AddressInSections o bs p) : o < p := by
  obtain ⟨front, sections, size, contents, back, -, -, -, h⟩ := h
  have hbounds := h.bounds
  omega

theorem AddressInSections.exists_framed (h : AddressInSections o bs p) :
    ∃ id size contents tail, bs = framed id size contents ++ tail ∧
      number 0 size contents.length := by
  obtain ⟨front, sections, size, contents, back, rfl, hfront, hsize, -⟩ := h
  cases hfront with
  | nil => exact ⟨_, size, contents, back, rfl, hsize⟩
  | @cons _ id size' contents' front _ hsize' _ =>
    refine ⟨id, size', contents', front ++ (framed 11 size contents ++ back), ?_, hsize'⟩
    rw [cons_eq_framed_append, List.append_assoc]

theorem addressInSections_framed {id : UInt8} (hsize : number 0 size contents.length) :
    AddressInSections o (framed id size contents ++ rest) p ↔
      id = 11 ∧ AddressInData (o + 1 + size.length) contents p ∨
        AddressInSections (o + (framed id size contents).length) rest p := by
  constructor
  · rintro ⟨front, sections, size', contents', back, heq, hfront, hsize', h⟩
    cases hfront with
    | nil =>
      obtain ⟨rfl, rfl, rfl, -⟩ := framed_append_inj hsize hsize' heq
      exact .inl ⟨rfl, h⟩
    | @cons _ id₁ size₁ contents₁ front sections hsize₁ hfront =>
      rw [cons_eq_framed_append, List.append_assoc] at heq
      obtain ⟨rfl, rfl, rfl, rfl⟩ := framed_append_inj hsize hsize₁ heq
      refine .inr ⟨front, sections, size', contents', back, rfl, ?_, hsize', ?_⟩
      · rw [length_framed]
        convert hfront using 1
        omega
      · convert h using 1
        simp only [length_framed, List.length_cons, List.length_append]
        omega
  · rintro (⟨rfl, h⟩ | ⟨front, sections, size', contents', back, rfl, hfront, hsize', h⟩)
    · exact ⟨[], [], size, contents, rest, rfl, .nil, hsize, h⟩
    · refine ⟨framed id size contents ++ front, _, size', contents', back,
        (List.append_assoc ..).symm, (Sections.single id hsize o).append hfront, hsize', ?_⟩
      convert h using 1
      rw [List.length_append]
      omega

end Format

open Format Read

namespace Decode

variable {v w : Window} {signed : Nat → Prop}

/-! ## The data section -/

theorem failsBy_byteVector (hw : w.PartOf v)
    (hs : (∀ n w', Window.unsigned w ≠ .ok n w') → ¬ signed w.offset) :
    FailsBy (fun e => (DecodeError.ofRead e).Fits v signed) Window.byteVector w :=
  failsBy_bind (failsBy_unsigned hw hs) fun _ _ h =>
    failsBy_bytes _ (accepts_unsigned.consumes.partOf hw h)

theorem failsBy_dataSegment (count : Nat) (w : Window) :
    FailsBy (DecodeError.Fits w (AddressAmong (count + 1) w.offset w.rest)) dataSegment w := by
  have hw := w.partOf_self
  refine failsBy_bind (failsBy_lift (failsBy_unsigned hw ?_)) fun index w₁ h => ?_
  · intro hfail haddress
    obtain ⟨is, tail, hrest, his⟩ := haddress.exists_number
    exact not_number_of_fails hfail hrest his
  obtain ⟨is, rest₁, hrest, rfl, hindex⟩ :=
    (accepts_adaptExcept accepts_unsigned _ w index w₁).mp h
  have hw₁ := hw.behind hrest
  refine failsBy_unless (fun _ => trivial) fun hzero => ?_
  obtain rfl : index = 0 := not_not.mp hzero
  have his : number 0 is 0 := ⟨0, hindex, rfl⟩
  refine failsBy_here (failsBy_bind (failsBy_byte hw₁) fun opening w₂ h => ?_)
  obtain ⟨_, rest₂, hrest₁, rfl, rfl⟩ := (accepts_adaptExcept accepts_byte _ _ opening w₂).mp h
  have hplace : w.Holds (w.offset + is.length) [] := Window.Holds.nil hw₁
  refine failsBy_unless (fun _ => hplace) fun hopen => ?_
  have hw₂ := hw₁.behind hrest₁
  obtain rfl : opening = 0x41 := not_not.mp hopen
  obtain rfl : rest₁ = 0x41 :: rest₂ := hrest₁
  refine failsBy_bind (failsBy_lift (failsBy_signed hw₂ fun htail => ?_)) fun address w₃ h => ?_
  · -- here an address is due: no segment stands in front of this one
    exact ⟨[], [], is, rest₂, hrest, .nil, Nat.succ_pos count, his, htail, rfl⟩
  obtain ⟨as, rest₃, hrest₂, rfl, has⟩ :=
    (accepts_adaptExcept accepts_signed _ _ address w₃).mp h
  have hw₃ := hw₂.behind hrest₂
  refine failsBy_bind (failsBy_byte hw₃) fun closing w₄ h => ?_
  obtain ⟨_, rest₄, hrest₃, rfl, rfl⟩ := (accepts_adaptExcept accepts_byte _ _ closing w₄).mp h
  refine failsBy_unless (fun _ => hplace) fun hclose => ?_
  have hw₄ := hw₃.behind hrest₃
  obtain rfl : closing = 0x0b := not_not.mp hclose
  obtain rfl : rest₃ = 0x0b :: rest₄ := hrest₃
  obtain rfl : rest₂ = as ++ 0x0b :: rest₄ := hrest₂
  refine failsBy_bind (failsBy_lift (failsBy_byteVector hw₄ ?_)) fun _ _ _ => failsBy_pure _
  intro hfail haddress
  rw [hrest] at haddress
  -- the length of the bytes is no integer, so that no other segment can follow
  have hp := haddress.eq_of_no_length his has fun _ _ _ => not_number_of_fails hfail
  simp only [Window.behind_offset, List.length_singleton] at hp
  omega

theorem failsBy_dataSegments (count : Nat) (memory : Memory) (w : Window) :
    FailsBy (DecodeError.Fits w (AddressAmong count w.offset w.rest))
      (dataSegments count memory) w := by
  induction count generalizing memory w with
  | zero => exact failsBy_pure memory
  | succ count ih =>
    refine failsBy_bind (failsBy_dataSegment count w) fun s w₁ h => ?_
    obtain ⟨bs, rest, hrest, rfl, hs⟩ := (accepts_dataSegment w s w₁).mp h
    obtain ⟨address, bytes⟩ := s
    cases hwrite : memory.write address bytes with
    | error cause memory' =>
      simp only [hwrite]
      exact failsBy_throw trivial
    | ok _ memory' =>
      simp only [hwrite]
      intro e w' he
      refine (ih memory' _ e w' he).widen (w.partOf_self.behind hrest) fun p cs hp _ => ?_
      rw [hrest]
      exact addressAmong_append hs hp.bounds.1

theorem failsBy_dataSection (memory : Memory) (w : Window) :
    FailsBy (DecodeError.Fits w (AddressInData w.offset w.rest)) (dataSection memory) w := by
  refine failsBy_bind (failsBy_limited _ _ w.partOf_self ?_) fun n w₁ h => ?_
  · rintro hfail ⟨ns, count, rest, hrest, hns, -⟩
    exact not_number_of_fails hfail hrest hns
  obtain ⟨ns, rest, hrest, rfl, hns, -⟩ := (accepts_count _ _ w n w₁).mp h
  intro e w' he
  refine (failsBy_dataSegments n memory _ e w' he).widen (w.partOf_self.behind hrest) ?_
  intro p cs _ _
  rw [hrest]
  exact addressInData_append hns

/-! ## Sections -/

theorem consumes_contents (id : UInt8) (d : Draft) : Consumes (contents id d) := by
  unfold contents
  split
  · exact consumes_bind accepts_typeSection.consumes fun _ => consumes_pure _
  split
  · exact consumes_bind (accepts_functionSection _).consumes fun _ => consumes_pure _
  split
  · refine consumes_bind accepts_memorySection.consumes fun memory => ?_
    cases memory with
    | some memory => exact consumes_pure _
    | none => exact consumes_pure _
  split
  · exact consumes_bind accepts_startSection.consumes fun _ => consumes_pure _
  split
  · exact consumes_bind accepts_codeSection.consumes fun _ => consumes_pure _
  split
  · exact consumes_bind (accepts_dataSection _).consumes fun _ => consumes_pure _
  · exact consumes_bind consumes_takeRest fun _ => consumes_pure _

theorem failsBy_contents (id : UInt8) (d : Draft) (w : Window) :
    FailsBy (DecodeError.Fits w fun p => id = 11 ∧ AddressInData w.offset w.rest p)
      (contents id d) w := by
  have hw := w.partOf_self
  by_cases hid : id = 11
  · subst hid
    refine failsBy_bind (fun e w' he => ?_) fun _ _ _ => failsBy_pure _
    exact (failsBy_dataSection _ w e w' he).widen hw fun _ _ _ _ => and_iff_right rfl
  · intro e w' he
    refine (failsBy_contents_of_ne hid hw e w' he).widen hw fun p _ _ _ => ?_
    exact ⟨fun h => hid h.1, False.elim⟩

/-- A section is refused for its number, for what it holds, or for what it holds too much. -/
theorem fits_of_addSection {d : Draft} {id : UInt8} {offset : Nat} {window : Window}
    {e : DecodeError} (hid : v.Holds offset [id]) (hwindow : window.PartOf v)
    (hstart : window.start = window.offset)
    (hs : ∀ p bs, window.Holds p bs → bs.length = 5 →
      (signed p ↔ id = 11 ∧ AddressInData window.offset window.rest p))
    (h : addSection d id offset window = .error e) : e.Fits v signed := by
  unfold addSection at h
  split at h
  · cases h
  split at h
  · cases h
    exact hid
  split at h
  · cases h
    exact hid
  split at h
  · rename_i hcontents
    cases h
    exact (failsBy_contents _ _ window _ _ hcontents).widen hwindow hs
  · rename_i hcontents
    split at h
    · cases h
    · rename_i hleft
      cases h
      obtain ⟨bs, rest, hrest, rfl⟩ := consumes_contents _ _ window _ _ hcontents
      have hpos : 0 < rest.length := List.length_pos_iff.mpr fun hnil =>
        hleft (List.isEmpty_iff.mpr hnil)
      refine ⟨hid, ?_⟩
      simp only [Window.position, Window.remaining, Window.behind, hrest, hstart,
        List.length_append]
      omega

theorem failsBy_nextSection (d : Draft) (w : Window) :
    FailsBy (DecodeError.Fits w (AddressInSections w.offset w.rest)) (nextSection d) w := by
  have hw := w.partOf_self
  refine failsBy_here (failsBy_bind (failsBy_byte hw) fun id w₁ h => ?_)
  have hid := (holds_of_byte hw h).1
  obtain ⟨_, rest₁, hrest, rfl, rfl⟩ := (accepts_adaptExcept accepts_byte _ w id w₁).mp h
  have hw₁ := hw.behind hrest
  refine failsBy_bind (failsBy_lift (failsBy_unsigned hw₁ ?_)) fun size w₂ h => ?_
  · intro hfail haddress
    obtain ⟨id', size, contents, tail, heq, hsize⟩ := haddress.exists_framed
    rw [hrest, ← cons_eq_framed_append] at heq
    exact not_number_of_fails hfail (List.cons.inj heq).2 hsize
  obtain ⟨ss, rest₂, hrest₁, rfl, hsize⟩ :=
    (accepts_adaptExcept accepts_unsigned _ _ size w₂).mp h
  have hw₂ := hw₁.behind hrest₁
  refine failsBy_bind (failsBy_lift (failsBy_split _ hw₂)) fun window w₃ h => ?_
  obtain ⟨hwindow, hstart⟩ := partOf_of_split hw₂ h
  obtain ⟨cs, rest₃, hrest₂, rfl, hlength, rfl⟩ :=
    (accepts_adaptExcept (accepts_split _) _ _ window w₃).mp h
  cases ha : addSection d id w.offset _ with
  | ok d' => exact failsBy_pure d'
  | error e =>
    refine failsBy_throw (fits_of_addSection hid hwindow hstart ?_ ha)
    intro p bs hp hbs
    have hframed : w.rest = framed id ss cs ++ rest₃ := by
      rw [← cons_eq_framed_append, hrest]
      simp only [Window.behind_rest] at hrest₁ hrest₂
      rw [hrest₁, hrest₂]
      rfl
    have hsize : number 0 ss cs.length := ⟨size, hsize, hlength⟩
    rw [hframed, addressInSections_framed hsize]
    refine or_iff_left fun hrest => ?_
    have hlt := hrest.lt
    have hbounds := hp.bounds
    simp only [Window.stop, Window.behind_offset, length_framed, List.length_singleton]
      at hlt hbounds
    omega

theorem failsBy_sections (fuel : Nat) (d : Draft) (w : Window) :
    FailsBy (DecodeError.Fits w (AddressInSections w.offset w.rest)) (sections fuel d) w := by
  induction fuel generalizing d w with
  | zero => exact failsBy_pure d
  | succ fuel ih =>
    intro e w' he
    by_cases hempty : w.isEmpty = true
    · rw [sections_of_isEmpty hempty] at he
      cases he
    · rw [sections_of_not_isEmpty hempty] at he
      refine failsBy_bind (failsBy_nextSection d w) (fun d₁ w₁ h => ?_) e w' he
      obtain ⟨_, rest, hrest, rfl, id, size, contents, rfl, hsize, -⟩ :=
        (accepts_nextSection d w d₁ w₁).mp h
      intro e w' he
      refine (ih d₁ _ e w' he).widen (w.partOf_self.behind hrest) fun p bs hp _ => ?_
      change w.rest = framed id size contents ++ rest at hrest
      rw [hrest, addressInSections_framed hsize]
      refine or_iff_right fun hfirst => ?_
      have hbounds := hfirst.2.bounds
      have hle := hp.bounds.1
      simp only [Window.behind_offset, List.length_cons, List.length_append] at hle
      omega

end Decode

/-! ## Errors and the whole binary -/

namespace DecodeError

/-- The offset that an error carries. -/
def offset? : DecodeError → Option Nat
  | sectionOrder _ _ offset | unsupportedValueType _ _ offset | invalidValueType _ offset
  | dataSegmentOffset offset | malformedInteger offset | unexpectedEnd offset
  | functionTypeTag _ offset | tooManyResults _ offset | unknownSection _ offset
  | sectionSize _ offset _ _ | memoryFlags _ offset => some offset
  | _ => none

/-- The byte that stands at its offset, as an error has it. Too many results are reported at the
start of their signature. -/
def byte? : DecodeError → Option UInt8
  | sectionOrder id _ _ | unknownSection id _ | sectionSize id _ _ _ => some id
  | unsupportedValueType _ b _ | invalidValueType b _ | functionTypeTag b _ | memoryFlags b _ =>
    some b
  | tooManyResults _ _ => some 0x60
  | _ => none

/-- An integer at `o` in a binary is malformed for whoever reads it there: it is long enough to be
seen so, and has the kind that the grammar says. -/
structure MalformedAt (bytes : List UInt8) (o : Nat) : Prop where
  inside : o + 5 ≤ bytes.length
  continues : ∀ k < 4, ∃ b, bytes[o + k]? = some b ∧ Leb128.continues b = true
  signed : IsAddress bytes o → Window.signed ((Window.ofBytes bytes).advance o) =
    .error (.malformed o) ((Window.ofBytes bytes).advance o)
  unsigned : ¬ IsAddress bytes o → Window.unsigned ((Window.ofBytes bytes).advance o) =
    .error (.malformed o) ((Window.ofBytes bytes).advance o)

/-- What an error says of its place holds in the whole binary. -/
structure PointsInto (bytes : List UInt8) (e : DecodeError) : Prop where
  /-- The offset is behind the header, and not behind the end. -/
  inside : ∀ o ∈ e.offset?, 8 ≤ o ∧ o ≤ bytes.length
  byte : ∀ o ∈ e.offset?, ∀ b ∈ e.byte?, bytes[o]? = some b
  integer : ∀ o, e = malformedInteger o → MalformedAt bytes o
  size : ∀ id o declared consumed, e = sectionSize id o declared consumed → consumed < declared

variable {bytes rest bs : List UInt8} {o : Nat} {e : DecodeError}

theorem PointsInto.of_offset?_eq_none (h : e.offset? = none) : e.PointsInto bytes where
  inside := by
    rw [h]
    exact nofun
  byte := by
    rw [h]
    exact nofun
  integer := by
    rintro o rfl
    cases h
  size := by
    rintro id o declared consumed rfl
    cases h

theorem Fits.holds {v : Window} {signed : Nat → Prop} (h : e.Fits v signed) :
    ∀ o ∈ e.offset?, v.Holds o e.byte?.toList := by
  intro o ho
  cases e with
  | malformedInteger =>
    obtain ⟨bs, hbs, -⟩ := h
    cases ho
    exact hbs.nil
  | sectionSize =>
    cases ho
    exact h.1
  | sectionOrder | unsupportedValueType | invalidValueType | dataSegmentOffset | unexpectedEnd
  | functionTypeTag | tooManyResults | unknownSection | memoryFlags =>
    cases ho
    exact h
  | _ => cases ho

/-- A place behind the header, seen from the start of the binary. -/
theorem drop_of_holds (h : (⟨0, 8, rest⟩ : Window).Holds o bs) :
    8 ≤ o ∧ o + bs.length ≤ (Module.header ++ rest).length ∧
      ∃ back, (Module.header ++ rest).drop o = bs ++ back := by
  obtain ⟨front, back, hrest, ho⟩ := h
  obtain rfl : rest = front ++ (bs ++ back) := hrest
  obtain rfl : o = (Module.header ++ front).length := by rw [List.length_append, ho]; rfl
  refine ⟨?_, ?_, back, ?_⟩
  · rw [ho]
    exact Nat.le_add_right 8 _
  · simp only [List.length_append]
    omega
  · rw [← List.append_assoc, List.drop_left]

theorem integer_of_overlong {decode : List UInt8 → Except Leb128.Fault (Word × Nat)}
    {back : List UInt8} (h : Leb128.Overlong decode bs) (hdrop : bytes.drop o = bs ++ back) :
    Window.integer decode ((Window.ofBytes bytes).advance o) =
      .error (.malformed o) ((Window.ofBytes bytes).advance o) := by
  have hdecode : decode ((Window.ofBytes bytes).advance o).rest = .error .malformed := by
    change decode (bytes.drop o) = _
    rw [hdrop, h.malformed]
  have hoffset : ((Window.ofBytes bytes).advance o).offset = o := Nat.zero_add o
  simp only [Window.integer, hdecode, hoffset]

theorem MalformedAt.of_overlong {decode : List UInt8 → Except Leb128.Fault (Word × Nat)}
    (h : Leb128.Overlong decode bs) (hplace : (⟨0, 8, rest⟩ : Window).Holds o bs)
    (hs : IsAddress (Module.header ++ rest) o → decode = Leb128.decodeSigned)
    (hu : ¬ IsAddress (Module.header ++ rest) o → decode = Leb128.decodeUnsigned) :
    MalformedAt (Module.header ++ rest) o := by
  obtain ⟨-, hinside, back, hdrop⟩ := drop_of_holds hplace
  have hread := integer_of_overlong h hdrop
  refine ⟨by rwa [h.length] at hinside, ?_, fun haddress => ?_, fun haddress => ?_⟩
  · intro k hk
    have hlt : k < bs.length := by
      rw [h.length]
      omega
    have htake : bs[k] ∈ bs.take 4 := List.mem_take_iff_getElem.mpr ⟨k, by omega, rfl⟩
    refine ⟨bs[k], ?_, h.continues _ htake⟩
    rw [← List.getElem?_drop, hdrop, List.getElem?_append_left hlt, List.getElem?_eq_getElem hlt]
  · rwa [hs haddress] at hread
  · rwa [hu haddress] at hread

theorem isAddress_iff : IsAddress (Module.header ++ rest) o ↔ AddressInSections 8 rest o := by
  constructor
  · rintro ⟨rest', heq, h⟩
    rwa [List.append_cancel_left heq]
  · intro h
    exact ⟨rest, rfl, h⟩

/-- What is true of the sections is true of the binary. -/
theorem Fits.pointsInto (h : e.Fits ⟨0, 8, rest⟩ (AddressInSections 8 rest)) :
    e.PointsInto (Module.header ++ rest) where
  inside := by
    intro o ho
    obtain ⟨hle, hinside, -⟩ := drop_of_holds (h.holds o ho)
    exact ⟨hle, by omega⟩
  byte := by
    intro o ho b hb
    obtain ⟨-, -, back, hdrop⟩ := drop_of_holds (h.holds o ho)
    rw [Option.mem_def.mp hb] at hdrop
    rw [← Nat.add_zero o, ← List.getElem?_drop, hdrop]
    rfl
  integer := by
    rintro o rfl
    obtain ⟨bs, hplace, ⟨haddress, hbad⟩ | ⟨haddress, hbad⟩⟩ := h
    · exact .of_overlong hbad hplace (fun _ => rfl) fun hn => absurd (isAddress_iff.mpr haddress) hn
    · exact .of_overlong hbad hplace (fun hn => absurd (isAddress_iff.mp hn) haddress) fun _ => rfl
  size := by
    rintro id o declared consumed rfl
    exact h.2

end DecodeError

namespace Module

theorem eq_append_or_badHeader (bytes : List UInt8) :
    (∃ rest, bytes = header ++ rest) ∨ decode bytes = .error .badHeader := by
  by_cases hb : bytes.take header.length = header
  · refine .inl ⟨bytes.drop header.length, ?_⟩
    rw [← hb, List.length_take_of_le, List.take_append_drop]
    have hlength := congrArg List.length hb
    rw [List.length_take] at hlength
    omega
  · exact .inr (if_pos hb)

/-- An error that carries an offset points into the whole binary, at the byte that it names, at an
integer that is malformed in its kind, or at a section that is longer than what was read of it. -/
theorem decode_error_pointsInto {bytes : List UInt8} {e : DecodeError}
    (h : decode bytes = .error e) : e.PointsInto bytes := by
  obtain ⟨rest, rfl⟩ | hheader := eq_append_or_badHeader bytes
  · cases hd : Decode.sections rest.length {} ⟨0, 8, rest⟩ with
    | error e' w =>
      rw [decode_of_sections_error hd] at h
      cases h
      exact (Decode.failsBy_sections _ _ _ _ _ hd).pointsInto
    | ok d w =>
      -- the sections are in order, and what is left to check has no place
      obtain ⟨ss, hs, ha⟩ := (Decode.sections_eq_ok_iff (w := ⟨0, 8, rest⟩) le_rfl).mp ⟨w, hd⟩
      rw [decode_of_sections_ok hd] at h
      obtain ⟨m, hm⟩ | ⟨a, b, hm⟩ | ⟨a, b, hm⟩ := Draft.finish_cases ha
      all_goals
        rw [hm] at h
        cases h
      · exact .of_offset?_eq_none rfl
      · exact .of_offset?_eq_none rfl
  · rw [hheader] at h
    cases h
    exact .of_offset?_eq_none rfl

/-- Two data segments. The address of the second one would do for an unsigned integer. -/
def farSegments : List UInt8 :=
  [0x02, 0x00, 0x41, 0x00, 0x0b, 0x00, 0x00, 0x41, 0xff, 0xff, 0xff, 0xff, 0x0f, 0x0b, 0x00]

def farBinary : List UInt8 :=
  header ++ (framed 5 [0x03] [0x01, 0x00, 0x00] ++ framed 11 [0x0f] farSegments)

theorem isAddress_farBinary : IsAddress farBinary 23 := by
  have h0 : number 0 [0x00] 0 := ⟨0, by decide, rfl⟩
  have h3 : number 0 [0x03] [0x01, 0x00, (0x00 : UInt8)].length := ⟨3, by decide, rfl⟩
  have hfirst : segment 16 [0x00, 0x41, 0x00, 0x0b, 0x00] (0, []) :=
    ⟨[0x00], [0x00], [0x00], rfl, h0, ⟨by decide, by decide, by decide⟩, h0⟩
  refine ⟨_, rfl, _, _, [0x0f], farSegments, [], rfl, Sections.single 5 h3 8,
    ⟨15, by decide, rfl⟩, ?_⟩
  refine ⟨[0x02], 2, farSegments.tail, rfl, ⟨2, by decide, rfl⟩, ?_⟩
  exact ⟨_, [_], [0x00], _, rfl, .cons hfirst .nil, by decide, h0, by decide, rfl⟩

theorem decode_farBinary :
    decode farBinary = .error (.malformedInteger 23) ∧ IsAddress farBinary 23 ∧
      (DecodeError.malformedInteger 23).PointsInto farBinary := by
  have hdecode : decode farBinary = .error (.malformedInteger 23) := by decide +kernel
  exact ⟨hdecode, isAddress_farBinary, decode_error_pointsInto hdecode⟩

end Module

end WasmI32
