import WasmI32.Proofs.Lookahead
import WasmI32.Proofs.Module.Truncation

/-!
# Where readers fail

What an error says of its place is true of the bytes that were read: the byte it names stands at its
offset, an integer that it calls malformed is malformed for any decoder that looks there, and its
offset lies in the window. All readers are taken together here but those of the data section, where
integers are not all of one kind. A reader is told by what holds of its error, if it fails; nothing
is said of when it does.
-/

namespace WasmI32

/-! ## Malformed integers -/

namespace Leb128

variable {limit : Nat} {bytes bs : List UInt8}

theorem digits_of_continues (h : ∀ b ∈ bs, continues b = true) (more : List UInt8) :
    digits bs.length (bs ++ more) = .error .malformed := by
  induction bs with
  | nil => rfl
  | cons b bs ih =>
    obtain ⟨hb, hbs⟩ := List.forall_mem_cons.mp h
    rw [List.length_cons, List.cons_append, digits, if_pos hb, ih hbs]

theorem exists_of_digits_malformed (h : digits limit bytes = .error .malformed) :
    ∃ bs back, bytes = bs ++ back ∧ bs.length = limit ∧ ∀ b ∈ bs, continues b = true := by
  induction limit generalizing bytes with
  | zero => exact ⟨[], bytes, rfl, rfl, nofun⟩
  | succ limit ih =>
    cases bytes with
    | nil => cases h
    | cons b bytes =>
      rw [digits] at h
      split at h
      · rename_i hb
        cases hd : digits limit bytes with
        | ok ds => simp [hd] at h
        | error fault =>
          simp only [hd, Except.error.injEq] at h
          obtain ⟨bs, back, rfl, rfl, hbs⟩ := ih (h ▸ hd)
          exact ⟨b :: bs, back, rfl, rfl, List.forall_mem_cons.mpr ⟨hb, hbs⟩⟩
      · cases h

theorem Numeral.continues_of_mem_dropLast (h : Numeral bs) :
    ∀ b ∈ bs.dropLast, continues b = true := by
  induction bs with
  | nil => exact h.elim
  | cons b bs ih =>
    cases bs with
    | nil => exact nofun
    | cons c bs => exact List.forall_mem_cons.mpr ⟨h.1, ih h.2⟩

/-- Five bytes that a decoder takes for no integer, whatever follows them. -/
structure Overlong (decode : List UInt8 → Except Fault (Word × Nat)) (bs : List UInt8) : Prop where
  length : bs.length = 5
  continues : ∀ b ∈ bs.take 4, continues b = true
  malformed : ∀ more, decode (bs ++ more) = .error .malformed

/-- Bytes that a decoder finds malformed start with five that are. -/
theorem Judges.exists_overlong {fits : UInt8 → Bool} {word : List UInt8 → Word}
    {decode : List UInt8 → Except Fault (Word × Nat)} (hdecode : Judges fits word decode)
    (h : decode bytes = .error .malformed) :
    ∃ bs back, bytes = bs ++ back ∧ Overlong decode bs := by
  rw [hdecode] at h
  cases hd : digits maxLength bytes with
  | error fault =>
    simp only [hd, Except.error.injEq] at h
    obtain ⟨bs, back, rfl, hlength, hbs⟩ := exists_of_digits_malformed (h ▸ hd)
    refine ⟨bs, back, rfl, hlength, fun b hb => hbs b (List.mem_of_mem_take hb), fun more => ?_⟩
    rw [hdecode, ← hlength, digits_of_continues hbs]
  | ok bs =>
    obtain ⟨hn, hshort, back, rfl⟩ := digits_sound hd
    simp only [hd] at h
    split at h
    · cases h
    · rename_i hfits
      have hlength : bs.length = 5 := by
        have hle : bs.length ≤ 5 := hshort
        by_contra hne
        rw [List.getElem?_eq_none (by omega)] at hfits
        exact hfits rfl
      refine ⟨bs, back, rfl, hlength, ?_, fun more => ?_⟩
      · have hcontinues := hn.continues_of_mem_dropLast
        rwa [List.dropLast_eq_take, hlength] at hcontinues
      · rw [hdecode, digits_append hn more _ hshort]
        exact if_neg hfits

end Leb128

/-! ## Places in windows -/

namespace Window

variable {u v w : Window} {o : Nat} {as bs : List UInt8}

/-- The bytes `bs` stand at `o` in the window. -/
def Holds (w : Window) (o : Nat) (bs : List UInt8) : Prop :=
  ∃ front back, w.rest = front ++ (bs ++ back) ∧ o = w.offset + front.length

/-- The window shows bytes of `v` at their place. -/
def PartOf (w v : Window) : Prop := v.Holds w.offset w.rest

theorem partOf_self (w : Window) : w.PartOf w := ⟨[], [], (List.append_nil _).symm, rfl⟩

theorem Holds.nil (h : w.Holds o bs) : w.Holds o [] := by
  obtain ⟨front, back, hw, ho⟩ := h
  exact ⟨front, bs ++ back, hw, ho⟩

theorem Holds.left (h : w.Holds o (as ++ bs)) : w.Holds o as := by
  obtain ⟨front, back, hw, ho⟩ := h
  exact ⟨front, bs ++ back, by rw [hw, List.append_assoc], ho⟩

theorem Holds.right (h : w.Holds o (as ++ bs)) : w.Holds (o + as.length) bs := by
  obtain ⟨front, back, hw, rfl⟩ := h
  refine ⟨front ++ as, back, by rw [hw, List.append_assoc, List.append_assoc], ?_⟩
  rw [List.length_append, Nat.add_assoc]

theorem Holds.trans (h : w.Holds o bs) (hw : w.PartOf v) : v.Holds o bs := by
  obtain ⟨front, back, hrest, rfl⟩ := h
  unfold PartOf at hw
  rw [hrest] at hw
  exact hw.right.left

theorem Holds.bounds (h : w.Holds o bs) : w.offset ≤ o ∧ o + bs.length ≤ w.stop := by
  obtain ⟨front, back, hw, rfl⟩ := h
  rw [stop, hw, List.length_append, List.length_append]
  omega

theorem PartOf.holds_stop (h : w.PartOf v) : v.Holds w.stop [] := by
  have hsplit : v.Holds w.offset (w.rest ++ []) := by rwa [List.append_nil]
  exact hsplit.right

theorem PartOf.behind (h : w.PartOf v) {rest : List UInt8} (hw : w.rest = bs ++ rest) :
    (w.behind bs.length rest).PartOf v := by
  unfold PartOf at h
  rw [hw] at h
  exact h.right

end Window

/-! ## What errors say of places -/

namespace DecodeError

open Leb128 (Overlong decodeSigned decodeUnsigned)

/-- What an error says of its place holds in the window. Integers are signed at the places of
`signed` and unsigned elsewhere. -/
def Fits (v : Window) (signed : Nat → Prop) : DecodeError → Prop
  | sectionOrder id _ o => v.Holds o [id]
  | unsupportedValueType _ b o => v.Holds o [b]
  | invalidValueType b o => v.Holds o [b]
  | dataSegmentOffset o => v.Holds o []
  | malformedInteger o => ∃ bs, v.Holds o bs ∧
    (signed o ∧ Overlong decodeSigned bs ∨ ¬ signed o ∧ Overlong decodeUnsigned bs)
  | unexpectedEnd o => v.Holds o []
  | functionTypeTag tag o => v.Holds o [tag]
  | tooManyResults _ o => v.Holds o [FunctionType.tag]
  | unknownSection id o => v.Holds o [id]
  | sectionSize id o declared consumed => v.Holds o [id] ∧ consumed < declared
  | memoryFlags flags o => v.Holds o [flags]
  | _ => True

/-- What is true in a part of a window is true in the window, if both agree on the places of signed
integers in that part. -/
theorem Fits.widen {v w : Window} {signed signed' : Nat → Prop} {e : DecodeError}
    (h : e.Fits w signed) (hw : w.PartOf v)
    (hs : ∀ o bs, w.Holds o bs → bs.length = 5 → (signed' o ↔ signed o)) : e.Fits v signed' := by
  cases e with
  | malformedInteger o =>
    obtain ⟨bs, hbs, hkind⟩ := h
    have hlength : bs.length = 5 := hkind.elim (fun h => h.2.length) fun h => h.2.length
    rw [← hs o bs hbs hlength] at hkind
    exact ⟨bs, hbs.trans hw, hkind⟩
  | sectionSize id o declared consumed => exact ⟨h.1.trans hw, h.2⟩
  | sectionOrder | unsupportedValueType | invalidValueType | dataSegmentOffset | unexpectedEnd
  | functionTypeTag | tooManyResults | unknownSection | memoryFlags => exact Window.Holds.trans h hw
  | _ => trivial

end DecodeError

/-! ## The errors of readers -/

namespace Read

variable {ε α β : Type} {P : ε → Prop} {w : Window}

/-- If the reader fails on the window, its error is one of `P`. -/
def FailsBy (P : ε → Prop) (x : Read ε α) (w : Window) : Prop := ∀ e w', x w = .error e w' → P e

theorem failsBy_of_ok {x : Read ε α} {a : α} {w' : Window} (h : x w = .ok a w') :
    FailsBy P x w := by
  intro e w₁ he
  rw [h] at he
  cases he

theorem failsBy_pure (a : α) : FailsBy P (pure a : Read ε α) w := failsBy_of_ok rfl

theorem failsBy_throw {e : ε} (h : P e) : FailsBy P (throw e : Read ε α) w := by
  intro e' w' he
  cases he
  exact h

theorem failsBy_bind {x : Read ε α} {f : α → Read ε β} (hx : FailsBy P x w)
    (hf : ∀ a w₁, x w = .ok a w₁ → FailsBy P (f a) w₁) : FailsBy P (x >>= f) w := by
  intro e w' he
  cases hr : x w with
  | error e₁ w₁ =>
    rw [bind_of_error hr] at he
    cases he
    exact hx _ _ hr
  | ok a w₁ =>
    rw [bind_of_ok hr] at he
    exact hf a w₁ hr e w' he

theorem failsBy_here {f : Nat → Read ε β} (hf : FailsBy P (f w.offset) w) :
    FailsBy P (Window.here >>= f) w :=
  hf

theorem failsBy_unless {c : Prop} [Decidable c] {e : ε} {f : β → Read ε α} {x : Read ε α}
    (he : c → P e) (hx : ¬ c → FailsBy P x w) : FailsBy P (if c then throw e >>= f else x) w := by
  split
  · rename_i hc
    exact failsBy_bind (failsBy_throw (he hc)) nofun
  · rename_i hc
    exact hx hc

/-- A reader that reads over bytes at the front of the window, if it succeeds. -/
def Consumes (x : Read ε α) : Prop :=
  ∀ w a w', x w = .ok a w' → ∃ bs rest, w.rest = bs ++ rest ∧ w' = w.behind bs.length rest

theorem Accepts.consumes {x : Read ε α} {G : Grammar α} (h : x.Accepts G) : x.Consumes := by
  intro w a w' hr
  obtain ⟨bs, rest, hw, hw', -⟩ := (h w a w').mp hr
  exact ⟨bs, rest, hw, hw'⟩

theorem Consumes.partOf {x : Read ε α} (hx : x.Consumes) {v w' : Window} {a : α} (hw : w.PartOf v)
    (h : x w = .ok a w') : w'.PartOf v := by
  obtain ⟨bs, rest, hrest, rfl⟩ := hx w a w' h
  exact hw.behind hrest

theorem failsBy_times {item : Read ε α} (hc : item.Consumes) {v : Window}
    (hitem : ∀ w, w.PartOf v → FailsBy P item w) (n : Nat) (hw : w.PartOf v) :
    FailsBy P (item.times n) w := by
  have hgo (n : Nat) : ∀ (answers : Array α) (w : Window), w.PartOf v →
      FailsBy P (times.go item n answers) w := by
    induction n with
    | zero => exact fun answers w _ => failsBy_pure answers
    | succ n ih =>
      intro answers w hw
      exact failsBy_bind (hitem w hw) fun a w₁ h => ih _ w₁ (hc.partOf hw h)
  exact hgo n #[] w hw

/-- The error of a reader is taken over. -/
theorem failsBy_lift {P : DecodeError → Prop} {x : Read ReadError α}
    (h : FailsBy (fun e => P (.ofRead e)) x w) : FailsBy P (x : Read DecodeError α) w := by
  intro e w' he
  cases hr : x w with
  | ok a w₁ =>
    have hlift := adaptExcept_of_ok hr DecodeError.ofRead
    cases hlift.symm.trans he
  | error e₁ w₁ =>
    have hlift := adaptExcept_of_error hr DecodeError.ofRead
    cases hlift.symm.trans he
    exact h _ _ hr

theorem consumes_pure (a : α) : Consumes (pure a : Read ε α) := (accepts_pure a).consumes

theorem consumes_bind {x : Read ε α} {f : α → Read ε β} (hx : x.Consumes)
    (hf : ∀ a, (f a).Consumes) : Consumes (x >>= f) := by
  intro w b w' h
  obtain ⟨a, w₁, hr, h⟩ := bind_eq_ok_iff.mp h
  obtain ⟨bs, rest, hw, rfl⟩ := hx w a w₁ hr
  obtain ⟨cs, tail, hrest, rfl⟩ := hf a _ b w' h
  refine ⟨bs ++ cs, tail, ?_, ?_⟩
  · rw [hw, List.append_assoc]
    exact congrArg (bs ++ ·) hrest
  · rw [Window.behind_behind, List.length_append]

theorem consumes_takeRest : Consumes (Window.takeRest : Read ε (List UInt8)) := by
  intro w a w' h
  cases h
  exact ⟨w.rest, [], (List.append_nil _).symm, rfl⟩

theorem consumes_lift {x : Read ReadError α} {G : Grammar α} (h : x.Accepts G) :
    Consumes (x : Read DecodeError α) :=
  (accepts_adaptExcept h DecodeError.ofRead).consumes

end Read

namespace Decode

open Read Format

variable {v w w' : Window} {signed : Nat → Prop}

/-! ## Bytes and integers -/

theorem failsBy_byte (hw : w.PartOf v) :
    FailsBy (DecodeError.Fits v signed) (Window.byte : Read DecodeError UInt8) w := by
  refine failsBy_lift ?_
  intro e w' h
  unfold Window.byte at h
  split at h
  · rename_i hnil
    cases h
    have hstop : w.stop = w.offset := by rw [Window.stop, hnil, List.length_nil, Nat.add_zero]
    exact hstop ▸ hw.holds_stop
  · cases h

theorem holds_of_byte (hw : w.PartOf v) {b : UInt8}
    (h : (Window.byte : Read DecodeError UInt8) w = .ok b w') :
    v.Holds w.offset [b] ∧ w'.PartOf v := by
  obtain ⟨bs, rest, hrest, rfl, rfl⟩ := (accepts_adaptExcept accepts_byte _ w b w').mp h
  refine ⟨?_, hw.behind hrest⟩
  unfold Window.PartOf at hw
  rw [hrest] at hw
  exact hw.left

/-- An integer that cannot be read is cut off, or overlong. -/
theorem failsBy_integer {decode : List UInt8 → Except Leb128.Fault (Word × Nat)}
    {fits : UInt8 → Bool} {word : List UInt8 → Word} (hdecode : Leb128.Judges fits word decode)
    (hw : w.PartOf v)
    (hkind : ∀ bs back, w.rest = bs ++ back → Leb128.Overlong decode bs →
      signed w.offset ∧ Leb128.Overlong Leb128.decodeSigned bs ∨
        ¬ signed w.offset ∧ Leb128.Overlong Leb128.decodeUnsigned bs) :
    FailsBy (fun e => (DecodeError.ofRead e).Fits v signed) (Window.integer decode) w := by
  intro e w' h
  unfold Window.integer at h
  split at h
  · cases h
  · cases h
    exact hw.holds_stop
  · rename_i hmalformed
    cases h
    obtain ⟨bs, back, hrest, hbad⟩ := hdecode.exists_overlong hmalformed
    have hkind := hkind bs back hrest hbad
    unfold Window.PartOf at hw
    rw [hrest] at hw
    exact ⟨bs, hw.left, hkind⟩

theorem failsBy_unsigned (hw : w.PartOf v)
    (hs : (∀ n w', Window.unsigned w ≠ .ok n w') → ¬ signed w.offset) :
    FailsBy (fun e => (DecodeError.ofRead e).Fits v signed) Window.unsigned w := by
  refine failsBy_integer Leb128.judges_unsigned hw ?_
  intro bs back hrest hbad
  refine .inr ⟨hs ?_, hbad⟩
  intro n w' h
  rw [Window.unsigned, Window.integer, hrest, hbad.malformed] at h
  cases h

theorem failsBy_signed (hw : w.PartOf v) (hs : w.rest ≠ [] → signed w.offset) :
    FailsBy (fun e => (DecodeError.ofRead e).Fits v signed) Window.signed w := by
  refine failsBy_integer Leb128.judges_signed hw ?_
  intro bs back hrest hbad
  refine .inl ⟨hs ?_, hbad⟩
  intro hnil
  have hlength := congrArg List.length (hrest.symm.trans hnil)
  rw [List.length_append, hbad.length, List.length_nil] at hlength
  omega

theorem failsBy_bytes (n : Nat) (hw : w.PartOf v) :
    FailsBy (fun e => (DecodeError.ofRead e).Fits v signed) (Window.bytes n) w := by
  intro e w' h
  simp only [Window.bytes] at h
  split at h
  · cases h
    exact hw.holds_stop
  · cases h

theorem failsBy_split (n : Nat) (hw : w.PartOf v) :
    FailsBy (fun e => (DecodeError.ofRead e).Fits v signed) (Window.split n) w :=
  failsBy_here (failsBy_bind (failsBy_bytes n hw) fun _ _ _ => failsBy_pure _)

/-! ## Sections without signed integers -/

/-- There is no signed integer anywhere. -/
def nowhere (_ : Nat) : Prop := False

theorem failsBy_number (hw : w.PartOf v) :
    FailsBy (DecodeError.Fits v nowhere) (Window.unsigned : Read DecodeError Word) w :=
  failsBy_lift (failsBy_unsigned hw fun _ => id)

theorem partOf_of_number (hw : w.PartOf v) {n : Word}
    (h : (Window.unsigned : Read DecodeError Word) w = .ok n w') : w'.PartOf v :=
  (consumes_lift accepts_unsigned).partOf hw h

theorem failsBy_checkLimit (what : Counted) (count limit : Nat) :
    FailsBy (DecodeError.Fits v signed) (checkLimit what count limit) w := by
  unfold checkLimit
  split
  · exact failsBy_throw trivial
  · exact failsBy_pure _

theorem failsBy_limited (what : Counted) (limit : Nat) (hw : w.PartOf v)
    (hs : (∀ n w', Window.unsigned w ≠ .ok n w') → ¬ signed w.offset) :
    FailsBy (DecodeError.Fits v signed) (count what limit) w :=
  failsBy_bind (failsBy_lift (failsBy_unsigned hw hs)) fun _ _ _ =>
    failsBy_bind (failsBy_checkLimit _ _ _) fun _ _ _ => failsBy_pure _

theorem failsBy_count (what : Counted) (limit : Nat) (hw : w.PartOf v) :
    FailsBy (DecodeError.Fits v nowhere) (count what limit) w :=
  failsBy_limited what limit hw fun _ => id

theorem partOf_of_count {what : Counted} {limit n : Nat} (hw : w.PartOf v)
    (h : count what limit w = .ok n w') : w'.PartOf v :=
  (accepts_count what limit).consumes.partOf hw h

theorem failsBy_valueType (hw : w.PartOf v) :
    FailsBy (DecodeError.Fits v signed) valueType w := by
  refine failsBy_here (failsBy_bind (failsBy_byte hw) fun b w₁ h => ?_)
  have hb := (holds_of_byte hw h).1
  cases ValueType.ofByte b with
  | i32 => exact failsBy_pure _
  | unsupported name => exact failsBy_throw hb
  | invalid => exact failsBy_throw hb

theorem failsBy_valueTypes (n : Nat) (hw : w.PartOf v) :
    FailsBy (DecodeError.Fits v signed) (valueType.times n) w :=
  failsBy_times accepts_valueType.consumes (fun _ => failsBy_valueType) n hw

theorem failsBy_functionType (hw : w.PartOf v) :
    FailsBy (DecodeError.Fits v nowhere) functionType w := by
  refine failsBy_here (failsBy_bind (failsBy_byte hw) fun tag w₁ h => ?_)
  obtain ⟨htag, hw₁⟩ := holds_of_byte hw h
  refine failsBy_unless (fun _ => htag) fun hne => ?_
  rw [not_not.mp hne] at htag
  refine failsBy_bind (failsBy_count _ _ hw₁) fun parameters w₂ h => ?_
  have hw₂ := partOf_of_count hw₁ h
  refine failsBy_bind (failsBy_valueTypes _ hw₂) fun _ w₃ h => ?_
  have hw₃ := (accepts_valueTypes parameters).consumes.partOf hw₂ h
  refine failsBy_bind (failsBy_number hw₃) fun results w₄ h => ?_
  refine failsBy_unless (fun _ => htag) fun _ => ?_
  have hw₄ := partOf_of_number hw₃ h
  exact failsBy_bind (failsBy_valueTypes _ hw₄) fun _ _ _ => failsBy_pure _

theorem failsBy_typeSection (hw : w.PartOf v) :
    FailsBy (DecodeError.Fits v nowhere) typeSection w :=
  failsBy_bind (failsBy_count _ _ hw) fun n _ h =>
    failsBy_times accepts_functionType.consumes (fun _ => failsBy_functionType) n
      (partOf_of_count hw h)

theorem failsBy_typeIndex (types : Nat) (hw : w.PartOf v) :
    FailsBy (DecodeError.Fits v nowhere) (typeIndex types) w :=
  failsBy_bind (failsBy_number hw) fun _ _ _ =>
    failsBy_unless (fun _ => trivial) fun _ => failsBy_pure _

theorem failsBy_functionSection (types : Nat) (hw : w.PartOf v) :
    FailsBy (DecodeError.Fits v nowhere) (functionSection types) w :=
  failsBy_bind (failsBy_count _ _ hw) fun n _ h =>
    failsBy_times (accepts_typeIndex types).consumes (fun _ => failsBy_typeIndex types) n
      (partOf_of_count hw h)

theorem failsBy_memoryMaximum {flags : UInt8} {offset : Nat} (hflags : v.Holds offset [flags])
    (hw : w.PartOf v) :
    FailsBy (DecodeError.Fits v nowhere) (memoryMaximum flags offset) w := by
  unfold memoryMaximum
  split
  · exact failsBy_pure _
  · split
    · exact failsBy_bind (failsBy_number hw) fun _ _ _ => failsBy_pure _
    · exact failsBy_throw hflags

theorem failsBy_memorySection (hw : w.PartOf v) :
    FailsBy (DecodeError.Fits v nowhere) memorySection w := by
  refine failsBy_bind (failsBy_number hw) fun n w₁ h => ?_
  have hw₁ := partOf_of_number hw h
  refine failsBy_unless (fun _ => trivial) fun _ => ?_
  split
  · exact failsBy_pure _
  · refine failsBy_here (failsBy_bind (failsBy_byte hw₁) fun flags w₂ h => ?_)
    obtain ⟨hflags, hw₂⟩ := holds_of_byte hw₁ h
    refine failsBy_bind (failsBy_number hw₂) fun initial w₃ h => ?_
    have hw₃ := partOf_of_number hw₂ h
    refine failsBy_bind (failsBy_memoryMaximum hflags hw₃) fun maximum w₄ _ => ?_
    cases Memory.create initial.toNat maximum with
    | ok memory => exact failsBy_pure _
    | error cause => exact failsBy_throw trivial

theorem failsBy_startSection (hw : w.PartOf v) :
    FailsBy (DecodeError.Fits v nowhere) startSection w :=
  failsBy_bind (failsBy_number hw) fun _ _ _ => failsBy_pure _

theorem failsBy_locals (groups total : Nat) (hw : w.PartOf v) :
    FailsBy (DecodeError.Fits v nowhere) (locals groups total) w := by
  induction groups generalizing total w with
  | zero => exact failsBy_pure _
  | succ groups ih =>
    refine failsBy_bind (failsBy_number hw) fun n w₁ h => ?_
    have hw₁ := partOf_of_number hw h
    refine failsBy_bind (failsBy_valueType hw₁) fun _ w₂ h => ?_
    have hw₂ := accepts_valueType.consumes.partOf hw₁ h
    refine failsBy_bind (failsBy_checkLimit _ _ _) fun _ w₃ h => ?_
    exact ih _ ((accepts_checkLimit _ _ _).consumes.partOf hw₂ h)

theorem failsBy_bodyContents (hw : w.PartOf v) :
    FailsBy (DecodeError.Fits v nowhere) bodyContents w :=
  failsBy_bind (failsBy_number hw) fun _ _ h =>
    failsBy_bind (failsBy_locals _ 0 (partOf_of_number hw h)) fun _ _ _ => failsBy_of_ok rfl

/-- A window that is split off is a part of the one it comes from. -/
theorem partOf_of_split {n : Nat} {window : Window} (hw : w.PartOf v)
    (h : (Window.split n : Read DecodeError Window) w = .ok window w') :
    window.PartOf v ∧ window.start = window.offset := by
  obtain ⟨bs, rest, hrest, rfl, -, rfl⟩ :=
    (accepts_adaptExcept (accepts_split n) _ w window w').mp h
  unfold Window.PartOf at hw
  rw [hrest] at hw
  exact ⟨hw.left, rfl⟩

theorem failsBy_body (hw : w.PartOf v) : FailsBy (DecodeError.Fits v nowhere) body w := by
  refine failsBy_bind (failsBy_count _ _ hw) fun size w₁ h => ?_
  have hw₁ := partOf_of_count hw h
  refine failsBy_bind (failsBy_lift (failsBy_split size hw₁)) fun window w₂ h => ?_
  unfold within
  cases hr : bodyContents window with
  | ok b w₃ => exact failsBy_pure b
  | error e w₃ =>
    exact failsBy_throw (failsBy_bodyContents (partOf_of_split hw₁ h).1 e w₃ hr)

theorem failsBy_codeSection (hw : w.PartOf v) :
    FailsBy (DecodeError.Fits v nowhere) codeSection w :=
  failsBy_bind (failsBy_count _ _ hw) fun n _ h =>
    failsBy_times accepts_body.consumes (fun _ => failsBy_body) n (partOf_of_count hw h)

/-- Only the data section holds signed integers. -/
theorem failsBy_contents_of_ne {id : UInt8} {d : Draft} (hid : id ≠ Section.data)
    (hw : w.PartOf v) : FailsBy (DecodeError.Fits v nowhere) (contents id d) w := by
  unfold contents
  split
  · exact failsBy_bind (failsBy_typeSection hw) fun _ _ _ => failsBy_pure _
  split
  · exact failsBy_bind (failsBy_functionSection _ hw) fun _ _ _ => failsBy_pure _
  split
  · refine failsBy_bind (failsBy_memorySection hw) fun memory _ _ => ?_
    cases memory with
    | some memory => exact failsBy_pure _
    | none => exact failsBy_pure _
  split
  · exact failsBy_bind (failsBy_startSection hw) fun _ _ _ => failsBy_pure _
  split
  · exact failsBy_bind (failsBy_codeSection hw) fun _ _ _ => failsBy_pure _
  · exact failsBy_bind (failsBy_of_ok rfl) fun _ _ _ => failsBy_pure _

end Decode

end WasmI32
