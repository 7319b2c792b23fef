import WasmI32.Proofs.Scan

/-!
# How far readers look

A reader that does not run into the end of the bytes looks at so many of them and no further: what
it answers, be it a value or an error, stays the same whatever follows. So an instruction may be
read through a window that is cut to the longest form of its opcode, and the error found there is
that of the whole code. A scan therefore stops exactly where the machine would.
-/

namespace WasmI32

/-! ## Integers -/

namespace Leb128

variable {limit : Nat} {bytes : List UInt8}

theorem length_lt_of_digits_truncated (h : digits limit bytes = .error .truncated) :
    bytes.length < limit := by
  induction limit generalizing bytes with
  | zero => cases h
  | succ limit ih =>
    cases bytes with
    | nil => exact Nat.succ_pos limit
    | cons b bytes =>
      rw [digits] at h
      split at h
      · cases hd : digits limit bytes with
        | ok bs => simp [hd] at h
        | error fault =>
          simp only [hd, Except.error.injEq] at h
          exact Nat.succ_lt_succ (ih (h ▸ hd))
      · cases h

/-- Digits that do not run into the end of the bytes are not changed by what follows. -/
theorem digits_append_of_ne (h : digits limit bytes ≠ .error .truncated) (more : List UInt8) :
    digits limit (bytes ++ more) = digits limit bytes := by
  induction limit generalizing bytes with
  | zero => rfl
  | succ limit ih =>
    cases bytes with
    | nil => exact absurd rfl h
    | cons b bytes =>
      rw [List.cons_append, digits, digits]
      by_cases hb : continues b = true
      · have hne : digits limit bytes ≠ .error .truncated := by
          intro hd
          rw [digits, if_pos hb, hd] at h
          exact h rfl
        rw [ih hne]
      · rw [if_neg hb, if_neg hb]

end Leb128

/-! ## Readers -/

namespace Read

variable {ε ε' α β : Type} {ended : Nat → ε} {m n o : Nat} {bs : List UInt8}

/-- What a reader finds in the bytes `bs` at `o`, if it needs `n` of them at most. -/
inductive Settles (ended : Nat → ε) (n : Nat) (x : Read ε α) (o : Nat) (bs : List UInt8) : Prop
  /-- It reads over the first of them, whatever follows. -/
  | ok {a : α} (front back : List UInt8) (hbs : bs = front ++ back) (hn : front.length ≤ n)
    (h : ∀ start more, x ⟨start, o, front ++ more⟩ = .ok a ⟨start, o + front.length, more⟩)
  /-- It fails, whatever follows. -/
  | error {e : ε} (h : ∀ start more, ∃ w, x ⟨start, o, bs ++ more⟩ = .error e w)
  /-- They end too soon. -/
  | ended (hn : bs.length < n)
    (h : ∀ start, ∃ w, x ⟨start, o, bs⟩ = .error (ended (o + bs.length)) w)

theorem settles_pure (a : α) (o : Nat) (bs : List UInt8) :
    Settles ended 0 (pure a : Read ε α) o bs :=
  .ok [] bs rfl (Nat.le_refl 0) fun _ _ => rfl

theorem settles_here (o : Nat) (bs : List UInt8) :
    Settles ended 0 (Window.here : Read ε Nat) o bs :=
  .ok [] bs rfl (Nat.le_refl 0) fun _ _ => rfl

theorem settles_throw (e : ε) (n o : Nat) (bs : List UInt8) :
    Settles ended n (throw e : Read ε α) o bs :=
  .error fun _ _ => ⟨_, rfl⟩

theorem settles_bind {x : Read ε α} {f : α → Read ε β} (hx : Settles ended m x o bs)
    (hf : ∀ a o bs, Settles ended n (f a) o bs) : Settles ended (m + n) (x >>= f) o bs := by
  cases hx with
  | @error e h =>
    refine .error (e := e) fun start more => ?_
    obtain ⟨w, hw⟩ := h start more
    exact ⟨w, bind_of_error hw⟩
  | ended hn h =>
    refine .ended (by omega) fun start => ?_
    obtain ⟨w, hw⟩ := h start
    exact ⟨w, bind_of_error hw⟩
  | @ok a front back hbs hm hx =>
    subst hbs
    cases hf a (o + front.length) back with
    | @ok b front' back' hback hn h =>
      subst hback
      have hlength : (front ++ front').length ≤ m + n := by
        rw [List.length_append]
        omega
      refine .ok (a := b) _ back' (List.append_assoc ..).symm hlength fun start more => ?_
      rw [List.append_assoc, bind_of_ok (hx start _), h, List.length_append, Nat.add_assoc]
    | @error e h =>
      refine .error (e := e) fun start more => ?_
      rw [List.append_assoc, bind_of_ok (hx start _)]
      exact h start more
    | ended hn h =>
      refine .ended (by rw [List.length_append]; omega) fun start => ?_
      rw [bind_of_ok (hx start _), List.length_append, ← Nat.add_assoc]
      exact h start

theorem settles_adaptExcept {x : Read ε α} (hx : Settles ended n x o bs) (f : ε → ε') :
    Settles (fun o => f (ended o)) n (EStateM.adaptExcept f x) o bs := by
  cases hx with
  | @ok a front back hbs hn h =>
    refine .ok (a := a) front back hbs hn fun start more => ?_
    exact adaptExcept_of_ok (h start more) f
  | @error e h =>
    refine .error (e := f e) fun start more => ?_
    obtain ⟨w, hw⟩ := h start more
    exact ⟨w, adaptExcept_of_error hw f⟩
  | ended hn h =>
    refine .ended hn fun start => ?_
    obtain ⟨w, hw⟩ := h start
    exact ⟨w, adaptExcept_of_error hw f⟩

theorem settles_byte (o : Nat) (bs : List UInt8) :
    Settles ReadError.truncated 1 Window.byte o bs := by
  cases bs with
  | nil => exact .ended Nat.one_pos fun start => ⟨_, rfl⟩
  | cons b bs => exact .ok [b] bs rfl (Nat.le_refl 1) fun start more => rfl

theorem settles_integer {decode : List UInt8 → Except Leb128.Fault (Word × Nat)}
    {Encodes : List UInt8 → Word → Prop} {fits : UInt8 → Bool} {word : List UInt8 → Word}
    (hok : ∀ {bytes v n}, decode bytes = .ok (v, n) ↔
      ∃ bs rest, bytes = bs ++ rest ∧ n = bs.length ∧ Encodes bs v)
    (hshort : ∀ {bs v}, Encodes bs v → bs.length ≤ Leb128.maxLength)
    (hdecode : Leb128.Judges fits word decode) (o : Nat) (bs : List UInt8) :
    Settles ReadError.truncated Leb128.maxLength (Window.integer decode) o bs := by
  cases hd : decode bs with
  | ok found =>
    obtain ⟨v, n⟩ := found
    obtain ⟨front, back, hbs, -, he⟩ := hok.mp hd
    exact .ok front back hbs (hshort he) fun start more => (accepts_integer hok).run rfl he
  | error fault =>
    cases fault with
    | truncated =>
      have hdigits := hdecode.eq_truncated_iff.mp hd
      refine .ended (Leb128.length_lt_of_digits_truncated hdigits) fun start => ?_
      simp only [Window.integer, hd, Window.stop]
      exact ⟨_, rfl⟩
    | malformed =>
      have hne : Leb128.digits Leb128.maxLength bs ≠ .error .truncated := by
        intro hds
        rw [hdecode.eq_truncated_iff.mpr hds] at hd
        cases hd
      refine .error (e := .malformed o) fun start more => ?_
      have hmore : decode (bs ++ more) = .error .malformed := by
        rw [hdecode, Leb128.digits_append_of_ne hne, ← hdecode, hd]
      simp only [Window.integer, hmore]
      exact ⟨_, rfl⟩

theorem settles_unsigned (o : Nat) (bs : List UInt8) :
    Settles ReadError.truncated Leb128.maxLength Window.unsigned o bs :=
  settles_integer Leb128.decodeUnsigned_eq_ok_iff (fun h => h.short) Leb128.judges_unsigned o bs

theorem settles_signed (o : Nat) (bs : List UInt8) :
    Settles ReadError.truncated Leb128.maxLength Window.signed o bs :=
  settles_integer Leb128.decodeSigned_eq_ok_iff (fun h => h.short) Leb128.judges_signed o bs

end Read

/-! ## Instructions -/

namespace Instruction

open Read (Settles settles_pure settles_here settles_throw settles_bind settles_adaptExcept
  settles_byte settles_unsigned settles_signed)

variable {code : Array UInt8} {ip : Nat}

theorem settles_lift {α : Type} {x : Read ReadError α} {n o : Nat} {bs : List UInt8}
    (h : Settles ReadError.truncated n x o bs) :
    Settles InstructionError.unexpectedEnd n (x : Read InstructionError α) o bs :=
  settles_adaptExcept h InstructionError.ofRead

theorem settles_form (form : Form) (o : Nat) (bs : List UInt8) :
    Settles InstructionError.unexpectedEnd form.maxLength form.read o bs := by
  cases form with
  | plain i => exact settles_pure i o bs
  | construct kind =>
    refine settles_bind (m := 0) (n := 1) (settles_here o bs) fun offset o bs => ?_
    refine settles_bind (m := 1) (n := 0) (settles_lift (settles_byte o bs)) fun b o bs => ?_
    split
    · exact settles_pure _ o bs
    · exact settles_throw _ 0 o bs
  | indexed build =>
    refine settles_bind (n := 0) (settles_lift (settles_unsigned o bs)) fun n => ?_
    exact settles_pure (build n)
  | access build =>
    refine settles_bind (m := 5) (n := 5) (settles_lift (settles_unsigned o bs)) ?_
    intro align o bs
    refine settles_bind (n := 0) (settles_lift (settles_unsigned o bs)) fun offset => ?_
    exact settles_pure (build ⟨align, offset⟩)
  | constant =>
    refine settles_bind (n := 0) (settles_lift (settles_signed o bs)) fun v => ?_
    exact settles_pure (const v)
  | reserved i =>
    refine settles_bind (m := 0) (n := 1) (settles_here o bs) fun offset o bs => ?_
    refine settles_bind (m := 1) (n := 0) (settles_lift (settles_byte o bs)) fun b o bs => ?_
    split
    · exact settles_pure _ o bs
    · exact settles_throw _ 0 o bs

theorem settles_read (b : UInt8) (o : Nat) (bs : List UInt8) :
    Settles InstructionError.unexpectedEnd (maxLength b) read o (b :: bs) := by
  unfold maxLength
  cases hf : form? b with
  | none => exact .error fun start more => ⟨_, read_of_form?_none start o (bs ++ more) hf⟩
  | some form =>
    cases settles_form form (o + 1) bs with
    | @ok i front back hbs hn h =>
      refine .ok (a := i) (b :: front) back (by rw [hbs]; rfl) ?_ fun start more => ?_
      · rw [List.length_cons, Nat.add_comm]
        exact Nat.add_le_add_left hn 1
      · rw [List.cons_append, read_of_form? start o _ hf, h, List.length_cons, Nat.add_assoc,
          Nat.add_comm 1]
    | @error e h =>
      refine .error (e := e) fun start more => ?_
      rw [List.cons_append, read_of_form? start o _ hf]
      exact h start more
    | ended hn h =>
      have hlength : (b :: bs).length < 1 + form.maxLength := by
        rw [List.length_cons]
        omega
      refine .ended hlength fun start => ?_
      rw [read_of_form? start o _ hf, List.length_cons, Nat.add_comm bs.length, ← Nat.add_assoc]
      exact h start

/-- The outcome of reading, without the window that is left. -/
def outcome : EStateM.Result InstructionError Window Instruction →
    Except InstructionError (Instruction × Nat)
  | .ok i w => .ok (i, w.offset)
  | .error e _ => .error e

/-- What the machine reads through its window is what a reader of the whole code finds. -/
theorem decodeAt_eq_outcome (start : Nat) (h : ip < code.size) :
    decodeAt code ip = outcome (read ⟨start, ip, code.toList.drop ip⟩) := by
  have hb : code[ip]? = some code[ip] := Array.getElem?_eq_getElem h
  have hdecode : decodeAt code ip = outcome (read (window code ip)) := by
    unfold decodeAt
    cases read (window code ip) <;> rfl
  rw [hdecode, window_rest code ip _ hb]
  have hdrop : code.toList.drop ip = code[ip] :: code.toList.drop (ip + 1) := by
    rw [List.drop_eq_getElem_cons (by simpa using h), Array.getElem_toList]
  obtain ⟨k, hk⟩ : ∃ k, maxLength code[ip] = k + 1 := by
    unfold maxLength
    split
    · exact ⟨_, Nat.add_comm _ _⟩
    · exact ⟨0, rfl⟩
  have hcut : (code.toList.drop ip).take (maxLength code[ip]) =
      code[ip] :: (code.toList.drop (ip + 1)).take k := by
    rw [hdrop, hk, List.take_succ_cons]
  have hsettles := settles_read code[ip] ip ((code.toList.drop (ip + 1)).take k)
  rw [← hcut] at hsettles
  cases hsettles with
  | @ok i front back hbs hn hread =>
    have hwhole : code.toList.drop ip =
        front ++ (back ++ (code.toList.drop ip).drop (maxLength code[ip])) := by
      rw [← List.append_assoc, ← hbs, List.take_append_drop]
    rw [hbs, hread, hwhole, hread]
    rfl
  | @error e hread =>
    obtain ⟨w, hw⟩ := hread ip []
    obtain ⟨w', hw'⟩ := hread start ((code.toList.drop ip).drop (maxLength code[ip]))
    rw [List.append_nil] at hw
    rw [List.take_append_drop] at hw'
    rw [hw, hw']
    rfl
  | ended hn hread =>
    have hall : (code.toList.drop ip).take (maxLength code[ip]) = code.toList.drop ip := by
      rw [List.take_eq_self_iff]
      rw [List.length_take] at hn
      omega
    rw [hall] at hread ⊢
    obtain ⟨w, hw⟩ := hread ip
    obtain ⟨w', hw'⟩ := hread start
    rw [hw, hw']
    rfl

/-! ## The end of a scan -/

/-- How a reading of code that stops at `stop` ends: at the end of the code, or at bytes that are no
instruction, for the reason that is given. -/
inductive EndsAt (code : Array UInt8) (stop : Nat) : Option InstructionError → Prop
  | whole (h : stop = code.size) : EndsAt code stop none
  | fault {e : InstructionError} (h : stop < code.size) (hd : decodeAt code stop = .error e) :
    EndsAt code stop (some e)

theorem endsAt_scanFrom (fuel : Nat) (found : Array (Nat × Instruction)) {w : Window}
    (hw : w.rest = code.toList.drop w.offset) (hle : w.offset ≤ code.size)
    (hf : w.rest.length ≤ fuel) :
    EndsAt code (scanFrom fuel found w).stop (scanFrom fuel found w).error := by
  have hlength : w.rest.length = code.size - w.offset := by
    rw [hw, List.length_drop, Array.length_toList]
  induction fuel generalizing found w with
  | zero =>
    refine .whole ?_
    change w.offset = code.size
    omega
  | succ fuel ih =>
    unfold scanFrom
    by_cases he : w.isEmpty = true
    · rw [if_pos he]
      have hnil : w.rest.length = 0 := List.length_eq_zero_iff.mpr (List.isEmpty_iff.mp he)
      refine .whole ?_
      change w.offset = code.size
      omega
    · rw [if_neg he]
      have hpos : 0 < w.rest.length := List.length_pos_iff.mpr fun hnil =>
        he (List.isEmpty_iff.mpr hnil)
      have hlt : w.offset < code.size := by omega
      have hdecode := decodeAt_eq_outcome w.start hlt
      rw [← hw] at hdecode
      cases hr : read w with
      | error e w' =>
        rw [hr] at hdecode
        exact .fault hlt hdecode
      | ok i w' =>
        obtain ⟨bs, rest, hb, rfl, hd⟩ := (accepts_read w i w').mp hr
        have hposbs := hd.length_pos
        have hsplit := congrArg List.length hb
        rw [List.length_append] at hsplit
        refine ih _ ?_ ?_ ?_ ?_
        · rw [Window.behind_rest, Window.behind_offset, ← List.drop_drop, ← hw, hb, List.drop_left]
        · rw [Window.behind_offset]
          omega
        · rw [Window.behind_rest]
          omega
        · rw [Window.behind_rest, Window.behind_offset]
          omega

theorem endsAt_scan (code : Array UInt8) : EndsAt code (scan code).stop (scan code).error := by
  refine endsAt_scanFrom code.size #[] rfl (Nat.zero_le _) ?_
  simp [Window.ofBytes]

end Instruction

end WasmI32
