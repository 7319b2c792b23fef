import WasmI32.Module.Builder
import WasmI32.Proofs.Module.Grammar
import WasmI32.Proofs.Utf8

/-!
# Written parts and the grammar

What a builder writes can be read in one way only. For each part of a binary the grammar has the
bytes that the builder writes and no others that start there, and it has them exactly if the part
keeps to the limits. A count or a size has to be written in 32 bits, so every length is below
`2 ^ 32`.
-/

namespace WasmI32

/-- The largest number of pages of a memory, which is 128 where none is given. -/
def Builder.Limits.maximum (l : Builder.Limits) : Nat := (l.max.map BitVec.toNat).getD 128

namespace Format

variable {α β ε : Type} {G : Grammar α} {cs : List UInt8} {c : Prop} {a : Nat → α}

/-- Where the bytes `cs` stand, they are the only string of `G`, if the condition `c` holds, and
there is none otherwise. The value may depend on the place. -/
def Determines (G : Grammar α) (cs : List UInt8) (c : Prop) (a : Nat → α) : Prop :=
  ∀ ⦃o : Nat⦄ ⦃bs rest tail : List UInt8⦄ ⦃x : α⦄, bs ++ rest = cs ++ tail →
    (G o bs x ↔ bs = cs ∧ c ∧ x = a o)

theorem Determines.whole (h : Determines G cs c a) {o : Nat} {x : α} :
    G o cs x ↔ c ∧ x = a o :=
  (h (congrArg (cs ++ ·) (rfl : [] = []))).trans (and_iff_right rfl)

theorem determines_of_accepts {r : Read ε α} (h : r.Accepts G) (hg : ∀ o, G o cs (a o)) :
    Determines G cs True a := by
  intro o bs rest tail x heq
  constructor
  · intro hx
    have hfirst := h.run (w := ⟨o, o, bs ++ rest⟩) rfl hx
    have hsecond := h.run (w := ⟨o, o, bs ++ rest⟩) heq (hg o)
    rw [hfirst] at hsecond
    obtain ⟨rfl, hw⟩ := EStateM.Result.ok.inj hsecond
    have hlen : bs.length = cs.length := Nat.add_left_cancel (congrArg Window.offset hw)
    exact ⟨(List.append_inj heq hlen).1, trivial, rfl⟩
  · rintro ⟨rfl, -, rfl⟩
    exact hg o

/-! ## Numbers -/

theorem determines_number (v : Word) :
    Determines number (Leb128.encodeUnsigned v) True fun _ => v.toNat := by
  have hword : Determines (fun _ bs v => Leb128.Unsigned bs v) (Leb128.encodeUnsigned v) True
      fun _ => v :=
    determines_of_accepts Read.accepts_unsigned fun _ => Leb128.unsigned_encodeUnsigned v
  intro o bs rest tail n heq
  constructor
  · rintro ⟨w, hw, rfl⟩
    obtain ⟨hbs, -, rfl⟩ := (hword (o := o) heq).mp hw
    exact ⟨hbs, trivial, rfl⟩
  · rintro ⟨rfl, -, rfl⟩
    exact ⟨v, Leb128.unsigned_encodeUnsigned v, rfl⟩

theorem determines_signed (v : Word) :
    Determines (fun _ bs v => Leb128.Signed bs v) (Leb128.encodeSigned v) True fun _ => v :=
  determines_of_accepts Read.accepts_signed fun _ => Leb128.signed_encodeSigned v

theorem determines_count {n : Nat} (h : n < 2 ^ 32) :
    Determines number (Builder.encodeCount n) True fun _ => n := by
  have hn := determines_number (BitVec.ofNat 32 n)
  rwa [BitVec.toNat_ofNat, Nat.mod_eq_of_lt h] at hn

/-- A size and as many bytes are split in one way only. -/
theorem eq_of_count {o : Nat} {bytes ns bs rest tail : List UInt8} (h : bytes.length < 2 ^ 32)
    (heq : ns ++ (bs ++ rest) = Builder.encodeCount bytes.length ++ (bytes ++ tail))
    (hn : number o ns bs.length) :
    ns = Builder.encodeCount bytes.length ∧ bs = bytes ∧ rest = tail := by
  obtain ⟨rfl, -, hlen⟩ := (determines_count h heq).mp hn
  obtain ⟨rfl, rfl⟩ := List.append_inj (List.append_cancel_left heq) hlen
  exact ⟨rfl, rfl, rfl⟩

/-! ## Items -/

/-- The values of items that are written one behind the other. -/
def placed (e : β → List UInt8) (a : β → Nat → α) : Nat → List β → List α
  | _, [] => []
  | o, x :: xs => a x o :: placed e a (o + (e x).length) xs

theorem placed_const (e : β → List UInt8) (v : β → α) (o : Nat) (xs : List β) :
    placed e (fun x _ => v x) o xs = xs.map v := by
  induction xs generalizing o with
  | nil => rfl
  | cons x xs ih => rw [placed, ih, List.map_cons]

theorem length_placed (e : β → List UInt8) (v : β → Nat → α) (o : Nat) (xs : List β) :
    (placed e v o xs).length = xs.length := by
  induction xs generalizing o with
  | nil => rfl
  | cons x xs ih => rw [placed, List.length_cons, ih, List.length_cons]

theorem items_placed {e : β → List UInt8} {p : β → Prop} {v : β → Nat → α} {xs : List β}
    (h : ∀ x ∈ xs, Determines G (e x) (p x) (v x)) (hp : ∀ x ∈ xs, p x) (o : Nat) :
    Items G o (xs.flatMap e) (placed e v o xs) := by
  induction xs generalizing o with
  | nil => exact .nil
  | cons x xs ih =>
    obtain ⟨hx, hxs⟩ := List.forall_mem_cons.mp h
    obtain ⟨hpx, hps⟩ := List.forall_mem_cons.mp hp
    rw [List.flatMap_cons]
    exact .cons (hx.whole.mpr ⟨hpx, rfl⟩) (ih hxs hps _)

/-- As many strings of `G` as there are items are these items. -/
theorem eq_of_items {e : β → List UInt8} {p : β → Prop} {v : β → Nat → α} {xs : List β}
    (h : ∀ x ∈ xs, Determines G (e x) (p x) (v x)) {o : Nat} {bs rest tail : List UInt8}
    {as : List α} (heq : bs ++ rest = xs.flatMap e ++ tail) (hlen : as.length = xs.length)
    (hi : Items G o bs as) : bs = xs.flatMap e ∧ (∀ x ∈ xs, p x) ∧ as = placed e v o xs := by
  induction xs generalizing o bs as with
  | nil =>
    obtain rfl := List.length_eq_zero_iff.mp hlen
    cases hi
    exact ⟨rfl, by simp, rfl⟩
  | cons x xs ih =>
    obtain ⟨hx, hxs⟩ := List.forall_mem_cons.mp h
    cases hi with
    | nil => simp at hlen
    | cons hg ht =>
      rw [List.flatMap_cons, List.append_assoc, List.append_assoc] at heq
      obtain ⟨rfl, hp, rfl⟩ := (hx heq).mp hg
      obtain ⟨rfl, hps, rfl⟩ := ih hxs (List.append_cancel_left heq) (Nat.succ.inj hlen) ht
      exact ⟨rfl, List.forall_mem_cons.mpr ⟨hp, hps⟩, rfl⟩

theorem determines_vector {e : β → List UInt8} {p : β → Prop} {v : β → Nat → α} {xs : List β}
    (hlen : xs.length < 2 ^ 32) (h : ∀ x ∈ xs, Determines G (e x) (p x) (v x)) :
    Determines (vector G) (Builder.encodeCount xs.length ++ xs.flatMap e) (∀ x ∈ xs, p x)
      fun o => placed e v (o + (Builder.encodeCount xs.length).length) xs := by
  intro o bs rest tail as heq
  constructor
  · rintro ⟨ns, ds, rfl, hn, hi⟩
    rw [List.append_assoc, List.append_assoc] at heq
    obtain ⟨rfl, -, has⟩ := (determines_count hlen heq).mp hn
    obtain ⟨rfl, hp, rfl⟩ := eq_of_items h (List.append_cancel_left heq) has hi
    exact ⟨rfl, hp, rfl⟩
  · rintro ⟨rfl, hp, rfl⟩
    refine ⟨_, _, rfl, ?_, items_placed h hp _⟩
    rw [length_placed]
    exact (determines_count hlen).whole.mpr ⟨trivial, rfl⟩

/-! ## Signatures -/

theorem determines_valueTypes {n : Nat} (h : n < 2 ^ 32) :
    Determines valueTypes (Builder.encodeValueTypes n) True fun _ => n := by
  have hbytes : Builder.encodeValueTypes n = Builder.encodeCount n ++ List.replicate n 0x7f := by
    rw [Builder.encodeValueTypes, Builder.encodeBytes, List.length_replicate]
    rfl
  intro o bs rest tail k heq
  rw [hbytes] at heq ⊢
  constructor
  · rintro ⟨ns, rfl, hn⟩
    rw [List.append_assoc, List.append_assoc] at heq
    obtain ⟨rfl, -, rfl⟩ := (determines_count h heq).mp hn
    exact ⟨rfl, trivial, rfl⟩
  · rintro ⟨rfl, -, rfl⟩
    exact ⟨_, rfl, (determines_count h).whole.mpr ⟨trivial, rfl⟩⟩

theorem determines_signature {t : FunctionType} (hp : t.parameters < 2 ^ 32)
    (hr : t.results < 2 ^ 32) :
    Determines signature (Builder.encodeType t) (t.parameters ≤ 1000 ∧ t.results ≤ 1)
      fun _ => t := by
  intro o bs rest tail s heq
  unfold Builder.encodeType at heq ⊢
  constructor
  · rintro ⟨ps, rs, rfl, hps, hrs, hlimits⟩
    rw [List.cons_append, List.cons_append, List.append_assoc, List.append_assoc] at heq
    have htail := (List.cons.inj heq).2
    obtain ⟨rfl, -, hparams⟩ := (determines_valueTypes hp htail).mp hps
    obtain ⟨rfl, -, hresults⟩ :=
      (determines_valueTypes hr (List.append_cancel_left htail)).mp hrs
    obtain rfl : s = t := by
      obtain ⟨parameters, results⟩ := s
      simp only at hparams hresults
      rw [hparams, hresults]
    exact ⟨rfl, hlimits, rfl⟩
  · rintro ⟨rfl, hlimits, rfl⟩
    exact ⟨_, _, rfl, (determines_valueTypes hp).whole.mpr ⟨trivial, rfl⟩,
      (determines_valueTypes hr).whole.mpr ⟨trivial, rfl⟩, hlimits⟩

/-! ## Bodies -/

theorem determines_localGroup (n : Word) :
    Determines localGroup (Leb128.encodeUnsigned n ++ [ValueType.i32Byte]) True
      fun _ => n.toNat := by
  intro o bs rest tail k heq
  constructor
  · rintro ⟨ns, rfl, hn⟩
    rw [List.append_assoc, List.append_assoc] at heq
    obtain ⟨rfl, -, rfl⟩ := (determines_number n heq).mp hn
    exact ⟨rfl, trivial, rfl⟩
  · rintro ⟨rfl, -, rfl⟩
    exact ⟨_, rfl, (determines_number n).whole.mpr ⟨trivial, rfl⟩⟩

/-- The groups of locals that are written: one at most. -/
def localGroups (n : Word) : List Word := if n = 0 then [] else [n]

theorem sum_localGroups (n : Word) : ((localGroups n).map BitVec.toNat).sum = n.toNat := by
  unfold localGroups
  by_cases h : n = 0
  · rw [if_pos h, h]
    rfl
  · rw [if_neg h]
    simp

theorem encodeLocals_eq (n : Word) :
    Builder.encodeLocals n = Builder.encodeCount (localGroups n).length ++
      (localGroups n).flatMap fun n => Leb128.encodeUnsigned n ++ [ValueType.i32Byte] := by
  unfold Builder.encodeLocals localGroups
  by_cases h : n = 0
  · rw [if_pos h, if_pos h]
    simp
  · rw [if_neg h, if_neg h]
    simp

theorem determines_locals (n : Word) :
    Determines (vector localGroup) (Builder.encodeLocals n) True
      fun _ => (localGroups n).map BitVec.toNat := by
  have hlen : (localGroups n).length < 2 ^ 32 := by
    unfold localGroups
    split <;> simp
  have hvector := determines_vector hlen fun n _ => determines_localGroup n
  rw [encodeLocals_eq]
  simp only [placed_const] at hvector
  simpa using hvector

/-- The body of a function, before its size. -/
def bodyBytes (f : Builder.Function) : List UInt8 := Builder.encodeLocals f.localCount ++ f.code

/-- What is read where a function is written. -/
def bodyAt (f : Builder.Function) (o : Nat) : Body where
  localCount := f.localCount.toNat
  code := f.code.toArray
  offset := o + (Builder.encodeCount (bodyBytes f).length).length +
    (Builder.encodeLocals f.localCount).length

theorem determines_body {f : Builder.Function} (h : (bodyBytes f).length < 2 ^ 32) :
    Determines body (Builder.encodeFunction f)
      ((bodyBytes f).length ≤ 7654321 ∧ f.localCount.toNat ≤ 50000) (bodyAt f) := by
  have hbytes : Builder.encodeFunction f =
      Builder.encodeCount (bodyBytes f).length ++ bodyBytes f := rfl
  intro o bs rest tail b heq
  rw [hbytes] at heq ⊢
  constructor
  · rintro ⟨ns, ls, code, groups, rfl, hn, hsize, hgroups, hsum, rfl⟩
    rw [List.append_assoc ns, List.append_assoc (Builder.encodeCount _)] at heq
    obtain ⟨rfl, hbody, -⟩ := eq_of_count h heq hn
    obtain ⟨rfl, -, rfl⟩ := (determines_locals f.localCount hbody).mp hgroups
    obtain rfl := List.append_cancel_left hbody
    rw [sum_localGroups] at hsum ⊢
    exact ⟨rfl, ⟨hsize, hsum⟩, rfl⟩
  · rintro ⟨rfl, ⟨hsize, hsum⟩, rfl⟩
    refine ⟨_, _, f.code, _, rfl, (determines_count h).whole.mpr ⟨trivial, rfl⟩, hsize,
      (determines_locals f.localCount).whole.mpr ⟨trivial, rfl⟩, ?_, ?_⟩
    · rwa [sum_localGroups]
    · rw [sum_localGroups]
      rfl

/-! ## Data segments -/

theorem determines_segment {d : Builder.Data} (h : d.bytes.length < 2 ^ 32) :
    Determines segment (Builder.encodeData d) True fun _ => (d.address, d.bytes) := by
  have hbytes : Builder.encodeData d = Leb128.encodeUnsigned 0 ++ 0x41 ::
      (Leb128.encodeSigned d.address ++
        0x0b :: (Builder.encodeCount d.bytes.length ++ d.bytes)) := by
    rw [Builder.encodeData, List.append_assoc, List.append_assoc]
    rfl
  intro o bs rest tail s heq
  rw [hbytes] at heq ⊢
  constructor
  · rintro ⟨is, as, ns, rfl, hi, ha, hn⟩
    simp only [List.append_assoc, List.cons_append] at heq
    obtain ⟨rfl, -, -⟩ := (determines_number 0 heq).mp hi
    have haddress := (List.cons.inj (List.append_cancel_left heq)).2
    obtain ⟨rfl, -, hfst⟩ := (determines_signed d.address (o := o) haddress).mp ha
    have hdata := (List.cons.inj (List.append_cancel_left haddress)).2
    obtain ⟨rfl, hsnd, -⟩ := eq_of_count h hdata hn
    obtain ⟨address, bytes⟩ := s
    simp only at hfst hsnd
    subst hfst hsnd
    exact ⟨rfl, trivial, rfl⟩
  · rintro ⟨rfl, -, rfl⟩
    exact ⟨_, _, _, rfl, (determines_number 0).whole.mpr ⟨trivial, rfl⟩,
      Leb128.signed_encodeSigned d.address, (determines_count h).whole.mpr ⟨trivial, rfl⟩⟩

/-! ## Memories -/

theorem eq_of_memory {l : Builder.Limits} {o : Nat} {bytes : List UInt8} {x : Option (Nat × Nat)}
    (h : memory o bytes x) (heq : bytes = Builder.encodeCount 1 ++ Builder.encodeLimits l) :
    (1 ≤ l.maximum ∧ l.maximum ≤ 128 ∧ l.initial.toNat ≤ l.maximum) ∧
      x = some (l.initial.toNat, l.maximum) := by
  have hone := determines_count (n := 1) (by decide)
  obtain ⟨initial, max⟩ := l
  cases h with
  | absent hc =>
    rw [← List.append_nil bytes] at heq
    obtain ⟨-, -, hzero⟩ := (hone heq).mp hc
    exact absurd (show 0 = 1 from hzero) Nat.zero_ne_one
  | @unbounded _ first cs bs hc hi hle =>
    obtain ⟨rfl, -, -⟩ := (hone heq).mp hc
    have hlimits := List.append_cancel_left heq
    cases max with
    | none =>
      obtain rfl := (List.cons.inj hlimits).2
      obtain ⟨-, rfl⟩ := (determines_number initial).whole.mp hi
      exact ⟨⟨show 1 ≤ 128 by decide, le_rfl, hle⟩, rfl⟩
    | some max => exact absurd (List.cons.inj hlimits).1 (by decide)
  | @bounded _ first last cs bs ds hc hi hm hpos hmax hle =>
    obtain ⟨rfl, -, -⟩ := (hone heq).mp hc
    have hlimits := List.append_cancel_left heq
    cases max with
    | none => exact absurd (List.cons.inj hlimits).1 (by decide)
    | some max =>
      have hnumbers := (List.cons.inj hlimits).2
      obtain ⟨rfl, -, rfl⟩ := (determines_number initial hnumbers).mp hi
      obtain rfl := List.append_cancel_left hnumbers
      obtain ⟨-, rfl⟩ := (determines_number max).whole.mp hm
      exact ⟨⟨hpos, hmax, hle⟩, rfl⟩

theorem memory_encodeLimits {l : Builder.Limits} (o : Nat)
    (h : 1 ≤ l.maximum ∧ l.maximum ≤ 128 ∧ l.initial.toNat ≤ l.maximum) :
    memory o (Builder.encodeCount 1 ++ Builder.encodeLimits l)
      (some (l.initial.toNat, l.maximum)) := by
  obtain ⟨hpos, hmax, hle⟩ := h
  obtain ⟨initial, max⟩ := l
  have hone {o : Nat} : number o (Builder.encodeCount 1) 1 :=
    (determines_count (n := 1) (by decide)).whole.mpr ⟨trivial, rfl⟩
  have hnumber (v : Word) {o : Nat} : number o (Leb128.encodeUnsigned v) v.toNat :=
    (determines_number v).whole.mpr ⟨trivial, rfl⟩
  cases max with
  | none => exact .unbounded hone (hnumber initial) hle
  | some max => exact .bounded hone (hnumber initial) (hnumber max) hpos hmax hle

/-! ## Names of custom sections -/

theorem hasName_iff_eq {custom : Builder.Custom} {name : String}
    (h : custom.name.toUTF8.data.toList.length < 2 ^ 32) :
    HasName (Builder.encodeBytes custom.name.toUTF8.data.toList ++ custom.payload) name ↔
      name = custom.name := by
  have hsize : number 0 (Builder.encodeCount custom.name.toUTF8.data.toList.length)
      custom.name.toUTF8.data.toList.length :=
    (determines_count h).whole.mpr ⟨trivial, rfl⟩
  constructor
  · rintro (⟨ns, bs, rest, heq, hn, rfl⟩ | ⟨hno, -⟩)
    · rw [Builder.encodeBytes, List.append_assoc] at heq
      obtain ⟨-, rfl, -⟩ := eq_of_count h heq.symm hn
      exact Utf8.decodeLossy_toUTF8 custom.name
    · exact absurd ⟨_, _, _, List.append_assoc _ _ _, hsize⟩ hno
  · rintro rfl
    exact .inl ⟨_, _, _, List.append_assoc _ _ _, hsize, (Utf8.decodeLossy_toUTF8 _).symm⟩

end Format

end WasmI32
