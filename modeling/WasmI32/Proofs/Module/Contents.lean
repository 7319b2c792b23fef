import WasmI32.Proofs.Image
import WasmI32.Proofs.Module.Grammar

/-!
# Reading the contents of sections

The reader of each section accepts the grammar of its contents. A body is read through a window of
its own, which its code fills to the end.
-/

namespace WasmI32

namespace Read

open Format (Items)

variable {ε α : Type}

theorem accepts_times_go {item : Read ε α} {G : Grammar α} (h : item.Accepts G) (n : Nat) :
    ∀ answers : Array α, Accepts (times.go item n answers)
      (fun o bs array => ∃ as, Items G o bs as ∧ as.length = n ∧
        array = answers ++ as.toArray) := by
  induction n with
  | zero =>
    intro answers
    refine (accepts_pure answers).congr fun o bs array => ?_
    constructor
    · rintro ⟨rfl, rfl⟩
      exact ⟨[], .nil, rfl, by simp⟩
    · rintro ⟨as, hi, hn, rfl⟩
      obtain rfl := List.length_eq_zero_iff.mp hn
      cases hi
      exact ⟨rfl, by simp⟩
  | succ n ih =>
    intro answers
    refine (accepts_bind h fun a => ih (answers.push a)).congr fun o bs array => ?_
    constructor
    · rintro ⟨a, bs₁, bs₂, rfl, ha, as, hi, rfl, rfl⟩
      exact ⟨a :: as, .cons ha hi, rfl, by simp⟩
    · rintro ⟨as, hi, hn, rfl⟩
      cases hi with
      | nil => cases hn
      | cons ha hi => exact ⟨_, _, _, rfl, ha, _, hi, Nat.succ.inj hn, by simp⟩

theorem accepts_times {item : Read ε α} {G : Grammar α} (h : item.Accepts G) (n : Nat) :
    Accepts (item.times n)
      (fun o bs array => ∃ as, Items G o bs as ∧ as.length = n ∧ array = as.toArray) :=
  (accepts_times_go h n #[]).congr fun o bs array => by simp

end Read

namespace Decode

open Read Format

theorem accepts_checkLimit (what : Counted) (count limit : Nat) :
    Accepts (checkLimit what count limit) (fun _ bs _ => bs = [] ∧ count ≤ limit) := by
  unfold checkLimit
  split
  · refine (accepts_throw _).congr fun o bs a => ?_
    simp only [false_iff]
    omega
  · refine (accepts_pure _).congr fun o bs a => ?_
    simp only [nothing]
    constructor
    · rintro ⟨rfl, -⟩
      exact ⟨rfl, by omega⟩
    · rintro ⟨rfl, -⟩
      exact ⟨rfl, trivial⟩

theorem accepts_count (what : Counted) (limit : Nat) :
    Accepts (count what limit) (fun o bs n => number o bs n ∧ n ≤ limit) := by
  refine (accepts_bind (accepts_adaptExcept accepts_unsigned _) fun v =>
    accepts_bind (accepts_checkLimit what v.toNat limit) fun _ => accepts_pure v.toNat).congr
      fun o bs n => ?_
  constructor
  · rintro ⟨v, bs, _, rfl, hv, u, _, _, rfl, ⟨rfl, hle⟩, rfl, rfl⟩
    rw [List.append_nil, List.append_nil]
    exact ⟨⟨v, hv, rfl⟩, hle⟩
  · rintro ⟨⟨v, hv, rfl⟩, hle⟩
    exact ⟨v, bs, [], by simp, hv, (), [], [], rfl, ⟨rfl, hle⟩, rfl, rfl⟩

/-- Items behind their number, which has a limit. -/
theorem accepts_vector {α : Type} {item : Read DecodeError α} {G : Grammar α} (what : Counted)
    (limit : Nat) (h : item.Accepts G) :
    Accepts (count what limit >>= fun n => item.times n)
      (fun o bs array => ∃ as, (vector G o bs as ∧ as.length ≤ limit) ∧ array = as.toArray) := by
  refine (accepts_bind (accepts_count what limit) fun n => accepts_times h n).congr
    fun o bs array => ?_
  constructor
  · rintro ⟨n, cs, ds, rfl, ⟨hn, hle⟩, as, hi, rfl, rfl⟩
    exact ⟨as, ⟨⟨cs, ds, rfl, hn, hi⟩, hle⟩, rfl⟩
  · rintro ⟨as, ⟨⟨cs, ds, rfl, hn, hi⟩, hle⟩, rfl⟩
    exact ⟨as.length, cs, ds, rfl, ⟨hn, hle⟩, as, hi, rfl, rfl⟩

theorem ofByte_eq_i32_iff (b : UInt8) : ValueType.ofByte b = .i32 ↔ b = 0x7f := by
  unfold ValueType.ofByte ValueType.i32Byte
  split
  · simp [*]
  · split
    · simp [*]
    · split
      · simp [*]
      · split <;> simp [*]

theorem accepts_valueType : Accepts valueType (fun _ bs _ => bs = [0x7f]) := by
  refine (accepts_bind accepts_here fun offset =>
    accepts_bind (H := fun b _ bs _ => bs = [] ∧ b = 0x7f) (accepts_adaptExcept accepts_byte _)
      fun b => ?_).congr fun o bs u => ?_
  · have hb := ofByte_eq_i32_iff b
    cases h : ValueType.ofByte b with
    | i32 => exact (accepts_pure ()).congr fun o bs a => by simp [nothing, hb.mp h]
    | unsupported name =>
      exact (accepts_throw _).congr fun o bs a => by simp [← hb, h]
    | invalid => exact (accepts_throw _).congr fun o bs a => by simp [← hb, h]
  constructor
  · rintro ⟨_, _, _, rfl, ⟨rfl, -⟩, b, _, _, rfl, rfl, rfl, rfl⟩
    rfl
  · rintro rfl
    exact ⟨o, [], _, rfl, ⟨rfl, rfl⟩, 0x7f, [0x7f], [], rfl, rfl, rfl, rfl⟩

/-- A row of value types is as many bytes of the same kind. -/
theorem items_valueType_iff {o : Nat} {bs : List UInt8} {us : List Unit} :
    Items (fun _ bs (_ : Unit) => bs = [0x7f]) o bs us ↔ bs = List.replicate us.length 0x7f := by
  induction us generalizing o bs with
  | nil =>
    constructor
    · intro h
      cases h
      rfl
    · rintro rfl
      exact .nil
  | cons u us ih =>
    constructor
    · intro h
      cases h with
      | cons h ht =>
        subst h
        rw [ih.mp ht]
        rfl
    · rintro rfl
      exact .cons rfl (ih.mpr rfl)

theorem accepts_valueTypes (n : Nat) : Accepts (valueType.times n)
    (fun _ bs array => bs = List.replicate n 0x7f ∧ array = Array.replicate n ()) := by
  refine (accepts_times accepts_valueType n).congr fun o bs array => ?_
  constructor
  · rintro ⟨us, hi, rfl, rfl⟩
    refine ⟨items_valueType_iff.mp hi, ?_⟩
    rw [← List.toArray_replicate]
    exact congrArg List.toArray (List.eq_replicate_of_mem fun _ _ => rfl)
  · rintro ⟨rfl, rfl⟩
    refine ⟨List.replicate n (), items_valueType_iff.mpr ?_, List.length_replicate, ?_⟩
    · rw [List.length_replicate]
    · rw [List.toArray_replicate]

theorem accepts_functionType : Accepts functionType signature := by
  refine (accepts_bind accepts_here fun offset =>
    accepts_bind (accepts_adaptExcept accepts_byte _) fun tag =>
      accepts_unless (c := tag ≠ FunctionType.tag)
        (accepts_bind (accepts_count .parameter Limits.parameters) fun parameters =>
          accepts_bind (accepts_valueTypes parameters) fun _ =>
            accepts_bind (accepts_adaptExcept accepts_unsigned _) fun results =>
              accepts_unless (c := Limits.results < results.toNat)
                (accepts_bind (accepts_valueTypes results.toNat) fun _ =>
                  accepts_pure (⟨parameters, results.toNat⟩ : FunctionType)))).congr
                    fun o bs t => ?_
  constructor
  · rintro ⟨_, _, _, rfl, ⟨rfl, -⟩, tag, _, _, rfl, rfl, htag, n, cs, _, rfl, ⟨hn, hle⟩, _, ps, _,
      rfl, ⟨rfl, -⟩, v, ds, _, rfl, hv, hr, _, rs, _, rfl, ⟨rfl, -⟩, rfl, rfl⟩
    have htag : tag = 0x60 := not_not.mp htag
    subst htag
    refine ⟨cs ++ List.replicate n 0x7f, ds ++ List.replicate v.toNat 0x7f, by simp,
      ⟨cs, rfl, hn⟩, ⟨ds, rfl, v, hv, rfl⟩, hle, ?_⟩
    exact Nat.not_lt.mp hr
  · rintro ⟨ps, rs, rfl, ⟨cs, rfl, hn⟩, ⟨ds, rfl, v, hv, hvr⟩, hle, hr⟩
    refine ⟨o, [], _, rfl, ⟨rfl, rfl⟩, 0x60, [0x60], _, rfl, rfl, not_not.mpr rfl, t.parameters, cs,
      List.replicate t.parameters 0x7f ++ (ds ++ List.replicate t.results 0x7f), by simp, ⟨hn, hle⟩,
      _, _, _, rfl, ⟨rfl, rfl⟩, v, ds, _, rfl, hv, ?_, _, _, [], ?_, ⟨rfl, rfl⟩, rfl, ?_⟩
    · rw [← hvr]
      exact Nat.not_lt.mpr hr
    · rw [hvr, List.append_nil]
    · rw [← hvr]

theorem accepts_typeSection : Accepts typeSection
    (fun o bs array => ∃ ts, types o bs ts ∧ array = ts.toArray) :=
  accepts_vector .type Limits.types accepts_functionType

/-! ## Functions, memory and start -/

theorem accepts_typeIndex (count : Nat) :
    Accepts (typeIndex count) (fun o bs i => number o bs i ∧ i < count) := by
  refine (accepts_bind (accepts_adaptExcept accepts_unsigned _) fun v =>
    accepts_unless (c := count ≤ v.toNat) (accepts_pure v.toNat)).congr fun o bs i => ?_
  constructor
  · rintro ⟨v, bs, _, rfl, hv, hlt, rfl, rfl⟩
    rw [List.append_nil]
    exact ⟨⟨v, hv, rfl⟩, Nat.not_le.mp hlt⟩
  · rintro ⟨⟨v, hv, rfl⟩, hlt⟩
    exact ⟨v, bs, [], by simp, hv, Nat.not_le.mpr hlt, rfl, rfl⟩

theorem items_and {α : Type} {G : Grammar α} {P : α → Prop} {o : Nat} {bs : List UInt8}
    {as : List α} :
    Items (fun o bs a => G o bs a ∧ P a) o bs as ↔ Items G o bs as ∧ ∀ a ∈ as, P a := by
  constructor
  · intro h
    induction h with
    | nil => exact ⟨.nil, by simp⟩
    | cons ha _ ih => exact ⟨.cons ha.1 ih.1, List.forall_mem_cons.mpr ⟨ha.2, ih.2⟩⟩
  · rintro ⟨h, hp⟩
    induction h with
    | nil => exact .nil
    | cons ha _ ih =>
      obtain ⟨hpa, hp⟩ := List.forall_mem_cons.mp hp
      exact .cons ⟨ha, hpa⟩ (ih hp)

theorem accepts_functionSection (count : Nat) : Accepts (functionSection count)
    (fun o bs array => ∃ is, typeIndices count o bs is ∧ array = is.toArray) := by
  refine (accepts_vector .function Limits.functions (accepts_typeIndex count)).congr
    fun o bs array => ?_
  simp only [vector, items_and]
  constructor
  · rintro ⟨is, ⟨⟨cs, ds, rfl, hn, hi, hlt⟩, hle⟩, rfl⟩
    exact ⟨is, ⟨⟨cs, ds, rfl, hn, hi⟩, hle, hlt⟩, rfl⟩
  · rintro ⟨is, ⟨⟨cs, ds, rfl, hn, hi⟩, hle, hlt⟩, rfl⟩
    exact ⟨is, ⟨⟨cs, ds, rfl, hn, hi, hlt⟩, hle⟩, rfl⟩

theorem accepts_startSection : Accepts startSection number := by
  refine (accepts_bind (accepts_adaptExcept accepts_unsigned _) fun v =>
    accepts_pure v.toNat).congr fun o bs n => ?_
  constructor
  · rintro ⟨v, bs, _, rfl, hv, rfl, rfl⟩
    rw [List.append_nil]
    exact ⟨v, hv, rfl⟩
  · rintro ⟨v, hv, rfl⟩
    exact ⟨v, bs, [], by simp, hv, rfl, rfl⟩

theorem accepts_memoryMaximum (flags : UInt8) (offset : Nat) :
    Accepts (memoryMaximum flags offset)
      (fun o bs n => flags = 0 ∧ bs = [] ∧ n = 128 ∨ flags = 1 ∧ number o bs n) := by
  unfold memoryMaximum
  by_cases h0 : flags = 0
  · rw [if_pos h0]
    refine (accepts_pure Limits.pages).congr fun o bs n => ?_
    simp [h0, nothing, Limits.pages]
  · rw [if_neg h0]
    by_cases h1 : flags = 1
    · rw [if_pos h1]
      refine accepts_startSection.congr fun o bs n => ?_
      simp [h1]
    · rw [if_neg h1]
      refine (accepts_throw _).congr fun o bs n => ?_
      simp [h0, h1]

/-- A memory is made from its limits, which have to be sound. -/
theorem accepts_create (initial maximum : Nat) :
    Accepts (match Memory.create initial maximum with
        | .ok memory => pure (some memory)
        | .error cause => throw (.memoryLimits cause) : Read DecodeError (Option Memory))
      (fun _ bs m => bs = [] ∧ 1 ≤ maximum ∧ maximum ≤ 128 ∧ initial ≤ maximum ∧
        m = some (.zeroed initial maximum)) := by
  cases h : Memory.create initial maximum with
  | error cause =>
    refine (accepts_throw _).congr fun o bs m => ?_
    simp only [false_iff]
    rintro ⟨-, hpos, hmax, hle, -⟩
    have hok := Memory.create_eq_ok_iff.mpr ⟨hpos, hmax, hle, rfl⟩
    rw [h] at hok
    cases hok
  | ok memory =>
    obtain ⟨hpos, hmax, hle, rfl⟩ := Memory.create_eq_ok_iff.mp h
    refine (accepts_pure _).congr fun o bs m => ?_
    simp [nothing, hpos, hmax, hle]

/-- A memory behind the number of memories. -/
theorem accepts_declaredMemory : Accepts
    (do
      let offset ← Window.here
      let flags ← Window.byte
      let initial ← Window.unsigned
      let maximum ← memoryMaximum flags offset
      match Memory.create initial.toNat maximum with
      | .ok memory => return some memory
      | .error cause => throw (.memoryLimits cause) : Read DecodeError (Option Memory))
    (fun o bs m => ∃ initial maximum,
      ((∃ is, bs = 0x00 :: is ∧ number (o + 1) is initial ∧ maximum = 128) ∨
        ∃ is ms, bs = 0x01 :: (is ++ ms) ∧ number (o + 1) is initial ∧
          number (o + 1 + is.length) ms maximum) ∧
      1 ≤ maximum ∧ maximum ≤ 128 ∧ initial ≤ maximum ∧ m = some (.zeroed initial maximum)) := by
  refine (accepts_bind accepts_here fun offset =>
    accepts_bind (accepts_adaptExcept accepts_byte _) fun flags =>
      accepts_bind (accepts_adaptExcept accepts_unsigned _) fun initial =>
        accepts_bind (accepts_memoryMaximum flags offset) fun maximum =>
          accepts_create initial.toNat maximum).congr fun o bs m => ?_
  constructor
  · rintro ⟨_, _, _, rfl, ⟨rfl, -⟩, flags, _, _, rfl, rfl, v, is, _, rfl, hv, maximum, ms, _, rfl,
      hmax, rfl, hm⟩
    refine ⟨v.toNat, maximum, ?_, hm⟩
    rw [List.append_nil]
    obtain ⟨rfl, rfl, rfl⟩ | ⟨rfl, hn⟩ := hmax
    · exact .inl ⟨is, by simp, ⟨v, hv, rfl⟩, rfl⟩
    · exact .inr ⟨is, ms, by simp, ⟨v, hv, rfl⟩, hn⟩
  · rintro ⟨initial, maximum, h, hm⟩
    obtain ⟨is, rfl, ⟨v, hv, rfl⟩, rfl⟩ | ⟨is, ms, rfl, ⟨v, hv, rfl⟩, hn⟩ := h
    · exact ⟨o, [], _, rfl, ⟨rfl, rfl⟩, 0, [0], _, rfl, rfl, v, is, [], by simp, hv, 128, [], [],
        rfl, .inl ⟨rfl, rfl, rfl⟩, rfl, hm⟩
    · exact ⟨o, [], _, rfl, ⟨rfl, rfl⟩, 1, [1], _, rfl, rfl, v, is, ms, rfl, hv, maximum, ms, [],
        by simp, .inr ⟨rfl, hn⟩, rfl, hm⟩

theorem accepts_memorySection : Accepts memorySection
    (fun o bs m => ∃ limits, memory o bs limits ∧ m = limits.map fun l => .zeroed l.1 l.2) := by
  refine (accepts_bind (accepts_adaptExcept accepts_unsigned _) fun n =>
    accepts_unless (c := 1 < n.toNat) (accepts_ite (c := n.toNat = 0) (accepts_pure none)
      accepts_declaredMemory)).congr fun o bs m => ?_
  constructor
  · rintro ⟨n, cs, _, rfl, hn, hle, ⟨h0, rfl, rfl⟩ | ⟨h0, initial, maximum, h, hpos, hmax, hi, rfl⟩⟩
    · rw [List.append_nil]
      exact ⟨none, .absent ⟨n, hn, h0.symm⟩, rfl⟩
    · have h1 : n.toNat = 1 := by omega
      refine ⟨some (initial, maximum), ?_, rfl⟩
      obtain ⟨is, rfl, his, rfl⟩ | ⟨is, ms, rfl, his, hms⟩ := h
      · exact .unbounded ⟨n, hn, h1.symm⟩ his hi
      · exact .bounded ⟨n, hn, h1.symm⟩ his hms hpos hmax hi
  · rintro ⟨limits, h, rfl⟩
    cases h with
    | absent hc =>
      obtain ⟨n, hn, h0⟩ := hc
      exact ⟨n, bs, [], by simp, hn, by omega, .inl ⟨h0.symm, rfl, rfl⟩⟩
    | @unbounded _ initial cs is hc his hle =>
      obtain ⟨n, hn, h1⟩ := hc
      exact ⟨n, cs, _, rfl, hn, by omega, .inr ⟨by omega, initial, 128, .inl ⟨is, rfl, his, rfl⟩,
        by decide, by decide, hle, rfl⟩⟩
    | @bounded _ initial maximum cs is ms hc his hms hpos hmax hle =>
      obtain ⟨n, hn, h1⟩ := hc
      exact ⟨n, cs, _, rfl, hn, by omega, .inr ⟨by omega, initial, maximum,
        .inr ⟨is, ms, rfl, his, hms⟩, hpos, hmax, hle, rfl⟩⟩

/-! ## Code -/

/-- The limit is checked behind every group, which comes to one check of the sum. -/
theorem accepts_locals (groups : Nat) : ∀ total, Accepts (locals groups total)
    (fun o bs n => ∃ gs, Items localGroup o bs gs ∧ gs.length = groups ∧ n = total + gs.sum ∧
      (gs ≠ [] → total + gs.sum ≤ 50000)) := by
  induction groups with
  | zero =>
    intro total
    refine (accepts_pure total).congr fun o bs n => ?_
    constructor
    · rintro ⟨rfl, rfl⟩
      exact ⟨[], .nil, rfl, by simp, by simp⟩
    · rintro ⟨gs, hi, hlen, rfl, -⟩
      obtain rfl := List.length_eq_zero_iff.mp hlen
      cases hi
      exact ⟨rfl, by simp⟩
  | succ groups ih =>
    intro total
    refine (accepts_bind (accepts_adaptExcept accepts_unsigned _) fun v =>
      accepts_bind accepts_valueType fun _ =>
        accepts_bind (accepts_checkLimit .localSlot (total + v.toNat) Limits.locals) fun _ =>
          ih (total + v.toNat)).congr fun o bs n => ?_
    constructor
    · rintro ⟨v, cs, _, rfl, hv, _, _, ds, rfl, rfl, _, _, ds, rfl, ⟨rfl, hle⟩, gs, hi, rfl, rfl,
        hsum⟩
      have hle : total + v.toNat ≤ 50000 := hle
      refine ⟨v.toNat :: gs, ?_, rfl, ?_, fun _ => ?_⟩
      · have hitems := Items.cons (G := localGroup) (o := o) ⟨cs, rfl, v, hv, rfl⟩
          (show Items localGroup (o + (cs ++ [0x7f]).length) ds gs by
            simpa [Nat.add_assoc] using hi)
        simpa using hitems
      · rw [List.sum_cons, Nat.add_assoc]
      · rw [List.sum_cons]
        by_cases hgs : gs = []
        · simpa [hgs] using hle
        · have := hsum hgs
          omega
    · rintro ⟨gs, hi, hlen, rfl, hsum⟩
      cases hi with
      | nil => cases hlen
      | @cons _ _ ds g gs hg hi =>
        obtain ⟨cs, rfl, v, hv, rfl⟩ := hg
        have hsum := hsum (List.cons_ne_nil _ _)
        rw [List.sum_cons] at hsum ⊢
        refine ⟨v, cs, 0x7f :: ds, by simp, hv, (), [0x7f], ds, rfl, rfl, (), [], ds, rfl,
          ⟨rfl, ?_⟩, gs, ?_, Nat.succ.inj hlen, by omega, fun _ => by omega⟩
        · change total + v.toNat ≤ 50000
          omega
        · simpa [Nat.add_assoc] using hi

/-- The groups of locals at the front of a body. -/
theorem accepts_localCount : Accepts
    (do
      let groups ← Window.unsigned
      locals groups.toNat 0 : Read DecodeError Nat)
    (fun o bs n => ∃ gs, vector localGroup o bs gs ∧ gs.sum ≤ 50000 ∧ n = gs.sum) := by
  refine (accepts_bind (accepts_adaptExcept accepts_unsigned _) fun v =>
    accepts_locals v.toNat 0).congr fun o bs n => ?_
  constructor
  · rintro ⟨v, cs, ds, rfl, hv, gs, hi, hlen, rfl, hsum⟩
    refine ⟨gs, ⟨cs, ds, rfl, ⟨v, hv, hlen⟩, hi⟩, ?_, Nat.zero_add _⟩
    by_cases hgs : gs = []
    · simp [hgs]
    · have := hsum hgs
      omega
  · rintro ⟨gs, ⟨cs, ds, rfl, ⟨v, hv, hlen⟩, hi⟩, hsum, rfl⟩
    exact ⟨v, cs, ds, rfl, hv, gs, hi, hlen, (Nat.zero_add _).symm, fun _ => by omega⟩

/-- What a body says: groups of locals, and all bytes behind them. -/
def bodyParts (o : Nat) (bs : List UInt8) (b : Body) : Prop :=
  ∃ ls code gs, bs = ls ++ code ∧ vector localGroup o ls gs ∧ gs.sum ≤ 50000 ∧
    b = ⟨gs.sum, code.toArray, o + ls.length⟩

theorem bodyContents_eq_ok_iff {w : Window} {b : Body} :
    (∃ w', bodyContents w = .ok b w') ↔ bodyParts w.offset w.rest b := by
  constructor
  · rintro ⟨w', h⟩
    obtain ⟨groups, w₁, hg, h⟩ := bind_eq_ok_iff.mp h
    obtain ⟨n, w₂, hl, h⟩ := bind_eq_ok_iff.mp h
    obtain ⟨ls, code, hw, rfl, gs, hv, hsum, rfl⟩ :=
      (accepts_localCount w n w₂).mp (bind_eq_ok_iff.mpr ⟨groups, w₁, hg, hl⟩)
    cases h
    exact ⟨ls, code, gs, hw, hv, hsum, rfl⟩
  · rintro ⟨ls, code, gs, hw, hv, hsum, rfl⟩
    obtain ⟨groups, w₁, hg, hl⟩ := bind_eq_ok_iff.mp
      ((accepts_localCount w gs.sum _).mpr ⟨ls, code, hw, rfl, gs, hv, hsum, rfl⟩)
    exact ⟨_, bind_eq_ok_iff.mpr ⟨groups, w₁, hg, bind_eq_ok_iff.mpr ⟨_, _, hl, rfl⟩⟩⟩

theorem accepts_split (n : Nat) :
    Accepts (Window.split n) (fun o bs window => bs.length = n ∧ window = ⟨o, o, bs⟩) := by
  refine (accepts_bind accepts_here fun start =>
    accepts_bind (accepts_bytes n) fun taken => accepts_pure (⟨start, start, taken⟩ : Window)).congr
      fun o bs window => ?_
  constructor
  · rintro ⟨_, _, _, rfl, ⟨rfl, rfl⟩, _, bs, _, rfl, ⟨rfl, rfl⟩, rfl, rfl⟩
    simp
  · rintro ⟨rfl, rfl⟩
    exact ⟨o, [], bs, rfl, ⟨rfl, rfl⟩, bs, bs, [], by simp, ⟨rfl, rfl⟩, rfl, rfl⟩

theorem accepts_within {α : Type} (window : Window) (contents : Read DecodeError α) :
    Accepts (within window contents)
      (fun _ bs a => bs = [] ∧ ∃ w', contents window = .ok a w') := by
  unfold within
  cases contents window with
  | error e w' => exact (accepts_throw e).congr fun o bs a => by simp
  | ok a w' =>
    refine (accepts_pure a).congr fun o bs b => ?_
    simp [nothing, eq_comm]

theorem accepts_body : Accepts Decode.body Format.body := by
  refine (accepts_bind (accepts_count .functionBodyByte Limits.bodyBytes) fun size =>
    accepts_bind (accepts_adaptExcept (accepts_split size) _) fun window =>
      accepts_within window bodyContents).congr fun o bs b => ?_
  constructor
  · rintro ⟨size, cs, _, rfl, ⟨hn, hle⟩, window, ds, _, rfl, ⟨rfl, rfl⟩, rfl, h⟩
    obtain ⟨ls, code, gs, rfl, hv, hsum, rfl⟩ := bodyContents_eq_ok_iff.mp h
    refine ⟨cs, ls, code, gs, by simp, hn, hle, hv, hsum, rfl⟩
  · rintro ⟨cs, ls, code, gs, rfl, hn, hle, hv, hsum, rfl⟩
    refine ⟨_, cs, ls ++ code, rfl, ⟨hn, hle⟩, _, ls ++ code, [], by simp, ⟨rfl, rfl⟩, rfl, ?_⟩
    exact bodyContents_eq_ok_iff.mpr ⟨ls, code, gs, rfl, hv, hsum, rfl⟩

theorem accepts_codeSection : Accepts codeSection
    (fun o bs array => ∃ as, bodies o bs as ∧ array = as.toArray) :=
  accepts_vector .functionBody Limits.functions accepts_body

/-! ## Data -/

theorem accepts_byteVector : Accepts Window.byteVector
    (fun o bs bytes => ∃ ns, bs = ns ++ bytes ∧ number o ns bytes.length) := by
  refine (accepts_bind accepts_unsigned fun v => accepts_bytes v.toNat).congr fun o bs bytes => ?_
  constructor
  · rintro ⟨v, ns, _, rfl, hv, hlen, rfl⟩
    exact ⟨ns, rfl, v, hv, hlen⟩
  · rintro ⟨ns, rfl, v, hv, hlen⟩
    exact ⟨v, ns, bytes, rfl, hv, hlen, rfl⟩

theorem accepts_dataSegment : Accepts dataSegment segment := by
  refine (accepts_bind (accepts_adaptExcept accepts_unsigned _) fun index =>
    accepts_unless (c := index ≠ 0) (accepts_bind accepts_here fun offset =>
      accepts_bind (accepts_adaptExcept accepts_byte _) fun opening =>
        accepts_unless (c := opening ≠ 0x41)
          (accepts_bind (accepts_adaptExcept accepts_signed _) fun address =>
            accepts_bind (accepts_adaptExcept accepts_byte _) fun closing =>
              accepts_unless (c := closing ≠ 0x0b)
                (accepts_bind (accepts_adaptExcept accepts_byteVector _) fun bytes =>
                  accepts_pure (address, bytes))))).congr fun o bs s => ?_
  constructor
  · rintro ⟨index, is, _, rfl, hindex, hzero, _, _, _, rfl, ⟨rfl, -⟩, opening, _, _, rfl, rfl,
      hopen, address, as, _, rfl, ha, closing, _, _, rfl, rfl, hclose, bytes, _, _, rfl,
      ⟨ns, rfl, hn⟩, rfl, rfl⟩
    obtain rfl : index = 0 := not_not.mp hzero
    obtain rfl : opening = 0x41 := not_not.mp hopen
    obtain rfl : closing = 0x0b := not_not.mp hclose
    exact ⟨is, as, ns, by simp, ⟨0, hindex, rfl⟩, ha, hn⟩
  · obtain ⟨address, bytes⟩ := s
    rintro ⟨is, as, ns, rfl, ⟨index, hindex, hzero⟩, ha, hn⟩
    obtain rfl : index = 0 := BitVec.eq_of_toNat_eq hzero.symm
    exact ⟨0, is, _, rfl, hindex, by simp, o + is.length, [], _, rfl, ⟨rfl, rfl⟩, 0x41, [0x41], _,
      rfl, rfl, by simp, address, as, _, rfl, ha, 0x0b, [0x0b], _, rfl, rfl, by simp, bytes,
      ns ++ bytes, [], by simp, ⟨ns, rfl, hn⟩, rfl, rfl⟩

/-- Writing a segment into a memory that has to hold it. -/
theorem accepts_write {α : Type} (m : Memory) (s : Memory.Segment)
    {f : Memory → Read DecodeError α} {H : Memory → Grammar α} (h : ∀ m', (f m').Accepts (H m')) :
    Accepts (match m.write s.1 s.2 with
        | .ok _ memory => f memory
        | .error cause _ => throw (.dataSegmentBounds cause))
      (fun o bs a => s.Fits m.data.size ∧ H (m.put s.1.toNat s.2) o bs a) := by
  cases hw : m.write s.1 s.2 with
  | ok u m' =>
    obtain ⟨hfits, rfl⟩ := Memory.write_eq_ok_iff.mp hw
    exact (h _).congr fun o bs a => by simp [hfits]
  | error cause m' =>
    refine (accepts_throw _).congr fun o bs a => ?_
    simp only [false_iff]
    rintro ⟨hfits, -⟩
    have hok := Memory.write_eq_ok_iff.mpr ⟨hfits, rfl⟩
    rw [hw] at hok
    cases hok

theorem accepts_dataSegments (n : Nat) : ∀ m, Accepts (dataSegments n m)
    (fun o bs m' => ∃ ss, Items segment o bs ss ∧ ss.length = n ∧
      (∀ s ∈ ss, Memory.Segment.Fits m.data.size s) ∧ m' = m.putAll ss) := by
  induction n with
  | zero =>
    intro m
    refine (accepts_pure m).congr fun o bs m' => ?_
    constructor
    · rintro ⟨rfl, rfl⟩
      exact ⟨[], .nil, rfl, by simp, rfl⟩
    · rintro ⟨ss, hi, hlen, -, rfl⟩
      obtain rfl := List.length_eq_zero_iff.mp hlen
      cases hi
      exact ⟨rfl, rfl⟩
  | succ n ih =>
    intro m
    refine (accepts_bind accepts_dataSegment fun s => accepts_write m s ih).congr
      fun o bs m' => ?_
    constructor
    · rintro ⟨s, bs, cs, rfl, hs, hfits, ss, hi, rfl, hall, rfl⟩
      rw [Memory.size_put] at hall
      exact ⟨s :: ss, .cons hs hi, rfl, List.forall_mem_cons.mpr ⟨hfits, hall⟩, rfl⟩
    · rintro ⟨ss, hi, hlen, hall, rfl⟩
      cases hi with
      | nil => cases hlen
      | @cons _ bs cs s ss hs hi =>
        obtain ⟨hfits, hall⟩ := List.forall_mem_cons.mp hall
        refine ⟨s, bs, cs, rfl, hs, hfits, ss, hi, Nat.succ.inj hlen, ?_, rfl⟩
        rwa [Memory.size_put]

theorem accepts_dataSection (m : Memory) : Accepts (dataSection m)
    (fun o bs m' => ∃ ss, segments o bs ss ∧ (∀ s ∈ ss, Memory.Segment.Fits m.data.size s) ∧
      m' = m.putAll ss) := by
  refine (accepts_bind (accepts_count .dataSegment Limits.dataSegments) fun n =>
    accepts_dataSegments n m).congr fun o bs m' => ?_
  constructor
  · rintro ⟨n, cs, ds, rfl, ⟨hn, hle⟩, ss, hi, rfl, hall, rfl⟩
    exact ⟨ss, ⟨⟨cs, ds, rfl, hn, hi⟩, hle⟩, hall, rfl⟩
  · rintro ⟨ss, ⟨⟨cs, ds, rfl, hn, hi⟩, hle⟩, hall, rfl⟩
    exact ⟨ss.length, cs, ds, rfl, ⟨hn, hle⟩, ss, hi, rfl, hall, rfl⟩

end Decode

end WasmI32
