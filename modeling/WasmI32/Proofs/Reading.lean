import WasmI32.Proofs.Leb128
import WasmI32.Window

/-!
# What readers accept

A grammar says which byte strings stand for which values. A reader accepts a grammar if it
succeeds exactly on the windows that start with a string of the grammar, reads over that string and
answers its value. Readers made of smaller ones accept the concatenation of their grammars. Which
error a reader gives where it does not succeed is left open here.
-/

namespace WasmI32

section Bind

variable {ε σ α β : Type} {x : EStateM ε σ α} {f : α → EStateM ε σ β} {s s₁ : σ}

theorem bind_of_ok {a : α} (h : x s = .ok a s₁) : (x >>= f) s = f a s₁ := by
  change EStateM.bind x f s = _
  rw [EStateM.bind, h]

theorem bind_of_error {e : ε} (h : x s = .error e s₁) : (x >>= f) s = .error e s₁ := by
  change EStateM.bind x f s = _
  rw [EStateM.bind, h]

theorem bind_eq_ok_iff {s' : σ} {b : β} :
    (x >>= f) s = .ok b s' ↔ ∃ a s₁, x s = .ok a s₁ ∧ f a s₁ = .ok b s' := by
  change EStateM.bind x f s = _ ↔ _
  unfold EStateM.bind
  cases h : x s with
  | ok a s₁ => simp
  | error e s₁ => simp

theorem bind_eq_error {s' : σ} {e : ε} (h : (x >>= f) s = .error e s') :
    x s = .error e s' ∨ ∃ a s₁, x s = .ok a s₁ ∧ f a s₁ = .error e s' := by
  cases hx : x s with
  | ok a s₁ =>
    rw [bind_of_ok hx] at h
    exact .inr ⟨a, s₁, rfl, h⟩
  | error e' s₁ =>
    rw [bind_of_error hx] at h
    cases h
    exact .inl rfl

theorem adaptExcept_of_ok {ε' : Type} {a : α} (h : x s = .ok a s₁) (f : ε → ε') :
    EStateM.adaptExcept f x s = .ok a s₁ := by
  rw [EStateM.adaptExcept, h]

theorem adaptExcept_of_error {ε' : Type} {e : ε} (h : x s = .error e s₁) (f : ε → ε') :
    EStateM.adaptExcept f x s = .error (f e) s₁ := by
  rw [EStateM.adaptExcept, h]

end Bind

theorem Window.here_eq_ok {ε : Type} (w : Window) : (here : Read ε Nat) w = .ok w.offset w := rfl

/-- Byte strings with the values they stand for. A string may stand for another value at another
offset of the input, which is the first argument. -/
abbrev Grammar (α : Type) := Nat → List UInt8 → α → Prop

namespace Window

/-- The window behind `n` bytes with these bytes left. -/
def behind (w : Window) (n : Nat) (rest : List UInt8) : Window := ⟨w.start, w.offset + n, rest⟩

@[simp] theorem behind_rest (w : Window) (n : Nat) (rest : List UInt8) :
    (w.behind n rest).rest = rest := rfl

@[simp] theorem behind_offset (w : Window) (n : Nat) (rest : List UInt8) :
    (w.behind n rest).offset = w.offset + n := rfl

theorem behind_behind (w : Window) (m n : Nat) (r s : List UInt8) :
    (w.behind m r).behind n s = w.behind (m + n) s := by
  simp [behind, Nat.add_assoc]

theorem advance_eq_behind (w : Window) (n : Nat) : w.advance n = w.behind n (w.rest.drop n) := rfl

theorem advance_append {w : Window} {bs rest : List UInt8} (h : w.rest = bs ++ rest) :
    w.advance bs.length = w.behind bs.length rest := by
  rw [advance_eq_behind, h, List.drop_left]

end Window

namespace Read

variable {ε ε' α β : Type}

/-- The reader succeeds exactly on the windows that start with a string of the grammar. -/
def Accepts (x : Read ε α) (G : Grammar α) : Prop :=
  ∀ w a w', x w = .ok a w' ↔
    ∃ bs rest, w.rest = bs ++ rest ∧ w' = w.behind bs.length rest ∧ G w.offset bs a

theorem Accepts.congr {x : Read ε α} {G H : Grammar α} (h : x.Accepts G)
    (he : ∀ o bs a, G o bs a ↔ H o bs a) : x.Accepts H := by
  have hGH : G = H := by
    funext o bs a
    exact propext (he o bs a)
  exact hGH ▸ h

/-- A string of the grammar is read over, whatever follows it. -/
theorem Accepts.run {x : Read ε α} {G : Grammar α} (h : x.Accepts G) {w : Window}
    {bs rest : List UInt8} {a : α} (hw : w.rest = bs ++ rest) (hg : G w.offset bs a) :
    x w = .ok a (w.behind bs.length rest) :=
  (h w a _).mpr ⟨bs, rest, hw, rfl, hg⟩

/-- The strings of `G` followed by those that the value of the first part asks for. -/
def seq (G : Grammar α) (H : α → Grammar β) : Grammar β := fun o bs b =>
  ∃ a bs₁ bs₂, bs = bs₁ ++ bs₂ ∧ G o bs₁ a ∧ H a (o + bs₁.length) bs₂ b

theorem accepts_bind {x : Read ε α} {f : α → Read ε β} {G : Grammar α} {H : α → Grammar β}
    (hx : x.Accepts G) (hf : ∀ a, (f a).Accepts (H a)) : Accepts (x >>= f) (seq G H) := by
  intro w b w'
  rw [bind_eq_ok_iff]
  constructor
  · rintro ⟨a, v, h1, h2⟩
    obtain ⟨bs₁, r₁, hw, rfl, hg⟩ := (hx w a v).mp h1
    obtain ⟨bs₂, r₂, hr, rfl, hh⟩ := (hf a _ b w').mp h2
    refine ⟨bs₁ ++ bs₂, r₂, ?_, ?_, a, bs₁, bs₂, rfl, hg, hh⟩
    · rw [hw, List.append_assoc]
      exact congrArg (bs₁ ++ ·) hr
    · rw [Window.behind_behind, List.length_append]
  · rintro ⟨bs, rest, hw, rfl, a, bs₁, bs₂, rfl, hg, hh⟩
    rw [List.append_assoc] at hw
    refine ⟨a, _, hx.run hw hg, (hf a _ b _).mpr ⟨bs₂, rest, rfl, ?_, hh⟩⟩
    rw [Window.behind_behind, List.length_append]

/-- The empty string, which stands for `a`. -/
def nothing (a : α) : Grammar α := fun _ bs b => bs = [] ∧ b = a

/-- A reader that reads no byte and answers what the offset says. -/
theorem accepts_of_unmoved {x : Read ε α} {f : Nat → α} (hx : ∀ w, x w = .ok (f w.offset) w) :
    x.Accepts fun o bs a => bs = [] ∧ a = f o := by
  intro w b w'
  rw [hx w]
  constructor
  · intro h
    obtain ⟨rfl, rfl⟩ := EStateM.Result.ok.inj h
    exact ⟨[], w.rest, rfl, rfl, rfl, rfl⟩
  · rintro ⟨bs, rest, hw, rfl, rfl, rfl⟩
    rw [List.nil_append] at hw
    rw [← hw]
    rfl

theorem accepts_pure (a : α) : Accepts (pure a : Read ε α) (nothing a) :=
  accepts_of_unmoved (f := fun _ => a) fun _ => rfl

theorem accepts_throw (e : ε) : Accepts (throw e : Read ε α) (fun _ _ _ => False) := by
  intro w a w'
  change EStateM.Result.error e w = .ok a w' ↔ _
  simp

/-- A reader that gives up under a condition. -/
theorem accepts_unless {c : Prop} [Decidable c] {e : ε} {f : β → Read ε α} {x : Read ε α}
    {G : Grammar α} (hx : x.Accepts G) :
    Accepts (if c then throw e >>= f else x) (fun o bs a => ¬c ∧ G o bs a) := by
  by_cases hc : c
  · rw [if_pos hc]
    intro w a w'
    change EStateM.Result.error e w = .ok a w' ↔ _
    simp [hc]
  · rw [if_neg hc]
    exact hx.congr fun o bs a => by simp [hc]

theorem accepts_ite {c : Prop} [Decidable c] {x y : Read ε α} {G H : Grammar α} (hx : x.Accepts G)
    (hy : y.Accepts H) :
    Accepts (if c then x else y) (fun o bs a => c ∧ G o bs a ∨ ¬c ∧ H o bs a) := by
  by_cases hc : c
  · rw [if_pos hc]
    exact hx.congr fun o bs a => by simp [hc]
  · rw [if_neg hc]
    exact hy.congr fun o bs a => by simp [hc]

theorem accepts_adaptExcept {x : Read ε α} {G : Grammar α} (hx : x.Accepts G) (f : ε → ε') :
    Accepts (EStateM.adaptExcept f x) G := by
  intro w a w'
  rw [← hx w a w']
  unfold EStateM.adaptExcept
  cases x w <;> simp

/-! ## The readers of windows -/

theorem accepts_here : Accepts (Window.here : Read ε Nat) (fun o bs n => bs = [] ∧ n = o) :=
  accepts_of_unmoved (f := fun o => o) fun _ => rfl

theorem accepts_byte : Accepts Window.byte (fun _ bs b => bs = [b]) := by
  rintro ⟨start, offset, bytes⟩ a w'
  cases bytes with
  | nil => simp [Window.byte]
  | cons b bytes =>
    constructor
    · intro h
      obtain ⟨rfl, rfl⟩ := EStateM.Result.ok.inj h
      exact ⟨[b], bytes, rfl, rfl, rfl⟩
    · rintro ⟨bs, rest, hw, rfl, rfl⟩
      simp only [List.cons_append, List.nil_append, List.cons.injEq] at hw
      obtain ⟨rfl, rfl⟩ := hw
      rfl

theorem accepts_bytes (n : Nat) :
    Accepts (Window.bytes n) (fun _ bs taken => bs.length = n ∧ taken = bs) := by
  intro w a w'
  unfold Window.bytes
  simp only [List.length_take]
  constructor
  · intro h
    split at h
    · simp at h
    · rename_i hn
      obtain ⟨rfl, rfl⟩ := EStateM.Result.ok.inj h
      have hl : (w.rest.take n).length = n := by
        rw [List.length_take]
        omega
      refine ⟨w.rest.take n, w.rest.drop n, (List.take_append_drop n _).symm, ?_, hl, rfl⟩
      rw [hl, Window.advance_eq_behind]
  · rintro ⟨bs, rest, hw, rfl, rfl, rfl⟩
    rw [Window.advance_append hw, hw]
    simp

theorem accepts_integer {decode : List UInt8 → Except Leb128.Fault (Word × Nat)}
    {Encodes : List UInt8 → Word → Prop}
    (h : ∀ {bytes v n}, decode bytes = .ok (v, n) ↔
      ∃ bs rest, bytes = bs ++ rest ∧ n = bs.length ∧ Encodes bs v) :
    Accepts (Window.integer decode) (fun _ bs v => Encodes bs v) := by
  intro w v w'
  unfold Window.integer
  constructor
  · intro hr
    split at hr
    · rename_i v' n hd
      obtain ⟨bs, rest, hb, rfl, he⟩ := h.mp hd
      obtain ⟨rfl, rfl⟩ := EStateM.Result.ok.inj hr
      exact ⟨bs, rest, hb, Window.advance_append hb, he⟩
    · simp at hr
    · simp at hr
  · rintro ⟨bs, rest, hb, rfl, he⟩
    rw [h.mpr ⟨bs, rest, hb, rfl, he⟩]
    simp only [Window.advance_append hb]

theorem accepts_unsigned : Accepts Window.unsigned (fun _ bs v => Leb128.Unsigned bs v) :=
  accepts_integer Leb128.decodeUnsigned_eq_ok_iff

theorem accepts_signed : Accepts Window.signed (fun _ bs v => Leb128.Signed bs v) :=
  accepts_integer Leb128.decodeSigned_eq_ok_iff

end Read

end WasmI32
