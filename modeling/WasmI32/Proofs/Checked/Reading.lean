import WasmI32.Proofs.Checked.Partial
import WasmI32.Proofs.Reading

/-!
# Reading without misuse

A cursor is a window that still has the bytes it has read: a run of bytes and a position in it. What
is left of it is a difference, and the bytes that a read gives are a part of the run. A checked read
of a cursor tracks a read of a window if it gives the same answer or error, leaves the cursor that
shows the same window, and misuses nothing. That holds of cursors whose position is inside their
bytes, and reads leave it there.
-/

namespace WasmI32

/-- A run of bytes that is being read. -/
structure Cursor where
  bytes : List UInt8
  /-- How many bytes have been read. -/
  position : Nat
  /-- Where the bytes start in the whole input. -/
  base : Nat
  deriving DecidableEq, Repr

namespace Cursor

def offset (c : Cursor) : Nat := c.base + c.position

/-- The bytes that are left, as a window. -/
def window (c : Cursor) : Window := ⟨c.base, c.offset, c.bytes.drop c.position⟩

/-- The position is one of the bytes, or just behind the last one. -/
def Inside (c : Cursor) : Prop := c.position ≤ c.bytes.length

def move (c : Cursor) (n : Nat) : Cursor := { c with position := c.position + n }

/-- A cursor in front of all its bytes. -/
def fresh (bytes : List UInt8) (base : Nat) : Cursor := ⟨bytes, 0, base⟩

theorem inside_fresh (bytes : List UInt8) (base : Nat) : (fresh bytes base).Inside :=
  Nat.zero_le _

theorem window_fresh (bytes : List UInt8) (base : Nat) :
    (fresh bytes base).window = ⟨base, base, bytes⟩ := rfl

theorem window_move (c : Cursor) (n : Nat) : (c.move n).window = c.window.advance n := by
  simp only [move, window, offset, Window.advance, List.drop_drop, Nat.add_assoc]

theorem length_rest (c : Cursor) : c.window.rest.length = c.bytes.length - c.position :=
  List.length_drop

theorem inside_move {c : Cursor} {n : Nat} (hc : c.Inside) (hn : n ≤ c.window.rest.length) :
    (c.move n).Inside := by
  rw [length_rest] at hn
  unfold Inside at hc
  show c.position + n ≤ c.bytes.length
  omega

end Cursor

/-! ## Reads that only move on -/

namespace Read

variable {ε ε' α β : Type}

/-- A read leaves the window behind some of its bytes, also when it fails. -/
def Advances (x : Read ε α) : Prop :=
  ∀ w, ∃ n ≤ w.rest.length, stateOf (x w) = w.advance n

theorem advances_of_ok {x : Read ε α} (h : ∀ w, ∃ a, x w = .ok a w) : Advances x := by
  intro w
  obtain ⟨a, ha⟩ := h w
  exact ⟨0, Nat.zero_le _, by rw [ha]; rfl⟩

theorem advances_pure (a : α) : Advances (pure a : Read ε α) := advances_of_ok fun _ => ⟨a, rfl⟩

theorem advances_here : Advances (Window.here : Read ε Nat) :=
  advances_of_ok fun w => ⟨w.offset, rfl⟩

theorem advances_throw (e : ε) : Advances (throw e : Read ε α) :=
  fun w => ⟨0, Nat.zero_le w.rest.length, rfl⟩

theorem advances_bind {x : Read ε α} {f : α → Read ε β} (hx : Advances x)
    (hf : ∀ a, Advances (f a)) : Advances (x >>= f) := by
  intro w
  obtain ⟨n, hn, hw⟩ := hx w
  cases h : x w with
  | error e w₁ =>
    rw [h] at hw
    exact ⟨n, hn, by rw [bind_of_error h]; exact hw⟩
  | ok a w₁ =>
    rw [h] at hw
    obtain ⟨k, hk, hw'⟩ := hf a w₁
    obtain rfl : w₁ = w.advance n := hw
    rw [Window.advance, List.length_drop] at hk
    refine ⟨n + k, by omega, ?_⟩
    rw [bind_of_ok h, hw']
    simp only [Window.advance, List.drop_drop, Nat.add_assoc]

theorem advances_ite {c : Prop} [Decidable c] {x y : Read ε α} (hx : Advances x)
    (hy : Advances y) : Advances (if c then x else y) := by
  split
  · exact hx
  · exact hy

/-- A read that gives up under a condition. -/
theorem advances_unless {c : Prop} [Decidable c] {e : ε} {f : β → Read ε α} {x : Read ε α}
    (hx : Advances x) : Advances (if c then throw e >>= f else x) :=
  advances_ite (fun w => ⟨0, Nat.zero_le w.rest.length, rfl⟩) hx

theorem advances_adaptExcept {x : Read ε α} (hx : Advances x) (f : ε → ε') :
    Advances (EStateM.adaptExcept f x) := by
  intro w
  obtain ⟨n, hn, hw⟩ := hx w
  refine ⟨n, hn, ?_⟩
  rw [← hw]
  unfold EStateM.adaptExcept
  cases x w <;> rfl

theorem advances_byte : Advances Window.byte := by
  rintro ⟨start, offset, bytes⟩
  cases bytes with
  | nil => exact ⟨0, Nat.zero_le _, rfl⟩
  | cons b rest => exact ⟨1, Nat.le_add_left _ _, rfl⟩

/-- A read that accepts a grammar and leaves the window alone when it fails. -/
theorem advances_of_accepts {x : Read ε α} {G : Grammar α} (hx : x.Accepts G)
    (herror : ∀ w e w', x w = .error e w' → w' = w) : Advances x := by
  intro w
  cases h : x w with
  | error e w₁ =>
    obtain rfl := herror w e w₁ h
    exact ⟨0, Nat.zero_le _, rfl⟩
  | ok a w₁ =>
    obtain ⟨bs, rest, hrest, rfl, -⟩ := (hx w a w₁).mp h
    refine ⟨bs.length, ?_, (Window.advance_append hrest).symm⟩
    rw [hrest, List.length_append]
    omega

theorem integer_eq_error {decode : List UInt8 → Except Leb128.Fault (Word × Nat)} {w w' : Window}
    {e : ReadError} (h : Window.integer decode w = .error e w') : w' = w := by
  unfold Window.integer at h
  split at h <;> cases h <;> rfl

theorem advances_unsigned : Advances Window.unsigned :=
  advances_of_accepts accepts_unsigned fun _ _ _ => integer_eq_error

theorem advances_signed : Advances Window.signed :=
  advances_of_accepts accepts_signed fun _ _ _ => integer_eq_error

theorem advances_times {item : Read ε α} (h : Advances item) (n : Nat) :
    Advances (item.times n) := by
  have hgo : ∀ (n : Nat) (answers : Array α), Advances (times.go item n answers) := by
    intro n
    induction n with
    | zero => exact fun answers => advances_pure answers
    | succ n ih => exact fun answers => advances_bind h fun a => ih (answers.push a)
  exact hgo n #[]

end Read

namespace Checked

open Partial

variable {ε ε' α β : Type}

/-! ## Checked reads -/

/-- A read with no partial operation in it. The cursor moves on as far as the window does. -/
def moved (x : Read ε α) : Checked ε Cursor α := fun c =>
  match x c.window with
  | .ok a w => .ok a (c.move (w.offset - c.offset))
  | .error e w => .error (.declared e) (c.move (w.offset - c.offset))

def remaining : Checked ε Cursor Nat := do
  let c ← get
  ask (difference c.bytes.length c.position)

/-- Reads `n` bytes, or none if fewer are left. -/
def bytesOf (n : Nat) : Checked ReadError Cursor (List UInt8) := do
  let left ← remaining
  let c ← get
  if left < n then throw (.declared (.truncated (c.base + c.bytes.length)))
  else
    let taken ← ask (part c.bytes c.position (c.position + n))
    set (c.move n)
    return taken

/-- Reads all bytes that are left. -/
def takeRest : Checked ReadError Cursor (List UInt8) := do
  let left ← remaining
  bytesOf left

/-- Splits the next `n` bytes off as a cursor of their own and reads over them. -/
def split (n : Nat) : Checked ReadError Cursor Cursor := do
  let c ← get
  let taken ← bytesOf n
  return .fresh taken c.offset

/-- Reads a length and then that many bytes. -/
def byteVector : Checked ReadError Cursor (List UInt8) := do
  let n ← moved Window.unsigned
  bytesOf n.toNat

/-- Runs `item` `n` times and collects the answers in order. -/
def times (item : Checked ε Cursor α) (n : Nat) : Checked ε Cursor (Array α) := go n #[]
where
  go : Nat → Array α → Checked ε Cursor (Array α)
    | 0, answers => pure answers
    | n + 1, answers => do
      let a ← item
      go n (answers.push a)

/-! ## Tracking -/

/-- The outcome of a checked read is that of a read of the window. -/
inductive Mirrors : EStateM.Result (Failure ε) Cursor α → EStateM.Result ε Window α → Prop
  | ok {a : α} {c : Cursor} (hc : c.Inside) : Mirrors (.ok a c) (.ok a c.window)
  | error {e : ε} {c : Cursor} (hc : c.Inside) :
    Mirrors (.error (.declared e) c) (.error e c.window)

def Tracks (y : Checked ε Cursor α) (x : Read ε α) : Prop :=
  ∀ c : Cursor, c.Inside → Mirrors (y c) (x c.window)

theorem tracks_pure (a : α) : Tracks (pure a : Checked ε Cursor α) (pure a) := fun _ hc => .ok hc

theorem tracks_throw (e : ε) : Tracks (throw (.declared e) : Checked ε Cursor α) (throw e) :=
  fun _ hc => .error hc

theorem tracks_bind {y : Checked ε Cursor α} {g : α → Checked ε Cursor β} {x : Read ε α}
    {f : α → Read ε β} (hx : Tracks y x) (hf : ∀ a, Tracks (g a) (f a)) :
    Tracks (y >>= g) (x >>= f) := by
  intro c hc
  have h := hx c hc
  generalize hy : y c = r at h
  generalize hw : x c.window = r' at h
  cases h with
  | ok hc₁ =>
    rw [bind_of_ok hy, bind_of_ok hw]
    exact hf _ _ hc₁
  | error hc₁ =>
    rw [bind_of_error hy, bind_of_error hw]
    exact .error hc₁

theorem tracks_ite {p : Prop} [Decidable p] {y y' : Checked ε Cursor α} {x x' : Read ε α}
    (h : Tracks y x) (h' : Tracks y' x') :
    Tracks (if p then y else y') (if p then x else x') := by
  split
  · exact h
  · exact h'

/-- Reads that give up under a condition. -/
theorem tracks_unless {p : Prop} [Decidable p] {e : ε} {g : β → Checked ε Cursor α}
    {f : β → Read ε α} {y : Checked ε Cursor α} {x : Read ε α} (h : Tracks y x) :
    Tracks (if p then throw (.declared e) >>= g else y) (if p then throw e >>= f else x) :=
  tracks_ite (fun _ hc => .error hc) h

theorem tracks_adaptExcept {y : Checked ε Cursor α} {x : Read ε α} (h : Tracks y x) (f : ε → ε') :
    Tracks (EStateM.adaptExcept (Failure.map f) y) (EStateM.adaptExcept f x) := by
  intro c hc
  have hm := h c hc
  unfold EStateM.adaptExcept
  generalize y c = r at hm
  generalize x c.window = r' at hm
  cases hm with
  | ok hc₁ => exact .ok hc₁
  | error hc₁ => exact .error hc₁

theorem tracks_moved {x : Read ε α} (hx : x.Advances) : Tracks (moved x) x := by
  intro c hc
  obtain ⟨n, hn, hw⟩ := hx c.window
  have hback : (c.window.advance n).offset - c.offset = n := Nat.add_sub_cancel_left _ _
  unfold moved
  cases h : x c.window with
  | ok a w =>
    rw [h] at hw
    obtain rfl : w = c.window.advance n := hw
    simp only [hback]
    rw [← Cursor.window_move]
    exact .ok (Cursor.inside_move hc hn)
  | error e w =>
    rw [h] at hw
    obtain rfl : w = c.window.advance n := hw
    simp only [hback]
    rw [← Cursor.window_move]
    exact .error (Cursor.inside_move hc hn)

theorem remaining_eq {c : Cursor} (hc : c.Inside) :
    (remaining : Checked ε Cursor Nat) c = .ok c.window.rest.length c := by
  rw [remaining, get_bind, difference_of_le hc, Cursor.length_rest]
  rfl

/-- Enough bytes: they are a part of the run. -/
theorem bytesOf_of_le {c : Cursor} {n : Nat} (hc : c.Inside) (hn : n ≤ c.window.rest.length) :
    bytesOf n c = .ok (c.window.rest.take n) (c.move n) := by
  have hfit : c.position + n ≤ c.bytes.length := Cursor.inside_move hc hn
  rw [bytesOf, bind_of_ok (remaining_eq hc), get_bind, if_neg (by omega),
    part_of_le (Nat.le_add_right _ _) hfit]
  show _ = EStateM.Result.ok ((c.bytes.drop c.position).take n) (c.move n)
  rw [List.take_drop]
  rfl

theorem tracks_bytesOf (n : Nat) : Tracks (bytesOf n) (Window.bytes n) := by
  intro c hc
  unfold Window.bytes
  simp only [List.length_take]
  by_cases hn : n ≤ c.window.rest.length
  · rw [bytesOf_of_le hc hn, if_neg (by omega), ← Cursor.window_move]
    exact .ok (Cursor.inside_move hc hn)
  · have hstop : c.window.stop = c.base + c.bytes.length := by
      have hlength := Cursor.length_rest c
      unfold Cursor.Inside at hc
      show c.base + c.position + c.window.rest.length = _
      omega
    rw [bytesOf, bind_of_ok (remaining_eq hc), get_bind, if_pos (by omega), if_pos (by omega),
      hstop]
    exact .error hc

theorem tracks_takeRest : Tracks takeRest Window.takeRest := by
  intro c hc
  have hrest : Window.takeRest (ε := ReadError) c.window =
      .ok (c.window.rest.take c.window.rest.length) (c.window.advance c.window.rest.length) := by
    simp only [Window.takeRest, Window.advance, Window.stop, List.take_length, List.drop_length]
  rw [takeRest, bind_of_ok (remaining_eq hc), bytesOf_of_le hc le_rfl, hrest, ← Cursor.window_move]
  exact .ok (Cursor.inside_move hc le_rfl)

theorem tracks_byteVector : Tracks byteVector Window.byteVector :=
  tracks_bind (tracks_moved Read.advances_unsigned) fun n => tracks_bytesOf n.toNat

theorem split_eq (n : Nat) (c : Cursor) :
    split n c = match bytesOf n c with
      | .ok taken c' => .ok (.fresh taken c.offset) c'
      | .error e c' => .error e c' := by
  rw [split, get_bind]
  cases h : bytesOf n c with
  | ok taken c' => rw [bind_of_ok h]; rfl
  | error e c' => rw [bind_of_error h]

/-- What is split off is read by itself, from its start. -/
theorem tracks_split_bind {n : Nat} {g : Cursor → Checked ε Cursor β} {f : Window → Read ε β}
    (φ : ReadError → ε)
    (hf : ∀ bytes base, Tracks (g (.fresh bytes base)) (f ⟨base, base, bytes⟩)) :
    Tracks (EStateM.adaptExcept (Failure.map φ) (split n) >>= g)
      (EStateM.adaptExcept φ (Window.split n) >>= f) := by
  intro c hc
  have hchecked : (EStateM.adaptExcept (Failure.map φ) (split n) >>= g) c =
      (EStateM.adaptExcept (Failure.map φ) (bytesOf n) >>= fun taken =>
        g (.fresh taken c.offset)) c := by
    simp only [bind, EStateM.bind, EStateM.adaptExcept, split_eq]
    cases bytesOf n c <;> rfl
  have hplain : (EStateM.adaptExcept φ (Window.split n) >>= f) c.window =
      (EStateM.adaptExcept φ (Window.bytes n) >>= fun taken =>
        f ⟨c.offset, c.offset, taken⟩) c.window := by
    simp only [Window.split, Window.here, bind, EStateM.bind, EStateM.adaptExcept]
    cases Window.bytes n c.window <;> rfl
  rw [hchecked, hplain]
  exact tracks_bind (tracks_adaptExcept (tracks_bytesOf n) φ) (fun taken => hf taken c.offset) c hc

theorem tracks_times {y : Checked ε Cursor α} {x : Read ε α} (h : Tracks y x) (n : Nat) :
    Tracks (times y n) (x.times n) := by
  have hgo : ∀ (n : Nat) (answers : Array α),
      Tracks (times.go y n answers) (Read.times.go x n answers) := by
    intro n
    induction n with
    | zero => exact fun answers => tracks_pure answers
    | succ n ih => exact fun answers => tracks_bind h fun a => ih (answers.push a)
  exact hgo n #[]

end Checked

end WasmI32
