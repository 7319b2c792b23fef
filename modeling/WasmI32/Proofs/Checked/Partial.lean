import WasmI32.Proofs.Structured.Effect

/-!
# Partial operations

A difference of natural numbers, an element or a part of a sequence, a quotient: each is an answer
only for some operands. A checked computation takes such answers from the operations below, which
report every use outside their domain. The checked forms of reading a module and of running it are
the plain ones with these operations put in, and fail in two ways: with an error of the engine, or
by a misuse. Where the checked form and the plain one come to the same, there is no misuse.
-/

namespace WasmI32

/-- A partial operation outside its domain. -/
inductive Misuse where
  /-- What is left of `a` without a larger `b`. -/
  | difference (a b : Nat)
  | element (index size : Nat)
  /-- The part from `start` up to `stop` of a sequence that does not have it. -/
  | part (start stop size : Nat)
  /-- A cut above the top. -/
  | cut (height size : Nat)
  | quotient
  deriving DecidableEq, Repr

/-- How a checked computation fails. -/
inductive Failure (ε : Type) where
  /-- With an error that it has as a plain one. -/
  | declared (e : ε)
  | misuse (cause : Misuse)
  deriving DecidableEq, Repr

def Failure.map {ε ε' : Type} (f : ε → ε') : Failure ε → Failure ε'
  | declared e => declared (f e)
  | misuse cause => misuse cause

/-- A computation that reports the misuse of partial operations. -/
abbrev Checked (ε σ α : Type) := EStateM (Failure ε) σ α

namespace Partial

variable {α : Type}

def difference (a b : Nat) : Except Misuse Nat :=
  if b ≤ a then .ok (a - b) else .error (.difference a b)

def element (xs : Array α) (index : Nat) : Except Misuse α :=
  match xs[index]? with
  | some a => .ok a
  | none => .error (.element index xs.size)

/-- The elements from `start` up to `stop`. -/
def part (xs : List α) (start stop : Nat) : Except Misuse (List α) :=
  if start ≤ stop ∧ stop ≤ xs.length then .ok ((xs.take stop).drop start)
  else .error (.part start stop xs.length)

/-- The bytes from `start` up to `stop`. -/
def bytes (data : ByteArray) (start stop : Nat) : Except Misuse ByteArray :=
  if start ≤ stop ∧ stop ≤ data.size then .ok (data.extract start stop)
  else .error (.part start stop data.size)

/-- The lowest `height` elements, and those above. -/
def cut (xs : Array α) (height : Nat) : Except Misuse (Array α × Array α) :=
  if height ≤ xs.size then .ok (xs.shrink height, xs.extract height xs.size)
  else .error (.cut height xs.size)

/-- A word to divide by. -/
def divisor (b : Word) : Except Misuse Word := if b = 0 then .error .quotient else .ok b

theorem difference_of_le {a b : Nat} (h : b ≤ a) : difference a b = .ok (a - b) := if_pos h

theorem element_of_some {xs : Array α} {index : Nat} {a : α} (h : xs[index]? = some a) :
    element xs index = .ok a := by
  rw [element, h]

theorem part_of_le {xs : List α} {start stop : Nat} (h : start ≤ stop) (hs : stop ≤ xs.length) :
    part xs start stop = .ok ((xs.take stop).drop start) := if_pos ⟨h, hs⟩

theorem bytes_of_le {data : ByteArray} {start stop : Nat} (h : start ≤ stop)
    (hs : stop ≤ data.size) : bytes data start stop = .ok (data.extract start stop) :=
  if_pos ⟨h, hs⟩

theorem cut_of_le {xs : Array α} {height : Nat} (h : height ≤ xs.size) :
    cut xs height = .ok (xs.shrink height, xs.extract height xs.size) := if_pos h

theorem divisor_of_ne {b : Word} (h : b ≠ 0) : divisor b = .ok b := if_neg h

end Partial

namespace Checked

variable {ε ε' σ α β : Type}

/-- A computation with no partial operation in it. -/
def total (x : EStateM ε σ α) : Checked ε σ α := x.adaptExcept Failure.declared

/-- A value that has no partial operation in it, or an error. -/
def totalValue (x : Except ε α) : Except (Failure ε) α := x.mapError Failure.declared

/-- The answer of a partial operation. -/
def ask (x : Except Misuse α) : Checked ε σ α := fun s =>
  match x with
  | .ok a => .ok a s
  | .error cause => .error (.misuse cause) s

/-- The answer of a partial operation, outside of any state. -/
def askValue (x : Except Misuse α) : Except (Failure ε) α := x.mapError Failure.misuse

theorem ask_ok (a : α) : (ask (.ok a) : Checked ε σ α) = pure a := rfl

theorem askValue_ok (a : α) : (askValue (.ok a) : Except (Failure ε) α) = .ok a := rfl

theorem total_of_ok {x : EStateM ε σ α} {s s₁ : σ} {a : α} (h : x s = .ok a s₁) :
    total x s = .ok a s₁ := by
  simp only [total, EStateM.adaptExcept, h]

theorem total_of_error {x : EStateM ε σ α} {s s₁ : σ} {e : ε} (h : x s = .error e s₁) :
    total x s = .error (.declared e) s₁ := by
  simp only [total, EStateM.adaptExcept, h]

theorem total_congr {x y : EStateM ε σ α} {s : σ} (h : x s = y s) : total x s = total y s := by
  simp only [total, EStateM.adaptExcept, h]

theorem get_bind (f : σ → Checked ε σ α) (s : σ) : (get >>= f) s = f s s := rfl

theorem total_bind (x : EStateM ε σ α) (f : α → EStateM ε σ β) :
    total (x >>= f) = total x >>= fun a => total (f a) := by
  funext s
  cases h : x s with
  | ok a s₁ =>
    rw [bind_of_ok (total_of_ok h)]
    simp only [total, EStateM.adaptExcept, bind_of_ok h]
  | error e s₁ =>
    rw [bind_of_error (total_of_error h), total_of_error (bind_of_error h)]

theorem total_ite {c : Prop} [Decidable c] (x y : EStateM ε σ α) :
    total (if c then x else y) = if c then total x else total y := by
  split <;> rfl

end Checked

end WasmI32
