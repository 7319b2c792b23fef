import WasmI32.Window

/-!
# Nested windows

A section is read through a window inside that of the file, and a function body through one inside
that of its section. `Nested` holds the windows that are open; reads go to the innermost one. A
window that is left cannot be read again: the one around it was moved past it when it was opened.
-/

namespace WasmI32

/-- A read from the innermost window, or a change of the nesting. -/
inductive ReadOp where
  | byte
  | bytes (n : Nat)
  | skip (n : Nat)
  | unsigned
  | signed
  | byteVector
  /-- Opens a window onto the next `n` bytes. -/
  | enter (n : Nat)
  /-- Closes the innermost window, unless it is the only one. -/
  | leave
  deriving DecidableEq, Repr

/-- What an operation gives. -/
inductive ReadValue where
  | nothing
  | byte (b : UInt8)
  | bytes (bs : List UInt8)
  | unsigned (v : Word)
  | signed (v : Word)
  deriving DecidableEq, Repr

/-- The open windows. -/
structure Nested where
  inner : Window
  /-- The other windows, from the inside out. -/
  outer : List Window
  deriving DecidableEq, Repr

namespace Nested

/-- The one window that shows all of `bytes`. -/
def ofBytes (bytes : List UInt8) : Nested := ⟨.ofBytes bytes, []⟩

/-- Reads from the innermost window. -/
def read {α : Type} (x : Read ReadError α) : EStateM ReadError Nested α := fun s =>
  match x s.inner with
  | .ok a inner => .ok a { s with inner }
  | .error e inner => .error e { s with inner }

/-- Opens a window onto the next `n` bytes of the innermost one. -/
def enter (n : Nat) : EStateM ReadError Nested Unit := fun s =>
  match Window.split n s.inner with
  | .ok window parent => .ok () ⟨window, parent :: s.outer⟩
  | .error e inner => .error e { s with inner }

/-- Closes the innermost window, unless it is the only one. -/
def leave : EStateM ReadError Nested Unit := fun s =>
  match s.outer with
  | [] => .ok () s
  | window :: outer => .ok () ⟨window, outer⟩

def perform : ReadOp → EStateM ReadError Nested ReadValue
  | .byte => .byte <$> read Window.byte
  | .bytes n => .bytes <$> read (Window.bytes n)
  | .skip n => do
    read (Window.skip n)
    return .nothing
  | .unsigned => .unsigned <$> read Window.unsigned
  | .signed => .signed <$> read Window.signed
  | .byteVector => .bytes <$> read Window.byteVector
  | .enter n => do
    enter n
    return .nothing
  | .leave => do
    leave
    return .nothing

end Nested

end WasmI32
