import WasmI32.Memory

/-!
# Instructions

The instructions of the integer subset. Those that differ only in the number they compute are one
constructor with the operation as an argument. The constructs `block`, `loop` and `if` are opened
by `Instruction.enter` and closed by `Instruction.endMark`; `Instruction.elseMark` divides the two
arms of an `if`.
-/

namespace WasmI32

/-- The three constructs that nest. -/
inductive BlockKind where
  | block
  | loop
  | cond
  deriving DecidableEq, Repr

/-- Whether a construct leaves nothing or one `i32`. -/
inductive BlockType where
  | empty
  | i32
  deriving DecidableEq, Repr

/-- The number of values a construct leaves. -/
def BlockType.arity : BlockType → Nat
  | empty => 0
  | i32 => 1

/-- The immediates of a memory access: a hint, the binary logarithm of the alignment, which has
no effect, and the constant offset. -/
structure MemArg where
  align : Word
  offset : Word
  deriving DecidableEq, Repr

/-- The loads. -/
inductive LoadOp where
  | word
  | byteSigned
  | byteUnsigned
  | halfSigned
  | halfUnsigned
  deriving DecidableEq, Repr

namespace LoadOp

def width : LoadOp → Width
  | word => .word
  | byteSigned => .byte
  | byteUnsigned => .byte
  | halfSigned => .half
  | halfUnsigned => .half

def signed : LoadOp → Bool
  | word => false
  | byteSigned => true
  | byteUnsigned => false
  | halfSigned => true
  | halfUnsigned => false

end LoadOp

/-- Operations on one word. -/
inductive UnaryOp where
  | eqz
  | clz
  | ctz
  | popcnt
  deriving DecidableEq, Repr

/-- Comparisons of two words. -/
inductive Comparison where
  | eq
  | ne
  | ltS
  | ltU
  | gtS
  | gtU
  | leS
  | leU
  | geS
  | geU
  deriving DecidableEq, Repr

/-- Operations on two words. -/
inductive BinaryOp where
  | add
  | sub
  | mul
  | divS
  | divU
  | remS
  | remU
  | and
  | or
  | xor
  | shl
  | shrS
  | shrU
  | rotl
  | rotr
  deriving DecidableEq, Repr

/-- An instruction with its immediates. -/
inductive Instruction where
  | unreachable
  | nop
  /-- Opens a `block`, a `loop` or an `if`. -/
  | enter (kind : BlockKind) (type : BlockType)
  /-- Ends the first arm of an `if` and starts the second. -/
  | elseMark
  /-- Closes the innermost construct, or the function body. -/
  | endMark
  | br (label : Word)
  | brIf (label : Word)
  | ret
  | call (function : Word)
  | drop
  | localGet (index : Word)
  | localSet (index : Word)
  | localTee (index : Word)
  | load (op : LoadOp) (arg : MemArg)
  | store (width : Width) (arg : MemArg)
  | memorySize
  | memoryGrow
  | const (value : Word)
  | unary (op : UnaryOp)
  | compare (op : Comparison)
  | binary (op : BinaryOp)
  deriving DecidableEq, Repr

/-- Whether the instruction opens a construct. -/
def Instruction.isBlockStart : Instruction → Bool
  | enter _ _ => true
  | _ => false

end WasmI32
