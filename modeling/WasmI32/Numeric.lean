import WasmI32.OperandStack

/-!
# Computations on words

What the numeric instructions compute, and their effect on the operand stack. A binary instruction
takes its second operand from the top of the stack.
-/

namespace WasmI32

/-- The result of an operation. -/
def UnaryOp.apply : UnaryOp → Word → Word
  | eqz, v => Word.ofBool (v = 0)
  | clz, v => v.clz
  | ctz, v => v.ctz
  | popcnt, v => v.cpop

/-- Whether a comparison holds of two words. -/
def Comparison.holds : Comparison → Word → Word → Bool
  | eq, a, b => a = b
  | ne, a, b => a ≠ b
  | ltS, a, b => a.slt b
  | ltU, a, b => a.ult b
  | gtS, a, b => b.slt a
  | gtU, a, b => b.ult a
  | leS, a, b => a.sle b
  | leU, a, b => a.ule b
  | geS, a, b => b.sle a
  | geU, a, b => b.ule a

namespace BinaryOp

/-- The distance of a shift or rotation: the lowest five bits of its second operand. -/
def distance (b : Word) : Nat := b.toNat % 32

/-- The result of an operation. Only divisions and remainders can fail; the remainder of the
smallest word by minus one is zero although the quotient overflows. -/
def apply : BinaryOp → Word → Word → Except ArithmeticFault Word
  | add, a, b => .ok (a + b)
  | sub, a, b => .ok (a - b)
  | mul, a, b => .ok (a * b)
  | divS, a, b =>
    if b = 0 then .error .divisionByZero
    else if a = BitVec.intMin 32 ∧ b = BitVec.allOnes 32 then .error .integerOverflow
    else .ok (a.sdiv b)
  | divU, a, b => if b = 0 then .error .divisionByZero else .ok (a / b)
  | remS, a, b => if b = 0 then .error .divisionByZero else .ok (a.srem b)
  | remU, a, b => if b = 0 then .error .divisionByZero else .ok (a % b)
  | and, a, b => .ok (a &&& b)
  | or, a, b => .ok (a ||| b)
  | xor, a, b => .ok (a ^^^ b)
  | shl, a, b => .ok (a <<< distance b)
  | shrS, a, b => .ok (a.sshiftRight (distance b))
  | shrU, a, b => .ok (a >>> distance b)
  | rotl, a, b => .ok (a.rotateLeft (distance b))
  | rotr, a, b => .ok (a.rotateRight (distance b))

end BinaryOp

namespace OperandStack

/-- Replaces the top operand. -/
def unary (op : UnaryOp) : StackM Unit := do
  let v ← pop
  push (op.apply v)

/-- Replaces the top two operands by one if the comparison holds, else by zero. -/
def compare (op : Comparison) : StackM Unit := do
  let b ← pop
  let a ← pop
  push (Word.ofBool (op.holds a b))

/-- Replaces the top two operands by the result of an operation. -/
def binary (op : BinaryOp) : StackM Unit := do
  let b ← pop
  let a ← pop
  match op.apply a b with
  | .ok v => push v
  | .error fault => throw (.arithmetic fault)

end OperandStack

end WasmI32
