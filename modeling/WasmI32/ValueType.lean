/-!
# Value types and signatures

The binary format knows four value types. The engine computes with `i32` alone, so a signature is
told by the number of its parameters and results; the other three types are known by name, to
report them.
-/

namespace WasmI32

/-- What a value-type byte stands for. -/
inductive ValueType where
  /-- The type `i32`. -/
  | i32
  /-- A type of the binary format that the engine does not compute with. -/
  | unsupported (name : String)
  /-- No type at all. -/
  | invalid
  deriving DecidableEq, Repr

namespace ValueType

/-- The byte of `i32`. -/
def i32Byte : UInt8 := 0x7f

def ofByte (b : UInt8) : ValueType :=
  if b = i32Byte then i32
  else if b = 0x7e then unsupported "i64"
  else if b = 0x7d then unsupported "f32"
  else if b = 0x7c then unsupported "f64"
  else invalid

end ValueType

/-- A signature: how many `i32` parameters and results a function has. -/
structure FunctionType where
  parameters : Nat
  results : Nat
  deriving DecidableEq, Repr

/-- The text of a signature, such as `[i32 i32] -> [i32]`. -/
def FunctionType.render (t : FunctionType) : String :=
  let values (n : Nat) := " ".intercalate (List.replicate n "i32")
  s!"[{values t.parameters}] -> [{values t.results}]"

end WasmI32
