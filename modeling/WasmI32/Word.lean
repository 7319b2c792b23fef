/-!
# Words

Every value the engine computes with is a 32-bit word. A word has no sign of its own: an
instruction reads it either as the natural number `Word.toNat` or as the integer `Word.toInt`.
-/

namespace WasmI32

/-- A 32-bit word. -/
abbrev Word := BitVec 32

namespace Word

/-- One for true and zero for false, as comparisons answer. -/
def ofBool (b : Bool) : Word := if b then 1#32 else 0#32

end Word

end WasmI32
