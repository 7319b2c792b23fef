import WasmI32.Memory
import WasmI32.ValueType

/-!
# Modules

A module holds functions with their code, one linear memory and, possibly, a start function.
-/

namespace WasmI32

/-- A function of a module. -/
structure Function where
  typeIndex : Nat
  parameterCount : Nat
  resultCount : Nat
  /-- The locals it declares beside its parameters. -/
  localCount : Nat
  /-- The bytes of its code. Whether they are instructions shows only when they are read. -/
  body : Array UInt8
  /-- Where `body` starts in the module's binary. -/
  bodyOffset : Nat
  deriving DecidableEq, Repr

/-- The local slots of one activation: parameters first, then declared locals. -/
def Function.frameSize (f : Function) : Nat := f.parameterCount + f.localCount

/-- A module. -/
structure Module where
  types : Array FunctionType := #[]
  functions : Array Function := #[]
  memory : Memory := .empty
  /-- Whether the memory was declared, and is not the one without pages that a module has
  otherwise. -/
  memoryDeclared : Bool := false
  start : Option Nat := none
  /-- The names of the custom sections, in the order they stand in. -/
  customNames : Array String := #[]
  deriving DecidableEq

end WasmI32
