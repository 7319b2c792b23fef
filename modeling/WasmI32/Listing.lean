import WasmI32.Instruction.Decode
import WasmI32.Instruction.Text
import WasmI32.Module.Basic

/-!
# Listings

A listing shows the instructions of every function of a module in the order they stand in, each
with its offset in the binary and indented by the constructs around it.
-/

namespace WasmI32

namespace Listing

/-- A line of a listing. -/
structure Line where
  /-- The offset of the instruction in the binary. -/
  offset : Nat
  /-- The number of constructs around the instruction, with the function body. -/
  depth : Nat
  instruction : Instruction
  deriving DecidableEq, Repr

/-- The depth at which an instruction is shown. The marks that end a construct or an arm stand as
far out as what they belong to. -/
def shownDepth (depth : Nat) : Instruction → Nat
  | .elseMark => depth - 1
  | .endMark => depth - 1
  | _ => depth

/-- The depth after an instruction that is shown at `depth`. -/
def nextDepth (depth : Nat) (i : Instruction) : Nat :=
  if i.isBlockStart ∨ i = .elseMark then depth + 1 else depth

/-- The lines so far, and the depth after them. -/
structure State where
  lines : Array Line
  depth : Nat
  deriving DecidableEq, Repr

/-- Adds the line of an instruction in code that stands at `origin`. -/
def State.add (origin : Nat) (s : State) (item : Nat × Instruction) : State :=
  let shown := shownDepth s.depth item.2
  ⟨s.lines.push ⟨origin + item.1, shown, item.2⟩, nextDepth shown item.2⟩

/-- The lines of a function. -/
def ofFunction (f : Function) : Array Line :=
  ((Instruction.scan f.body).instructions.foldl (State.add f.bodyOffset) ⟨#[], 1⟩).lines

def Line.render (line : Line) : String :=
  let indent := String.join (List.replicate line.depth "  ")
  s!"  {Hex.padded 6 line.offset}: {indent}{line.instruction.render}\n"

/-- The line that ends a listing of code that is not all instructions. -/
def renderError : Option InstructionError → String
  | some e => s!"  error: {e.message}\n"
  | none => ""

/-- The line above the instructions of a function. -/
def renderHeading (m : Module) (index : Nat) (f : Function) : String :=
  let type := m.types.getD f.typeIndex ⟨f.parameterCount, f.resultCount⟩
  let mark := if m.start = some index then " (start)" else ""
  s!"func {index}: {type.render}, {f.localCount} local(s){mark}\n"

def renderFunction (m : Module) (index : Nat) (f : Function) : String :=
  renderHeading m index f
    ++ String.join ((ofFunction f).map Line.render).toList
    ++ renderError (Instruction.scan f.body).error

/-- The listing of a module. -/
def render (m : Module) : String :=
  String.join (m.functions.mapIdx (renderFunction m)).toList

end Listing

end WasmI32
