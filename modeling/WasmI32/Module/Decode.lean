import WasmI32.Limits
import WasmI32.Module.Basic
import WasmI32.Module.Error
import WasmI32.Text.Utf8

/-!
# Decoding modules

`Module.decode` reads a module's binary: the header and then sections, each with its own size, in
the order of their numbers. Custom sections may stand anywhere. Sections for things the engine does
not have (imports, tables, globals, exports, elements) are read over. The first fault in reading
order is the one reported.
-/

namespace WasmI32

/-- The code of a function, before it is joined with its signature. -/
structure Body where
  localCount : Nat
  code : Array UInt8
  /-- Where `code` starts in the binary. -/
  offset : Nat
  deriving DecidableEq, Repr

/-- What has been read of a module. -/
structure Draft where
  /-- The number of the last section that was not a custom one, or zero. -/
  previous : UInt8 := 0
  types : Array FunctionType := #[]
  /-- The signature of each function, if there is a function section. -/
  typeIndices : Option (Array Nat) := none
  memory : Memory := .empty
  memoryDeclared : Bool := false
  start : Option Nat := none
  bodies : Array Body := #[]
  customNames : Array String := #[]
  deriving DecidableEq

namespace Decode

/-- Refuses a count above its limit. -/
def checkLimit (what : Counted) (count limit : Nat) : Read DecodeError Unit :=
  if limit < count then throw (.limitExceeded what count limit) else pure ()

/-- Reads a count that has a limit. -/
def count (what : Counted) (limit : Nat) : Read DecodeError Nat := do
  let n ← Window.unsigned
  checkLimit what n.toNat limit
  return n.toNat

/-- Reads a value type, which has to be `i32`. -/
def valueType : Read DecodeError Unit := do
  let offset ← Window.here
  let b ← Window.byte
  match ValueType.ofByte b with
  | .i32 => pure ()
  | .unsupported name => throw (.unsupportedValueType name b offset)
  | .invalid => throw (.invalidValueType b offset)

/-- Reads a signature. -/
def functionType : Read DecodeError FunctionType := do
  let offset ← Window.here
  let tag ← Window.byte
  if tag ≠ FunctionType.tag then throw (.functionTypeTag tag offset)
  let parameters ← count .parameter Limits.parameters
  let _ ← valueType.times parameters
  let results ← Window.unsigned
  if Limits.results < results.toNat then throw (.tooManyResults results.toNat offset)
  let _ ← valueType.times results.toNat
  return ⟨parameters, results.toNat⟩

/-- Reads the contents of the type section. -/
def typeSection : Read DecodeError (Array FunctionType) := do
  let n ← count .type Limits.types
  functionType.times n

/-- Reads the signature of a function, given as an index below `types`. -/
def typeIndex (types : Nat) : Read DecodeError Nat := do
  let index ← Window.unsigned
  if types ≤ index.toNat then throw (.typeIndex index.toNat types)
  return index.toNat

/-- Reads the contents of the function section of a module with `types` signatures. -/
def functionSection (types : Nat) : Read DecodeError (Array Nat) := do
  let n ← count .function Limits.functions
  (typeIndex types).times n

/-- Reads the maximum of a memory; `offset` is where its flags stand. -/
def memoryMaximum (flags : UInt8) (offset : Nat) : Read DecodeError Nat :=
  if flags = 0 then pure Limits.pages
  else if flags = 1 then do
    let n ← Window.unsigned
    pure n.toNat
  else throw (.memoryFlags flags offset)

/-- Reads the contents of the memory section, which may declare no memory. -/
def memorySection : Read DecodeError (Option Memory) := do
  let n ← Window.unsigned
  if 1 < n.toNat then throw (.multipleMemories n.toNat)
  if n.toNat = 0 then
    return none
  else
    let offset ← Window.here
    let flags ← Window.byte
    let initial ← Window.unsigned
    let maximum ← memoryMaximum flags offset
    match Memory.create initial.toNat maximum with
    | .ok memory => return some memory
    | .error cause => throw (.memoryLimits cause)

/-- Reads the contents of the start section. -/
def startSection : Read DecodeError Nat := do
  let index ← Window.unsigned
  return index.toNat

/-- Reads `groups` local declarations on top of `total` locals. -/
def locals : Nat → Nat → Read DecodeError Nat
  | 0, total => pure total
  | groups + 1, total => do
    let n ← Window.unsigned
    valueType
    checkLimit .localSlot (total + n.toNat) Limits.locals
    locals groups (total + n.toNat)

/-- Reads a function body that takes up the whole window. -/
def bodyContents : Read DecodeError Body := do
  let groups ← Window.unsigned
  let localCount ← locals groups.toNat 0
  let offset ← Window.here
  let code ← Window.takeRest
  return ⟨localCount, code.toArray, offset⟩

/-- Runs `contents` on a window of its own. -/
def within {α : Type} (window : Window) (contents : Read DecodeError α) : Read DecodeError α :=
  match contents window with
  | .ok a _ => pure a
  | .error e _ => throw e

/-- Reads a function body behind its size. -/
def body : Read DecodeError Body := do
  let size ← count .functionBodyByte Limits.bodyBytes
  let window ← Window.split size
  within window bodyContents

/-- Reads the contents of the code section. -/
def codeSection : Read DecodeError (Array Body) := do
  let n ← count .functionBody Limits.functions
  body.times n

/-- Reads one data segment: where it goes, given as a constant, and its bytes. -/
def dataSegment : Read DecodeError (Word × List UInt8) := do
  let index ← Window.unsigned
  if index ≠ 0 then throw (.memoryIndex index.toNat)
  let offset ← Window.here
  let opening ← Window.byte
  if opening ≠ 0x41 then throw (.dataSegmentOffset offset)
  let address ← Window.signed
  let closing ← Window.byte
  if closing ≠ 0x0b then throw (.dataSegmentOffset offset)
  let bytes ← Window.byteVector
  return (address, bytes)

/-- Reads `n` data segments and writes each into the memory at once. -/
def dataSegments : Nat → Memory → Read DecodeError Memory
  | 0, memory => pure memory
  | n + 1, memory => do
    let (address, bytes) ← dataSegment
    match memory.write address bytes with
    | .ok _ memory => dataSegments n memory
    | .error cause _ => throw (.dataSegmentBounds cause)

/-- Reads the contents of the data section. -/
def dataSection (memory : Memory) : Read DecodeError Memory := do
  let n ← count .dataSegment Limits.dataSegments
  dataSegments n memory

/-- Reads the contents of the section with number `id`. -/
def contents (id : UInt8) (draft : Draft) : Read DecodeError Draft :=
  if id = Section.type then do
    let types ← typeSection
    return { draft with types }
  else if id = Section.function then do
    let indices ← functionSection draft.types.size
    return { draft with typeIndices := some indices }
  else if id = Section.memory then do
    match ← memorySection with
    | some memory => return { draft with memory, memoryDeclared := true }
    | none => return draft
  else if id = Section.start then do
    let start ← startSection
    return { draft with start := some start }
  else if id = Section.code then do
    let bodies ← codeSection
    return { draft with bodies }
  else if id = Section.data then do
    let memory ← dataSection draft.memory
    return { draft with memory }
  else do
    let _ ← Window.takeRest
    return draft

/-- The name of a custom section, empty if it cannot be read. -/
def customName (window : Window) : String :=
  match Window.byteVector window with
  | .ok bytes _ => Utf8.decodeLossy bytes
  | .error _ _ => ""

/-- Adds a section with number `id` at `offset`, whose contents are `window`. -/
def addSection (draft : Draft) (id : UInt8) (offset : Nat) (window : Window) :
    Except DecodeError Draft :=
  if id = Section.custom then
    .ok { draft with customNames := draft.customNames.push (customName window) }
  else if Section.largest < id then .error (.unknownSection id offset)
  else if id ≤ draft.previous then .error (.sectionOrder id draft.previous offset)
  else
    match contents id { draft with previous := id } window with
    | .error e _ => .error e
    | .ok draft left =>
      if left.isEmpty then .ok draft
      else .error (.sectionSize id offset window.remaining left.position)

/-- Reads one section. -/
def nextSection (draft : Draft) : Read DecodeError Draft := do
  let offset ← Window.here
  let id ← Window.byte
  let size ← Window.unsigned
  let window ← Window.split size.toNat
  match addSection draft id offset window with
  | .ok draft => return draft
  | .error e => throw e

/-- Reads sections to the end of the window, at most `fuel` of them. -/
def sections : Nat → Draft → Read DecodeError Draft
  | 0, draft => pure draft
  | fuel + 1, draft => fun w =>
    if w.isEmpty then .ok draft w
    else (nextSection draft >>= sections fuel) w

/-- Joins a signature with a body. -/
def function (types : Array FunctionType) (typeIndex : Nat) (body : Body) :
    Except DecodeError Function :=
  match types[typeIndex]? with
  | none => .error (.typeIndex typeIndex types.size)
  | some type =>
    .ok {
      typeIndex
      parameterCount := type.parameters
      resultCount := type.results
      localCount := body.localCount
      body := body.code
      bodyOffset := body.offset }

end Decode

namespace Draft

/-- The signatures of the functions. Without a function section every signature is that of one
function, unless there is no body at all. -/
def functionTypes (draft : Draft) : Array Nat :=
  match draft.typeIndices with
  | some indices => indices
  | none => if draft.bodies.isEmpty then #[] else Array.range draft.types.size

/-- Joins signatures and bodies. -/
def functions (draft : Draft) : Except DecodeError (Array Function) :=
  let indices := draft.functionTypes
  if indices.size ≠ draft.bodies.size then
    .error (.functionCount indices.size draft.bodies.size)
  else
    (indices.zip draft.bodies).mapM fun (index, body) => Decode.function draft.types index body

/-- The module, once all sections are read. -/
def finish (draft : Draft) : Except DecodeError Module := do
  let functions ← draft.functions
  match draft.start with
  | some index =>
    if functions.size ≤ index then throw (.startFunction index functions.size)
  | none => pure ()
  return {
    types := draft.types
    functions
    memory := draft.memory
    memoryDeclared := draft.memoryDeclared
    start := draft.start
    customNames := draft.customNames }

end Draft

namespace Module

/-- Decodes a module's binary. A section takes up at least one byte, so that there are no more
sections than bytes. -/
def decode (bytes : List UInt8) : Except DecodeError Module :=
  if bytes.take header.length ≠ header then .error .badHeader
  else
    let window := (Window.ofBytes bytes).advance header.length
    match Decode.sections window.remaining {} window with
    | .ok draft _ => draft.finish
    | .error e _ => .error e

end Module

end WasmI32
