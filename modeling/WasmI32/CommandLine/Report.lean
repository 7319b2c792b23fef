import WasmI32.Machine

/-!
# Reports

What the command line shows of an invocation: its results or its trap, and the first bytes of
memory, either as plain text or as a JSON object.
-/

namespace WasmI32.CommandLine

/-- What is to be shown of an invocation. -/
structure Report where
  /-- The function that was invoked. -/
  function : Nat
  outcome : Except TrapReport (Array Word)
  /-- The bytes of memory to show, if any are asked for. -/
  memory : Option (Array UInt8)

/-- The bytes on a line of a memory dump. -/
def dumpWidth : Nat := 16

/-- A line of a memory dump: an address and the bytes from there on. -/
def dumpLine (bytes : Array UInt8) (line : Nat) : String :=
  let address := line * dumpWidth
  let shown := bytes.extract address (address + dumpWidth)
  s!"{Hex.padded 8 address}  {Hex.ofBytes shown.toList}\n"

/-- The text of a memory dump. Its last line may be shorter than the others. -/
def renderDump (bytes : Array UInt8) : String :=
  let lines := (bytes.size + (dumpWidth - 1)) / dumpWidth
  String.join ((List.range lines).map (dumpLine bytes))

namespace Json

/-- Text in quotes. The characters that end it or escape others are escaped. -/
def quoted (text : String) : String :=
  let escape (c : Char) : List Char :=
    if c = '"' ∨ c = '\\' then ['\\', c] else [c]
  String.ofList ('"' :: text.toList.flatMap escape ++ ['"'])

/-- Items on lines of their own, indented two blanks more than the brackets around them. -/
def block (indent : Nat) (opening closing : String) (items : List String) : String :=
  if items.isEmpty then opening ++ closing
  else
    let blanks (n : Nat) := String.ofList (List.replicate n ' ')
    let lines := items.map fun item => blanks (indent + 2) ++ item
    opening ++ "\n" ++ ",\n".intercalate lines ++ "\n" ++ blanks indent ++ closing

def list (indent : Nat) (items : List String) : String := block indent "[" "]" items

def object (indent : Nat) (fields : List (String × String)) : String :=
  block indent "\x7b" "\x7d" (fields.map fun (key, value) => quoted key ++ ": " ++ value)

end Json

namespace Report

/-- The JSON object of a trap. -/
def trapFields (r : TrapReport) : List (String × String) :=
  [("message", Json.quoted r.trap.message),
   ("function", toString r.function),
   ("offset", toString r.offset),
   ("opcode", match r.opcode with
     | some b => toString b.toNat
     | none => "null"),
   ("depth", toString r.depth)]

/-- The report as a JSON object. What there is nothing to say about is left out. -/
def renderJson (r : Report) : String :=
  let outcome := match r.outcome with
    | .ok results => ("results", Json.list 2 (results.toList.map fun v => toString v.toInt))
    | .error trap => ("error", Json.object 2 (trapFields trap))
  let memory := match r.memory with
    | some bytes => [("memory", Json.quoted (Hex.ofBytes bytes.toList))]
    | none => []
  Json.object 0 (("function", toString r.function) :: outcome :: memory) ++ "\n"

/-- The results on one line. -/
def renderResults (results : Array Word) : String :=
  " ".intercalate (results.toList.map fun v => toString v.toInt) ++ "\n"

end Report

end WasmI32.CommandLine
