import WasmI32.Word

/-!
# Command-line options

The first positional argument is the path of a module and the others are the arguments of the
function to run. Options may stand before, between and behind them, and `--` ends the options.
Every mistake is a `UsageError`. Asking for the version ends the reading: mistakes behind it, and
those that only the whole command line shows, do not count.
-/

namespace WasmI32.CommandLine

/-- Why a command line is refused. -/
inductive UsageError where
  | missingPath
  | unknownOption (text : String)
  | missingValue (option : String)
  | unexpectedValue (option : String)
  | invalidValue (text : String)
  | repeated (option : String)
  | conflict (option : String)
  deriving DecidableEq, Repr

def UsageError.message : UsageError → String
  | missingPath => "the path of a module is missing"
  | unknownOption text => s!"unknown option '{text}'"
  | missingValue option => s!"option '{option}' needs a value"
  | unexpectedValue option => s!"option '{option}' takes no value"
  | invalidValue text => s!"invalid value '{text}'"
  | repeated option => s!"option '{option}' is given more than once"
  | conflict option => s!"option '{option}' cannot be used with '--disassemble'"

/-- How the module is to be used. -/
structure Options where
  /-- The file that holds the module. -/
  path : String
  /-- The arguments of the function to run. -/
  args : Array Word
  /-- The function to run instead of the start function. -/
  invoke : Option Nat
  /-- How many bytes of memory to show after the run. -/
  dumpMemory : Option Nat
  /-- Whether to report the outcome as JSON. -/
  json : Bool
  /-- Whether to list the instructions instead of running. -/
  disassemble : Bool
  deriving DecidableEq, Repr

/-- What a command line asks for. -/
inductive Request where
  | version
  | job (options : Options)
  deriving DecidableEq, Repr

/-- The bytes of memory shown when no number is given. -/
def defaultDump : Nat := 256

/-- The number written by decimal digits, of which there has to be one at least. -/
def digits? : List Char → Option Nat
  | [] => none
  | cs => cs.foldlM (fun n c => if c.isDigit then some (10 * n + (c.toNat - '0'.toNat)) else none) 0

/-- The natural number written by digits with or without a plus sign. -/
def natural? (text : String) : Option Nat :=
  match text.toList with
  | '+' :: cs => digits? cs
  | cs => digits? cs

/-- The integer written by digits with or without a sign. -/
def integer? (text : String) : Option Int :=
  match text.toList with
  | '-' :: cs => (digits? cs).map fun n => -(n : Int)
  | '+' :: cs => (digits? cs).map Int.ofNat
  | cs => (digits? cs).map Int.ofNat

/-- An argument of a function: a signed 32-bit integer. -/
def parseArgument (text : String) : Except UsageError Word :=
  match integer? text with
  | some n =>
    if -2147483648 ≤ n ∧ n ≤ 2147483647 then .ok (BitVec.ofInt 32 n)
    else .error (.invalidValue text)
  | none => .error (.invalidValue text)

/-- The index of a function: an unsigned 32-bit integer, which may be written with a sign. -/
def parseIndex (text : String) : Except UsageError Nat :=
  match integer? text with
  | some n => if 0 ≤ n ∧ n ≤ 4294967295 then .ok n.toNat else .error (.invalidValue text)
  | none => .error (.invalidValue text)

/-- A number of bytes: an unsigned 64-bit integer. -/
def parseSize (text : String) : Except UsageError Nat :=
  match natural? text with
  | some n => if n ≤ 18446744073709551615 then .ok n else .error (.invalidValue text)
  | none => .error (.invalidValue text)

/-- The option whose value the next word may be. -/
inductive Awaiting where
  | nothing
  | invoke
  | dumpMemory
  deriving DecidableEq, Repr

/-- What has been read of a command line. -/
structure Reading where
  path : Option String := none
  args : Array Word := #[]
  invoke : Option Nat := none
  dumpMemory : Option Nat := none
  json : Bool := false
  disassemble : Bool := false
  version : Bool := false
  awaiting : Awaiting := .nothing
  deriving DecidableEq, Repr

namespace Reading

def setInvoke (r : Reading) (index : Nat) : Except UsageError Reading :=
  if r.invoke.isSome then .error (.repeated "--invoke")
  else .ok { r with invoke := some index, awaiting := .nothing }

def setDumpMemory (r : Reading) (size : Nat) : Except UsageError Reading :=
  if r.dumpMemory.isSome then .error (.repeated "--dump-memory")
  else .ok { r with dumpMemory := some size, awaiting := .nothing }

def setJson (r : Reading) : Except UsageError Reading :=
  if r.json then .error (.repeated "--json") else .ok { r with json := true }

def setDisassemble (r : Reading) : Except UsageError Reading :=
  if r.disassemble then .error (.repeated "--disassemble") else .ok { r with disassemble := true }

/-- Ends an option that gets no value. -/
def settle (r : Reading) : Except UsageError Reading :=
  match r.awaiting with
  | .nothing => .ok r
  | .invoke => .error (.missingValue "--invoke")
  | .dumpMemory => r.setDumpMemory defaultDump

/-- Adds a positional argument. -/
def addPositional (r : Reading) (text : String) : Except UsageError Reading :=
  match r.path with
  | none => if text.isEmpty then .error (.invalidValue text) else .ok { r with path := some text }
  | some _ => do
    let v ← parseArgument text
    return { r with args := r.args.push v }

/-- Adds a word that is the value of an option or a positional argument. -/
def addValue (r : Reading) (text : String) : Except UsageError Reading :=
  match r.awaiting with
  | .nothing => r.addPositional text
  | .invoke => do r.setInvoke (← parseIndex text)
  | .dumpMemory => do r.setDumpMemory (← parseSize text)

/-- Adds a long option, with the value behind its equals sign if it has one. -/
def addLong (r : Reading) (name : String) (value : Option String) : Except UsageError Reading := do
  let r ← r.settle
  match name, value with
  | "invoke", some text => r.setInvoke (← parseIndex text)
  | "invoke", none => return { r with awaiting := .invoke }
  | "dump-memory", some text => r.setDumpMemory (← parseSize text)
  | "dump-memory", none => return { r with awaiting := .dumpMemory }
  | "json", none => r.setJson
  | "disassemble", none => r.setDisassemble
  | "verbose", none => return r
  | "version", none => return { r with version := true }
  | "json", some _ => throw (.unexpectedValue "--json")
  | "disassemble", some _ => throw (.unexpectedValue "--disassemble")
  | "verbose", some _ => throw (.unexpectedValue "--verbose")
  | "version", some _ => throw (.unexpectedValue "--version")
  | name, _ => throw (.unknownOption s!"--{name}")

/-- Adds a cluster of short options. An option `v` has no effect; `V` asks for the version, and what
follows it in the cluster is not read. -/
def addShort (r : Reading) : List Char → Except UsageError Reading
  | [] => .ok r
  | 'v' :: flags => do (← r.settle).addShort flags
  | 'V' :: _ => do return { ← r.settle with version := true }
  | flag :: _ => .error (.unknownOption (String.ofList ['-', flag]))

/-- Adds a word in front of which no `--` stands. A negative number is a value, and not a short
option, once the path is known. -/
def addWord (r : Reading) (text : String) : Except UsageError Reading :=
  match text.toList with
  | '-' :: '-' :: cs =>
    let value := match cs.dropWhile (· ≠ '=') with
      | [] => none
      | _ :: value => some (String.ofList value)
    r.addLong (String.ofList (cs.takeWhile (· ≠ '='))) value
  | '-' :: c :: cs =>
    if r.path.isSome ∧ (c :: cs).all Char.isDigit then r.addValue text else r.addShort (c :: cs)
  | _ => r.addValue text

/-- Adds all words, or those up to a request for the version. -/
def addWords (r : Reading) : List String → Except UsageError Reading
  | [] => r.settle
  | "--" :: rest => do rest.foldlM addPositional (← r.settle)
  | text :: rest => do
    let r ← r.addWord text
    if r.version then return r else r.addWords rest

/-- The options, once all words are read. -/
def options (r : Reading) : Except UsageError Options :=
  match r.path with
  | none => .error .missingPath
  | some path =>
    if r.disassemble ∧ r.invoke.isSome then .error (.conflict "--invoke")
    else if r.disassemble ∧ r.dumpMemory.isSome then .error (.conflict "--dump-memory")
    else .ok ⟨path, r.args, r.invoke, r.dumpMemory, r.json, r.disassemble⟩

/-- What has been asked for, once the reading is over. -/
def finish (r : Reading) : Except UsageError Request :=
  if r.version then .ok .version else r.options.map .job

end Reading

/-- Reads the words of a command line. -/
def Request.parse (words : List String) : Except UsageError Request := do
  let r ← Reading.addWords {} words
  r.finish

end WasmI32.CommandLine
