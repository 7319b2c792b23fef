import WasmI32.CommandLine.Directory
import WasmI32.CommandLine.Options
import WasmI32.CommandLine.Report
import WasmI32.Listing
import WasmI32.Module.Decode

/-!
# Command-line jobs

What a command line does with the file it names. A job that runs code is taken in two parts, since
code need not come to an end: `Job.prepare` decides what is to run, and `Job.output?` says what is
shown once the invocation is over.
-/

namespace WasmI32.CommandLine

/-- What a command shows, and how it ends. -/
structure Output where
  exitCode : UInt8
  out : String := ""
  err : String := ""
  deriving DecidableEq, Inhabited, Repr

namespace Output

/-- The output of a request for the version. -/
def version : Output := { exitCode := 0, out := "wasmlet 0.0.1\n" }

/-- The output of a command line that is refused. -/
def usage (e : UsageError) : Output := { exitCode := 2, err := s!"error: {e.message}\n" }

/-- The output of a command that fails for a reason of its own. -/
def failure (text : String) : Output := { exitCode := 1, err := s!"Error: {text}\n" }

/-- The output of a command that fails because something else did. -/
def failureBecause (text cause : String) : Output :=
  failure s!"{text}\n\nCaused by:\n    {cause}"

end Output

/-- An invocation that a command line asks for. -/
structure Job where
  options : Options
  program : Module
  function : Nat

namespace Job

/-- Decides what is to be done: either there is nothing to run, or a job. -/
def ofModule (options : Options) (m : Module) : Except Output Job :=
  if options.disassemble then .error { exitCode := 0, out := Listing.render m }
  else
    match options.invoke, m.start with
    | some index, _ => .ok ⟨options, m, index⟩
    | none, some index => .ok ⟨options, m, index⟩
    | none, none => .error (.failure "module has no start function; use --invoke")

/-- Decides what is to be done with the contents of the file. -/
def prepare (options : Options) (file : Except FileError (List UInt8)) : Except Output Job :=
  match file with
  | .error e => .error (.failureBecause s!"failed to read {options.path}" e.message)
  | .ok bytes =>
    match Module.decode bytes with
    | .error e => .error (.failureBecause s!"failed to decode {options.path}" e.message)
    | .ok m => ofModule options m

/-- Begins the invocation. -/
def start (job : Job) : Machine.Progress :=
  job.program.machine.start job.program.functions job.function job.options.args

/-- Takes at most `fuel` steps. -/
def resume (job : Job) (fuel : Nat) (p : Machine.Progress) : Machine.Progress :=
  p.resume job.program.functions fuel

/-- The bytes of memory to show. -/
def dump (job : Job) (memory : Memory) : Option (Array UInt8) :=
  job.options.dumpMemory.map fun n => (memory.data.extract 0 n).data

/-- What is shown of an invocation that is over. -/
def output (job : Job) (outcome : Except TrapReport (Array Word)) (memory : Memory) : Output :=
  let report : Report := ⟨job.function, outcome, job.dump memory⟩
  let exitCode := match outcome with
    | .ok _ => 0
    | .error _ => 1
  if job.options.json then { exitCode, out := report.renderJson }
  else
    let shown := match report.memory with
      | some bytes => renderDump bytes
      | none => ""
    match outcome with
    | .ok results => { exitCode, out := shown ++ Report.renderResults results }
    | .error trap => { exitCode, out := shown, err := s!"trap: {trap.message}\n" }

/-- What is shown of an invocation, if it is over. -/
def output? (job : Job) : Machine.Progress → Option Output
  | .running _ => none
  | .finished results m => some (job.output (.ok results) m.memory)
  | .trapped report m => some (job.output (.error report) m.memory)

end Job

end WasmI32.CommandLine
