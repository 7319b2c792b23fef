import WasmI32.CommandLine.Job

/-!
# The command

Reads the command line and the file, runs the job to its end and prints what it shows.
-/

namespace WasmI32.CommandLine

/-- The instructions run between two looks at whether a job is over. -/
def stride : Nat := 1000000

/-- Runs a job until it is over. -/
partial def Job.complete (job : Job) (p : Machine.Progress) : Output :=
  match job.output? p with
  | some output => output
  | none => job.complete (job.resume stride p)

/-- The number of a system error. Some calls answer with it negated. -/
def errorNumber (code : UInt32) : Nat := (min code (-code)).toNat

/-- What an error of the system means for a file. Its number tells apart what its kind does not. -/
def FileError.ofSystem (e : IO.Error) : FileError :=
  match e with
  | .noFileOrDirectory _ _ _ => notFound
  | .inappropriateType _ code _ =>
    if errorNumber code = 20 then notDirectory
    else if errorNumber code = 21 then isDirectory
    else other (toString e)
  | .invalidArgument _ code _ =>
    if errorNumber code = 36 then nameTooLong else other (toString e)
  | e => other (toString e)

/-- The contents of a file. -/
def readFile (path : String) : IO (Except FileError (List UInt8)) := do
  try
    let bytes ← IO.FS.readBinFile path
    return .ok bytes.toList
  catch e => return .error (.ofSystem e)

/-- Does what the words of a command line ask for. -/
def execute (words : List String) : IO Output := do
  match Request.parse words with
  | .error e => return .usage e
  | .ok .version => return .version
  | .ok (.job options) =>
    match Job.prepare options (← readFile options.path) with
    | .error output => return output
    | .ok job => return job.complete job.start

end WasmI32.CommandLine

def main (words : List String) : IO UInt32 := do
  let output ← WasmI32.CommandLine.execute words
  IO.print output.out
  IO.eprint output.err
  return output.exitCode.toUInt32
