import LiveChain.Cli.Run

/-!
# The program

The program takes the arguments of the command line, reads the files that they name, and prints
the outcome of the run. All that it decides is in `LiveChain.Cli.run`; here the disk is looked at
and the outcome is written.
-/

set_option autoImplicit false

namespace LiveChain.Cli

def usageText : String :=
  "usage: chainedit [-h] [--log-level \x7bDEBUG,INFO,WARNING,ERROR\x7d]\n" ++
  "                 discover [-h] [--root ROOT] file\n" ++
  "       chainedit [-h] [--log-level \x7bDEBUG,INFO,WARNING,ERROR\x7d]\n" ++
  "                 rewrite [-h] [--root ROOT] [--set ORDINAL=VALUE] file\n"

def Crash.message : Crash → String
  | .undecodableConfig => "the configuration is not encoded as UTF-8"
  | .integerTooLong => "an integer has too many digits"
  | .integerTooWide => "an integer has more than 64 bits"
  | .noHome => "the home directory is not known"
  | .unusablePath => "a path holds a null character"
  | .unreachableConfig => "the configuration cannot be looked for"

/-- The home directory of a user in a list of accounts: the sixth field of the line that starts
with the name. -/
def homeIn (accounts : String) (user : String) : Option String :=
  ((accounts.splitOn "\n").map (·.splitOn ":")).findSome? fun fields =>
    if fields.head? = some user then fields[5]? else none

/-- Why reading a file failed. Only a failure to open it has the file's name. -/
def FileError.ofSystem : IO.Error → FileError
  | .inappropriateType none _ _ => .isADirectory
  | .inappropriateType (some _) _ _ => .notADirectory
  | .invalidArgument _ _ _ => .nameTooLong
  | .permissionDenied _ _ _ => .accessDenied
  | _ => .notFound

def readFile (path : FilePath) : IO (Except FileError (List UInt8)) := do
  try
    return .ok (← IO.FS.readBinFile path.text).toList
  catch e =>
    return .error (.ofSystem e)

def lookAt (job : Job) : IO Disk := do
  let here := FilePath.ofText (← IO.currentDir).toString
  let own ← IO.getEnv "HOME"
  let accounts ← readFile (.ofText "/etc/passwd")
  let names := match accounts.map Text.decodeUtf8 with
    | .ok (.ok text) => String.ofList text
    | _ => ""
  let home (user : String) := if user.isEmpty then own else homeIn names user
  let blank : Disk := ⟨here.steps, home, fun _ => .error .notFound⟩
  let found ← (job.paths blank).mapM fun path => return (path, ← readFile path)
  return { blank with read := fun path => (found.lookup path).getD (.error .notFound) }

/-- Writes an outcome; the result is the exit code. -/
def report (outcome : Outcome) : IO UInt32 := do
  let output ← IO.getStdout
  let errors ← IO.getStderr
  output.putStr (String.ofList outcome.output)
  errors.putStr outcome.errors
  match outcome.ending with
  | .exit code => return code.toUInt32
  | .usage code =>
    (if code = 0 then output else errors).putStr usageText
    return code.toUInt32
  | .crash c =>
    errors.putStr ("error: " ++ c.message ++ "\n")
    return 1

end LiveChain.Cli

open LiveChain.Cli in
def main (args : List String) : IO UInt32 := do
  match readJob args with
  | .ok job => report (runJob (← lookAt job) job)
  | .error refusal => report (refused refusal)
