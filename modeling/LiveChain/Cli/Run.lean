import LiveChain.Cli.Arguments
import LiveChain.Cli.Assignment
import LiveChain.Cli.Disk
import LiveChain.Cli.Listing
import LiveChain.Config.File

/-!
# The command line

A run reads the configuration and the snippet, and prints either the editable values of the
snippet or the edited snippet.
-/

set_option autoImplicit false

namespace LiveChain.Cli

open Text

/-- What can end a run without an exit code: a configuration that is no text, an integer of too
many digits or of more than 64 bits, a home directory that is not known, a path that cannot be
used, or a configuration that cannot be looked for. -/
inductive Crash where
  | undecodableConfig
  | integerTooLong
  | integerTooWide
  | noHome
  | unusablePath
  | unreachableConfig
deriving DecidableEq, Repr

/-- How a run ends: with an exit code, with the usage of the command line, or by a crash. -/
inductive Ending where
  | exit (code : Nat)
  | usage (code : Nat)
  | crash (c : Crash)
deriving DecidableEq, Repr

structure Outcome where
  ending : Ending
  output : List Char
  errors : String

namespace Outcome

def success (output : List Char) : Outcome := ⟨.exit 0, output, ""⟩

def failure (code : Nat) (message : String) : Outcome :=
  ⟨.exit code, [], "error: " ++ message ++ "\n"⟩

def crashed (c : Crash) : Outcome := ⟨.crash c, [], ""⟩

end Outcome

/-! ## Commands -/

/-- Prints values one per line, up to the first that cannot be listed. -/
def printValues : List EditableValue → Outcome
  | [] => .success []
  | v :: rest =>
    match listing? v with
    | none => .crashed .integerTooWide
    | some line =>
      let others := printValues rest
      { others with output := line ++ '\n' :: others.output }

def discoverValues (config : Config) (text : List Char) : Outcome :=
  let found := discover config.names (some config.registry) config.directiveKeywords text
  printValues found.result

def editValues (config : Config) (text : List Char) (assignments : List String) : Outcome :=
  match readAssignments assignments with
  | .error e => .failure 2 e.message
  | .ok edits =>
    match parseProgram text with
    | .error .malformed => .failure 2 ParseError.malformed.message
    | .error (.tooLong _) => .crashed .integerTooLong
    | .ok p => .success
      (applyEdits config.names config.directiveKeywords (some p) text edits).result

def perform (command : Command) (config : Config) (text : List Char) : Outcome :=
  match command with
  | .discover => discoverValues config text
  | .edit assignments => editValues config text assignments

/-! ## Runs -/

/-- Why there is no snippet: its file cannot be read, or there is no way to look for it. -/
inductive SnippetError where
  | file (e : FileError)
  | crash (c : Crash)
deriving DecidableEq, Repr

/-- What a run reads: the configuration file, if there is one, and the snippet, each with its
path. -/
structure Inputs where
  configPath : String
  config : Option (List UInt8)
  snippetPath : String
  snippet : Except SnippetError (List UInt8)

def issueText (issue : Issue) : String :=
  let steps := issue.path.map fun
    | .field name => name
    | .item index => toString index
  ".".intercalate steps ++ " (" ++ issue.fault.code ++ ")"

/-- The outcome of a command on its inputs. The configuration is read first. -/
def execute (command : Command) (inputs : Inputs) : Outcome :=
  match Config.load inputs.config with
  | .error (.undecodable _) => .crashed .undecodableConfig
  | .error (.malformed (.tooLong _)) => .crashed .integerTooLong
  | .error (.malformed .malformed) =>
    .failure 1 ("Invalid TOML in " ++ inputs.configPath ++ ": " ++ TomlError.malformed.message)
  | .error (.invalid issues) =>
    .failure 1 ("Invalid config in " ++ inputs.configPath ++ ": " ++
      ", ".intercalate (issues.map issueText))
  | .ok config =>
    match inputs.snippet with
    | .error (.file e) => .failure 2 (e.message inputs.snippetPath)
    | .error (.crash c) => .crashed c
    | .ok bytes =>
      match decodeUtf8 bytes with
      | .error e => .failure 2 e.message
      | .ok text => perform command config (lineFeeds text)

def configPath (disk : Disk) (root : FilePath) : FilePath :=
  ⟨"/", disk.resolve root ++ [Config.fileName]⟩

/-- The content of the configuration file, if there is one. -/
def findConfig (disk : Disk) (path : FilePath) : Except Crash (Option (List UInt8)) :=
  match disk.read path with
  | .ok content => .ok (some content)
  | .error .accessDenied => .error .unreachableConfig
  | .error .nameTooLong => .error .unreachableConfig
  | .error _ => .ok none

/-- Whether a path holds a character that no path can have. -/
def isUnusable (path : String) : Bool := path.toList.contains '\x00'

def findSnippet (disk : Disk) (path : String) : String × Except SnippetError (List UInt8) :=
  match (FilePath.ofText path).expand disk.home with
  | none => (path, .error (.crash .noHome))
  | some file =>
    (file.text,
      if isUnusable path then .error (.crash .unusablePath)
      else (disk.read file).mapError .file)

def runJob (disk : Disk) (job : Job) : Outcome :=
  match (FilePath.ofText job.root).expand disk.home with
  | none => .crashed .noHome
  | some root =>
    if isUnusable job.root then .crashed .unusablePath
    else
      let path := configPath disk root
      match findConfig disk path with
      | .error c => .crashed c
      | .ok config =>
        let (snippetPath, snippet) := findSnippet disk job.file
        execute job.command ⟨path.text, config, snippetPath, snippet⟩

def Job.paths (job : Job) (disk : Disk) : List FilePath :=
  let expanded (path : String) := ((FilePath.ofText path).expand disk.home).toList
  (expanded job.root).map (configPath disk) ++ expanded job.file

def refused : Refusal → Outcome
  | .help => ⟨.usage 0, [], ""⟩
  | .usage => ⟨.usage 2, [], ""⟩

def run (disk : Disk) (args : List String) : Outcome :=
  match readJob args with
  | .error refusal => refused refusal
  | .ok job => runJob disk job

end LiveChain.Cli
