import LiveChain.Text.CharClass

/-!
# Command-line arguments

Options may be shortened as long as they stay unique, and a value may follow its option or be
attached to it with an equality sign. After `--` nothing is an option.
-/

set_option autoImplicit false

namespace LiveChain.Cli

open Text

inductive Flag where
  | help
  | logLevel
  | root
  | set
deriving DecidableEq, Repr

abbrev Flags := List (String × Flag)

def mainFlags : Flags := [("-h", .help), ("--help", .help), ("--log-level", .logLevel)]

def commonFlags : Flags := [("-h", .help), ("--help", .help), ("--root", .root)]

/-- The options of the command that edits a snippet. -/
def editingFlags : Flags := commonFlags ++ [("--set", .set)]

/-! ## What an argument is -/

/-- What an argument is: no option, an option with the value attached to it, a one-letter option
with more letters right behind it, an option that does not exist, or one that is shortened too
much. -/
inductive Word where
  | plain
  | flag (f : Flag) (attached : Option String)
  | cluster (f : Flag) (more : List Char)
  | unknown
  | ambiguous
deriving DecidableEq, Repr

/-- Digits, or digits with a point before the last ones; a line feed may follow. -/
def isUnsignedNumber (cs : List Char) : Bool :=
  let body := if cs.getLast? == some '\n' then cs.dropLast else cs
  match body.dropWhile isDecimal with
  | [] => !body.isEmpty
  | '.' :: fraction => !fraction.isEmpty && fraction.all isDecimal
  | _ => false

def isNegativeNumber : List Char → Bool
  | '-' :: rest => isUnsignedNumber rest
  | _ => false

def splitAtEquals (cs : List Char) : List Char × Option String :=
  match cs.dropWhile (· ≠ '=') with
  | _ :: value => (cs.takeWhile (· ≠ '='), some (String.ofList value))
  | [] => (cs, none)

/-- The options that a spelling may be short for. One dash and a letter may have more letters
right behind them. -/
def completions (flags : Flags) (cs : List Char) : List Word :=
  match cs with
  | '-' :: '-' :: _ =>
    let (stem, attached) := splitAtEquals cs
    (flags.filter fun f => stem.isPrefixOf f.1.toList).map fun f => .flag f.2 attached
  | _ =>
    (flags.filter fun f => f.1.toList = cs.take 2).map fun f => .cluster f.2 (cs.drop 2)

def classifyDashed (flags : Flags) (cs : List Char) : Word :=
  let (stem, attached) := splitAtEquals cs
  match flags.find? fun f => f.1.toList = stem with
  | some (_, f) => .flag f attached
  | none =>
    match completions flags cs with
    | [word] => word
    | _ :: _ :: _ => .ambiguous
    | [] => if isNegativeNumber cs || cs.contains ' ' then .plain else .unknown

def classify (flags : Flags) (arg : String) : Word :=
  match arg.toList with
  | ['-'] => .plain
  | '-' :: rest => classifyDashed flags ('-' :: rest)
  | _ => .plain

/-- The argument after which nothing is an option. -/
def separator : String := "--"

/-- Whether an argument can be the value of the option before it. -/
def isValue (flags : Flags) (arg : String) : Bool :=
  arg ≠ separator && classify flags arg = .plain

/-! ## Jobs -/

/-- What is to be done with a snippet: list its values, or edit them. -/
inductive Command where
  | discover
  | edit (assignments : List String)
deriving DecidableEq, Repr

/-- What is asked for: a command, its snippet, and the directory of the configuration. -/
structure Job where
  command : Command
  file : String
  root : String
deriving DecidableEq, Repr

/-- Why there is no job: help is asked for, or the arguments cannot be read. -/
inductive Refusal where
  | help
  | usage
deriving DecidableEq, Repr

/-- Help with a value attached to it cannot be given. -/
def helpRefusal : Option String → Refusal
  | none => .help
  | some _ => .usage

/-- Help with letters right behind it is given, unless a value or a dash follows the letters that
ask for help again. -/
def clusterRefusal (more : List Char) : Refusal :=
  match more.dropWhile (· == 'h') with
  | '=' :: _ => .usage
  | '-' :: _ => .usage
  | _ => .help

structure Gathered where
  file : Option String
  root : String
  assignments : List String
  stray : Bool

def Gathered.take (g : Gathered) (f : Flag) (value : String) : Gathered :=
  match f with
  | .root => { g with root := value }
  | .set => { g with assignments := g.assignments ++ [value] }
  | _ => g

/-- Reads the arguments of a command: one file, anywhere among the options. -/
def gather (flags : Flags) : List String → Gathered → Except Refusal Gathered
  | [], g => .ok g
  | arg :: rest, g =>
    if arg = separator then
      match g.file, rest with
      | none, [file] => .ok { g with file := some file }
      | _, _ => .error .usage
    else match classify flags arg with
      | .plain =>
        if g.file.isSome then gather flags rest { g with stray := true }
        else if rest = [separator] then .ok { g with file := some arg }
        else gather flags rest { g with file := some arg }
      | .flag .help attached => .error (helpRefusal attached)
      | .cluster _ more => .error (clusterRefusal more)
      | .flag f (some value) => gather flags rest (g.take f value)
      | .flag f none =>
        match rest with
        | value :: rest =>
          if isValue flags value then gather flags rest (g.take f value) else .error .usage
        | [] => .error .usage
      | .unknown => gather flags rest { g with stray := true }
      | .ambiguous => .error .usage

/-- The gathered arguments of a command, which must be complete. -/
def gatherAll (flags : Flags) (args : List String) : Except Refusal (String × Gathered) := do
  let g ← gather flags args ⟨none, ".", [], false⟩
  match g.file with
  | some file => if g.stray then throw .usage else return (file, g)
  | none => throw .usage

def readCommand (name : String) (args : List String) : Except Refusal Job := do
  if name = "discover" then
    let (file, g) ← gatherAll commonFlags args
    return ⟨.discover, file, g.root⟩
  else if name = "rewrite" then
    let (file, g) ← gatherAll editingFlags args
    return ⟨.edit g.assignments, file, g.root⟩
  else throw .usage

def logLevels : List String := ["DEBUG", "INFO", "WARNING", "ERROR"]

/-- Reads the options before the command, and the command. An option that does not exist is
refused in the end. -/
def readMain (stray : Bool) : List String → Except Refusal Job
  | [] => .error .usage
  | arg :: rest =>
    if arg = separator then .error .usage
    else match classify mainFlags arg with
      | .plain =>
        match readCommand arg rest with
        | .ok job => if stray then .error .usage else .ok job
        | .error refusal => .error refusal
      | .flag .help attached => .error (helpRefusal attached)
      | .cluster _ more => .error (clusterRefusal more)
      | .flag _ (some level) =>
        if logLevels.contains level then readMain stray rest else .error .usage
      | .flag _ none =>
        match rest with
        | level :: rest => if logLevels.contains level then readMain stray rest else .error .usage
        | [] => .error .usage
      | .unknown => readMain true rest
      | .ambiguous => .error .usage

/-- The job that the arguments ask for. Options that are shortened too much are refused before
anything else. -/
def readJob (args : List String) : Except Refusal Job :=
  let options := args.takeWhile (· ≠ separator)
  if options.any fun arg => classify mainFlags arg = .ambiguous then .error .usage
  else readMain false args

end LiveChain.Cli
