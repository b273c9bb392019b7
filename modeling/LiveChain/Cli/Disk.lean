import LiveChain.Text.Quoted

/-!
# Paths and the files behind them

A path is a list of names without empty and idle steps. What a run can see of a disk is a function
from paths to what stands there, or to the error of looking; a tree of files is one such disk.
-/

set_option autoImplicit false

namespace LiveChain.Cli

/-- A path: what it starts with, and its steps. -/
structure FilePath where
  root : String
  steps : List String
deriving DecidableEq, Repr

namespace FilePath

/-- The path that a text is. Repeated slashes and steps that stay in place do not count, except
that exactly two slashes at the start are kept. -/
def ofText (s : String) : FilePath :=
  let slashes := (s.toList.takeWhile (· == '/')).length
  let root := if slashes = 0 then "" else if slashes = 2 then "//" else "/"
  ⟨root, (s.splitOn "/").filter fun step => step ≠ "" && step ≠ "."⟩

def text (p : FilePath) : String :=
  if p.root.isEmpty && p.steps.isEmpty then "." else p.root ++ "/".intercalate p.steps

/-- The path with a home directory in place of a tilde at its start. None when the home directory
is not known. -/
def expand (home : String → Option String) (p : FilePath) : Option FilePath :=
  match p.root.isEmpty, p.steps with
  | true, first :: rest =>
    match first.toList with
    | '~' :: user =>
      (home (String.ofList user)).map fun directory =>
        let base := ofText directory
        ⟨base.root, base.steps ++ rest⟩
    | _ => some p
  | _, _ => some p

end FilePath

inductive FileError where
  | notFound
  | accessDenied
  | notADirectory
  | isADirectory
  | nameTooLong
deriving DecidableEq, Repr

def FileError.message (e : FileError) (path : String) : String :=
  let what := match e with
    | .notFound => "[Errno 2] No such file or directory"
    | .accessDenied => "[Errno 13] Permission denied"
    | .notADirectory => "[Errno 20] Not a directory"
    | .isADirectory => "[Errno 21] Is a directory"
    | .nameTooLong => "[Errno 36] File name too long"
  what ++ ": " ++ String.ofList (Text.quoted path.toList)

/-- The most bytes that a step of a path may have. -/
def longestName : Nat := 255

/-- What a run can see of a disk: the working directory, home directories by user, and what
reading a path gives. -/
structure Disk where
  here : List String
  home : String → Option String
  read : FilePath → Except FileError (List UInt8)

/-- The place that a path leads to by its text alone: a step upwards takes back the one before
it. -/
def Disk.resolve (d : Disk) (p : FilePath) : List String :=
  p.steps.foldl (fun place name => if name = ".." then place.dropLast else place ++ [name])
    (if p.root.isEmpty then d.here else [])

/-- Files by their place: the names from the top of the tree on. The working directory and some
other directories exist whatever files there are. -/
structure FileTree where
  here : List String
  directories : List (List String)
  files : List (List String × List UInt8)

namespace FileTree

def file? (t : FileTree) (place : List String) : Option (List UInt8) :=
  (t.files.find? fun f => f.1 == place).map (·.2)

def isDirectory (t : FileTree) (place : List String) : Bool :=
  place.isPrefixOf t.here || (t.directories.any fun other => place.isPrefixOf other) ||
    t.files.any fun f => place.isPrefixOf f.1 && place.length < f.1.length

/-- One step from a place; the step leads upwards or to something that exists. -/
def step (t : FileTree) (place : List String) (name : String) :
    Except FileError (List String) :=
  if !t.isDirectory place then .error .notADirectory
  else if name = ".." then .ok place.dropLast
  else if longestName < name.utf8ByteSize then .error .nameTooLong
  else
    let next := place ++ [name]
    if t.isDirectory next || (t.file? next).isSome then .ok next else .error .notFound

/-- The content of the file that a path leads to, step by step. -/
def read (t : FileTree) (p : FilePath) : Except FileError (List UInt8) := do
  let place ← p.steps.foldlM t.step (if p.root.isEmpty then t.here else [])
  match t.file? place with
  | some content => return content
  | none => throw .isADirectory

def toDisk (t : FileTree) (home : String → Option String) : Disk := ⟨t.here, home, t.read⟩

end FileTree

end LiveChain.Cli
