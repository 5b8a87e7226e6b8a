import ContractForge.Path
import ContractForge.Text.Quoted

/-!
# Workspaces

A workspace is a tree of files and directories. Directories exist if they were
made or if something is in them. Reading and writing fail as they do on a disk,
where names and paths have a limited length and the null character is in none.
-/

namespace ContractForge

/-- A tree of files and directories. -/
structure Workspace where
  files : List (Path × String) := []
  directories : List Path := []

/-- Why a file cannot be read or written. -/
inductive FileProblem where
  | missing | alreadyExists | notDirectory | isDirectory | nameTooLong
  /-- The path has a null character. -/
  | unopenable
  /-- The path of a directory that has to be made has a null character. -/
  | unmakeable
deriving DecidableEq, Repr

/-- A failure with the path that was asked for. -/
structure FileError where
  problem : FileProblem
  path : Path
deriving DecidableEq

def FileError.message (error : FileError) : String :=
  let shown := Text.quoted error.path.text
  match error.problem with
  | .missing => s!"[Errno 2] No such file or directory: {shown}"
  | .alreadyExists => s!"[Errno 17] File exists: {shown}"
  | .notDirectory => s!"[Errno 20] Not a directory: {shown}"
  | .isDirectory => s!"[Errno 21] Is a directory: {shown}"
  | .nameTooLong => s!"[Errno 36] File name too long: {shown}"
  | .unopenable => "embedded null byte"
  | .unmakeable => "mkdir: embedded null character in path"

namespace Workspace

inductive Entry where
  | file (text : String)
  | directory
deriving DecidableEq

def isBelow (directory path : Path) : Bool :=
  path.root == directory.root && directory.names.isPrefixOf path.names

/-- What a path without upward steps leads to. -/
def entry (workspace : Workspace) (path : Path) : Option Entry :=
  match workspace.files.find? fun (name, _) => name == path with
  | some (_, text) => some (.file text)
  | none =>
    let known := workspace.files.map Prod.fst ++ workspace.directories
    if path.names.isEmpty || known.any (isBelow path) then some .directory else none

def nameLimit : Nat := 255

def pathLimit : Nat := 4095

/-- Follow names from a directory. An upward step leads to the directory above. -/
def follow (workspace : Workspace) (place : Path) : List String → Except FileProblem Path
  | [] => return place
  | name :: rest => do
    if nameLimit < name.utf8ByteSize then throw .nameTooLong
    let next := if name == ".." then place.parent else { place with names := place.names ++ [name] }
    if rest.isEmpty then return next
    match workspace.entry next with
    | some .directory => follow workspace next rest
    | some (.file _) => throw .notDirectory
    | none => throw .missing

/-- The place that a path leads to. All directories on the way must exist. -/
def locate (workspace : Workspace) (path : Path) : Except FileProblem Path :=
  if pathLimit < path.text.utf8ByteSize then throw .nameTooLong
  else workspace.follow { path with names := [] } path.names

/-- Whether a path has a null character, which no file has in its name. -/
def hasNull (path : Path) : Bool :=
  path.names.any fun name => name.toList.contains '\x00'

/-- What a path leads to. A path that is too long cannot be asked for. -/
def lookup (workspace : Workspace) (path : Path) : Except FileError (Option Entry) :=
  if hasNull path then return none
  else match workspace.locate path with
    | .ok place => return workspace.entry place
    | .error .nameTooLong => throw ⟨.nameTooLong, path⟩
    | .error _ => return none

/-! ### Reading -/

/-- A text with one kind of line break. -/
def plainBreaks : List Char → List Char
  | [] => []
  | '\r' :: '\n' :: rest => '\n' :: plainBreaks rest
  | '\r' :: rest => '\n' :: plainBreaks rest
  | c :: rest => c :: plainBreaks rest

def read (workspace : Workspace) (path : Path) : Except FileError String := do
  if hasNull path then throw ⟨.unopenable, path⟩
  let place ← (workspace.locate path).mapError fun problem => ⟨problem, path⟩
  match workspace.entry place with
  | some (.file text) => return String.ofList (plainBreaks text.toList)
  | some .directory => throw ⟨.isDirectory, path⟩
  | none => throw ⟨.missing, path⟩

def namesBefore : List String → List String → Bool
  | [], _ => true
  | _ :: _, [] => false
  | left :: lefts, right :: rights =>
    if left == right then namesBefore lefts rights else left < right

/-- All beginnings of a list of names that are longer than a given length. -/
def longerBeginnings (length : Nat) (names : List String) : List (List String) :=
  (List.range (names.length - length)).map fun more => names.take (length + more + 1)

/-- Everything below a directory whose name ends with a suffix, in the order of the names. -/
def below (workspace : Workspace) (directory : Path) (suffix : String) : List Path :=
  match workspace.locate directory with
  | .error _ => []
  | .ok place =>
    let known := (workspace.files.map Prod.fst ++ workspace.directories).filter (isBelow place)
    let entries := known.flatMap fun path => longerBeginnings place.names.length path.names
    let matching := entries.filter fun names =>
      names.getLast?.any fun name => Text.endsWith name suffix
    let sorted := matching.eraseDups.mergeSort namesBefore
    sorted.map fun names =>
      { directory with names := directory.names ++ names.drop place.names.length }

/-! ### Writing -/

/-- Make a directory in one that exists. A directory that is there already is fine. -/
def makeDirectory (workspace : Workspace) (path : Path) : Except FileProblem Workspace := do
  let place ← workspace.locate path
  match workspace.entry place with
  | some .directory => return workspace
  | some (.file _) => throw .alreadyExists
  | none => return { workspace with directories := workspace.directories ++ [place] }

/-- Make a directory and those above it. The names come last first. -/
def makeAll (workspace : Workspace) (root : String) : List String → Except FileError Workspace
  | [] => return workspace
  | name :: above => do
    let path : Path := { root, names := (name :: above).reverse }
    match workspace.makeDirectory path with
    | .ok made => return made
    | .error .missing =>
      let made ← makeAll workspace root above
      (made.makeDirectory path).mapError fun problem => ⟨problem, path⟩
    | .error problem => throw ⟨problem, path⟩

def put (workspace : Workspace) (place : Path) (text : String) : Workspace :=
  let others := workspace.files.filter fun (name, _) => name != place
  { workspace with files := others ++ [(place, text)] }

/-- Write a file, and make the directories above it. -/
def write (workspace : Workspace) (path : Path) (text : String) :
    Except FileError Workspace := do
  if hasNull path.parent then throw ⟨.unmakeable, path⟩
  let made ← workspace.makeAll path.root path.parent.names.reverse
  if hasNull path then throw ⟨.unopenable, path⟩
  let place ← (made.locate path).mapError fun problem => ⟨problem, path⟩
  if made.entry place == some .directory then throw ⟨.isDirectory, path⟩
  return made.put place text

/-- The files that are new or changed since an earlier state, by their path. -/
def changes (earlier later : Workspace) : List (Path × String) :=
  later.files.filter fun file => !earlier.files.contains file

end Workspace

end ContractForge
