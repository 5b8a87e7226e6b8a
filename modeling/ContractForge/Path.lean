import ContractForge.Text.Split

/-!
# Paths

A path is a root, which is empty for relative paths, and the names below it.
Empty names and single dots are dropped when a path is read; double dots stay.
-/

namespace ContractForge

/-- A path of names separated by slashes. -/
structure Path where
  root : String := ""
  names : List String := []
deriving DecidableEq

namespace Path

/-- The root of a path. Exactly two slashes in front are a root of their own. -/
def rootOf : List Char → String
  | '/' :: '/' :: '/' :: _ => "/"
  | '/' :: '/' :: _ => "//"
  | '/' :: _ => "/"
  | _ => ""

def ofText (text : String) : Path :=
  let names := (Text.splitAt '/' text.toList).map String.ofList
  { root := rootOf text.toList, names := names.filter fun name => name != "" && name != "." }

/-- The path as a text; a path without names is a dot. -/
def text (path : Path) : String :=
  if path.root == "" && path.names.isEmpty then "."
  else path.root ++ "/".intercalate path.names

def name? (path : Path) : Option String :=
  path.names.getLast?

/-- The path below another: a path with a root takes the place of the whole. -/
def below (path base : Path) : Path :=
  if path.root != "" then path else { base with names := base.names ++ path.names }

/-- The path without its last name. -/
def parent (path : Path) : Path :=
  { path with names := path.names.dropLast }

/-- A name as its stem and its suffix. The suffix starts with the last dot; a dot at either end
of a name starts no suffix. -/
def splitName (name : String) : String × String :=
  let reversed := name.toList.reverse
  let ending := reversed.takeWhile (· != '.')
  match reversed.dropWhile (· != '.') with
  | _ :: stem@(_ :: _) =>
    if ending.isEmpty then (name, "")
    else (String.ofList stem.reverse, String.ofList ('.' :: ending.reverse))
  | _ => (name, "")

def suffix (path : Path) : String :=
  (path.name?.map fun name => (splitName name).2).getD ""

/-- The path with another suffix; a path without names has none to change. -/
def withSuffix? (path : Path) (suffix : String) : Option Path :=
  path.name?.map fun name =>
    { path with names := path.names.dropLast ++ [(splitName name).1 ++ suffix] }

/-- The path as seen from a directory above it. -/
def relativeTo? (path base : Path) : Option Path :=
  if path.root == base.root && base.names.isPrefixOf path.names then
    some { names := path.names.drop base.names.length }
  else none

end Path

def generatedSuffix : String := ".sol"

/-- The name of the file generated from a source: its path below the root, or its name alone. -/
def outputName? (source : Path) (root : Option Path) : Option Path :=
  match root with
  | some root => (source.relativeTo? root).bind fun below => below.withSuffix? generatedSuffix
  | none => (source.withSuffix? generatedSuffix).map fun target =>
    { names := target.name?.toList }

end ContractForge
