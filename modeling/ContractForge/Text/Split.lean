import ContractForge.Text.Letter

/-!
# Cutting text into parts

Splitting at a separator keeps empty parts, so that joining the parts with the
separator gives the text back.
-/

namespace ContractForge.Text

/-- The parts of a text between the occurrences of a separator. -/
def splitAt (separator : Char) : List Char → List (List Char)
  | [] => [[]]
  | c :: rest =>
    if c == separator then [] :: splitAt separator rest
    else match splitAt separator rest with
      | part :: parts => (c :: part) :: parts
      | [] => [[c]]

/-- The lines of a text. A text that ends with a line break has an empty last line. -/
def lines (text : String) : List String :=
  (splitAt '\n' text.toList).map String.ofList

/-- Lines joined by line breaks. -/
def unlines (lines : List String) : String :=
  "\n".intercalate lines

def commaSeparated (texts : List String) : String :=
  ", ".intercalate texts

/-- The names of a path that is written with double colons. -/
def scopeParts : List Char → List (List Char)
  | [] => [[]]
  | ':' :: ':' :: rest => [] :: scopeParts rest
  | c :: rest => match scopeParts rest with
      | part :: parts => (c :: part) :: parts
      | [] => [[c]]

/-- The last name of a path that is written with double colons. -/
def lastScope (path : String) : String :=
  String.ofList ((scopeParts path.toList).getLast?.getD [])

/-- The text without the leading occurrences of a character. -/
def dropLeading (c : Char) (text : String) : String :=
  String.ofList (text.toList.dropWhile (· == c))

/-- The text without trailing characters of a class. -/
def dropTrailing (drops : Char → Bool) (text : String) : String :=
  String.ofList (text.toList.reverse.dropWhile drops).reverse

def startsWith (text start : String) : Bool :=
  start.toList.isPrefixOf text.toList

def endsWith (text ending : String) : Bool :=
  ending.toList.reverse.isPrefixOf text.toList.reverse

/-- Whether a list occurs in another without gaps. -/
def occursIn (pattern : List Char) : List Char → Bool
  | [] => pattern.isEmpty
  | c :: rest => pattern.isPrefixOf (c :: rest) || occursIn pattern rest

/-- The text with its first character as a capital. -/
def capitalized : List Char → List Char
  | [] => []
  | first :: rest => capitalOf first ++ rest

/-- The parts of a name between underscores, without the empty ones. -/
def underscoreParts (chars : List Char) : List (List Char) :=
  (splitAt '_' chars).filter fun part => !part.isEmpty

end ContractForge.Text
