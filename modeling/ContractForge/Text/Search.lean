import ContractForge.Text.Split

/-!
# Searching text

Text is searched from left to right, with the character before the current place
at hand, so that a search can ask where words begin and end.
-/

namespace ContractForge.Text

/-- What follows a beginning, if the text has it. -/
def after? (start : String) (chars : List Char) : Option (List Char) :=
  if start.toList.isPrefixOf chars then some (chars.drop start.length) else none

/-- A blank within a line. -/
def isBlankChar (c : Char) : Bool :=
  c == ' ' || c == '\t'

/-- A character that names of the generated language can start with. -/
def isNameStart (c : Char) : Bool :=
  c.isAlpha || c == '_'

/-- The word at the beginning of a text and what follows it. -/
def word? (chars : List Char) : Option (List Char × List Char) :=
  match chars.takeWhile isWordChar with
  | [] => none
  | word => some (word, chars.dropWhile isWordChar)

/-- The name at the beginning of a text and what follows it. -/
def name? (chars : List Char) : Option (List Char × List Char) :=
  if chars.head?.any isNameStart then word? chars else none

/-- A word begins here, if the next character is one of words. -/
def startsWord (previous : Option Char) : Bool :=
  !previous.any isWordChar

/-- A word ends here, if the previous character is one of words. -/
def endsWord (rest : List Char) : Bool :=
  !rest.head?.any isWordChar

/-- Whether the whole word stands here, given the character before. -/
def wordHere (word : String) (previous : Option Char) (chars : List Char) : Bool :=
  startsWord previous && (after? word chars).any endsWord

/-- Whether a test holds at some place of a text, the end included. -/
def anywhere (test : Option Char → List Char → Bool) (previous : Option Char) :
    List Char → Bool
  | [] => test previous []
  | c :: rest => test previous (c :: rest) || anywhere test (some c) rest

/-- All findings from a line on, each with its line, given the character before and the number
of characters that are still part of the last one. -/
def findAllFrom (here? : Option Char → List Char → Option String) (line : Nat)
    (previous : Option Char) (skip : Nat) : List Char → List (String × Nat)
  | [] => []
  | c :: rest =>
    let next := if c == '\n' then line + 1 else line
    match skip, here? previous (c :: rest) with
    | skip + 1, _ => findAllFrom here? next (some c) skip rest
    | 0, some found =>
      (found, line) :: findAllFrom here? next (some c) (found.length - 1) rest
    | 0, none => findAllFrom here? next (some c) 0 rest

/-- All findings in a text, each with its line. The search goes on behind what was found. -/
def findAll (here? : Option Char → List Char → Option String) (chars : List Char) :
    List (String × Nat) :=
  findAllFrom here? 1 none 0 chars

/-- Whether a test holds at the beginning of some line. -/
def atSomeLine (test : List Char → Bool) (chars : List Char) : Bool :=
  anywhere (fun previous rest => (previous.isNone || previous == some '\n') && test rest) none
    chars

/-- What follows white space at the beginning; there must be some. -/
def afterSpaces? (chars : List Char) : Option (List Char) :=
  if chars.head?.any isSpace then some (chars.dropWhile isSpace) else none

/-- All names in a text, in order. The part of a word from its first letter on is a name. -/
def namesIn (inside : Bool) : List Char → List (List Char)
  | [] => []
  | c :: rest =>
    if inside && isWordChar c then namesIn true rest
    else if isNameStart c then (c :: rest.takeWhile isWordChar) :: namesIn true rest
    else namesIn false rest

end ContractForge.Text
