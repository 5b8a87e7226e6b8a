import ContractForge.Text.Split

/-!
# Blanking out literals and comments

Forbidden words may occur in string literals and comments. Both are replaced by
blanks, character by character, so that every other character keeps its place;
line breaks stay. Code that is spliced into a double-quoted literal is kept.
-/

namespace ContractForge.Check

/-- A character blanked out; line breaks stay. -/
def blankChar (c : Char) : Char :=
  if c == '\n' then '\n' else ' '

/-- What follows the closing quote of a single-quoted literal. A backslash escapes the next
character, which must be on the same line. -/
def afterSingle? : List Char → Option (List Char)
  | [] => none
  | '\'' :: rest => some rest
  | '\\' :: c :: rest => if c == '\n' then none else afterSingle? rest
  | '\\' :: [] => none
  | _ :: rest => afterSingle? rest

/-- The code of the splice that a text starts with: what stands before the closing brace. -/
def splice? : List Char → Option (List Char)
  | '#' :: '{' :: rest =>
    if rest.contains '}' then some (rest.takeWhile (· != '}')) else none
  | _ => none

/-- What follows the splice that a text starts with. -/
def afterSplice? : List Char → Option (List Char)
  | '#' :: '{' :: rest =>
    match rest.dropWhile (· != '}') with
    | _ :: after => some after
    | [] => none
  | _ => none

theorem length_afterSplice_lt {chars after : List Char} (found : afterSplice? chars = some after) :
    after.length < chars.length := by
  unfold afterSplice? at found
  split at found
  · rename_i rest
    split at found
    · rename_i c others dropped
      have shorter := (List.dropWhile_sublist (l := rest) (· != '}')).length_le
      rw [dropped] at shorter
      simp only [Option.some.injEq] at found
      subst found
      simp only [List.length_cons] at shorter ⊢
      omega
    · cases found
  · cases found

/-- What follows the closing quote of a double-quoted literal. A splice is skipped as a whole;
only if the literal cannot be closed behind it, its characters are read one by one. -/
def afterDouble? (chars : List Char) : Option (List Char) :=
  match chars with
  | [] => none
  | '"' :: rest => some rest
  | '\\' :: [] => none
  | '\\' :: c :: rest => if c == '\n' then none else afterDouble? rest
  | c :: rest =>
    match _found : afterSplice? (c :: rest) with
    | none => afterDouble? rest
    | some after =>
      match afterDouble? after with
      | some closed => some closed
      | none => afterDouble? rest
termination_by chars.length
decreasing_by
  · simp only [List.length_cons]
    omega
  · simp only [List.length_cons]
    omega
  · exact length_afterSplice_lt _found
  · simp only [List.length_cons]
    omega

/-- A double-quoted literal blanked out, with its splices treated as given. The number says how
many characters of a splice are still to be passed over. -/
def blankLiteral (keep : List Char → List Char) (skip : Nat) : List Char → List Char
  | [] => []
  | c :: rest =>
    match skip, splice? (c :: rest) with
    | skip + 1, _ => blankLiteral keep skip rest
    | 0, some code =>
      ' ' :: ' ' :: (keep code ++ ' ' :: blankLiteral keep (code.length + 2) rest)
    | 0, none => blankChar c :: blankLiteral keep 0 rest

/-- The literal or comment that a text starts with. -/
def noise? : List Char → Option (List Char)
  | '\'' :: rest => (afterSingle? rest).map fun after =>
    '\'' :: rest.take (rest.length - after.length)
  | '"' :: rest => (afterDouble? rest).map fun after =>
    '"' :: rest.take (rest.length - after.length)
  | '#' :: rest => some ('#' :: rest.takeWhile (· != '\n'))
  | _ => none

/-- A literal or comment blanked out. -/
def blankNoise (keep : List Char → List Char) (text : List Char) : List Char :=
  if text.head? == some '"' then blankLiteral keep 0 text else text.map blankChar

/-- A text with literals and comments blanked out and the code of splices treated as given. The
number says how many characters are still to be passed over. -/
def scrubWith (keep : List Char → List Char) (skip : Nat) : List Char → List Char
  | [] => []
  | c :: rest =>
    match skip, noise? (c :: rest) with
    | skip + 1, _ => scrubWith keep skip rest
    | 0, some text => blankNoise keep text ++ scrubWith keep (text.length - 1) rest
    | 0, none => c :: scrubWith keep 0 rest

/-- The code of a splice with literals and comments blanked out. It ends before the first
closing brace, so that its own literals have no splices. -/
def scrubSplice (code : List Char) : List Char :=
  scrubWith (List.map blankChar) 0 code

/-- A source text with literals and comments blanked out. -/
def scrub (source : List Char) : List Char :=
  scrubWith scrubSplice 0 source

end ContractForge.Check
