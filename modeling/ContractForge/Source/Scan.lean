import ContractForge.Source.Cursor
import ContractForge.Source.Lexeme

/-!
# Scanning a source text

Scanning turns a source text into its tokens. Line ends are tokens, except
where a line obviously goes on; blanks and comments only separate tokens.
-/

namespace ContractForge

namespace Scan

def commentLength (text : List Char) : Nat :=
  (text.takeWhile (· != '\n')).length

/-- The length of a block comment, up to the end of the line that closes it. -/
def blockCommentLength? : (lineStart : Bool) → List Char → Option Nat
  | _, [] => none
  | lineStart, c :: rest =>
    if lineStart && "=end".toList.isPrefixOf (c :: rest) then
      some (commentLength (c :: rest))
    else
      (blockCommentLength? (c == '\n') rest).map (· + 1)

/-- What stands at a place of the text. Lengths are counted without the first step. -/
inductive Item where
  /-- Blanks, which set the next token apart. -/
  | blank (more : Nat)
  /-- A comment. -/
  | comment (more : Nat)
  /-- The end of a line. -/
  | newline
  /-- The mark after which nothing is read. -/
  | stop
  /-- A word of the language. -/
  | word (lexeme : Lexeme)

/-- Whether a colon may start a symbol: not directly behind a value. -/
def symbolAllowed (spaced : Bool) (previous : Option TokenKind) : Bool :=
  spaced || match previous with
    | some .identifier | some .constant | some .ivar => false
    | some (.mark .rparen) | some (.mark .rbracket) => false
    | _ => true

/-- Recognise what stands at the cursor, in front of a non-empty rest. -/
def item (limit : Option Nat) (cursor : Cursor) (spaced : Bool) (previous : Option TokenKind)
    (first : Char) (rest : List Char) : Except ReadError Item :=
  let text := first :: rest
  if first == ' ' || first == '\t' || first == '\r' then .ok (.blank 0)
  else if first == '\\' && rest.head? == some '\n' then .ok (.blank 1)
  else if first == '\n' then .ok .newline
  else if cursor.lineStart && "=begin".toList.isPrefixOf text then
    match blockCommentLength? true text with
    | some length => .ok (.comment (length - 1))
    | none => .error (.at "Unterminated =begin comment" cursor.line cursor.column)
  else if first == '#' then .ok (.comment (commentLength rest))
  else if cursor.lineStart && "__END__".toList.isPrefixOf text then .ok .stop
  else
    let afterDot := previous == some (.mark .dot)
    match Lexeme.read limit (symbolAllowed spaced previous) afterDot first rest with
    | .ok lexeme => .ok (.word lexeme)
    | .error (.invalid summary offset) =>
      .error (.at summary cursor.line (cursor.column + offset))
    | .error (.missingDigits base) => .error (.missingDigits base)
    | .error .tooManyDigits => .error (.tooManyDigits none)

/-- Whether a line end is a token, given the token before it. -/
def endsLine : Option TokenKind → Bool
  | none | some .newline | some (.mark .semicolon) => false
  | some kind => !kind.continuesLine

/-- The tokens so far, newest first, with the end of a line added where it counts. -/
def withNewline (done : List Token) (line column : Nat) : List Token :=
  if endsLine (done.head?.map Token.kind) then ⟨.newline, "\n", line, column, false⟩ :: done
  else done

/-- Close the token list at the place where reading stopped. -/
def finish (cursor : Cursor) (done : List Token) : TokenStream :=
  { pending := (withNewline done cursor.line cursor.column).reverse
    last := ⟨.endOfInput, "", cursor.line, cursor.column, false⟩ }

/-- Scan from a place on. The tokens already read come newest first. -/
def tokensFrom (limit : Option Nat) (cursor : Cursor) (spaced : Bool) (done : List Token) :
    Except ReadError TokenStream :=
  match found : cursor.rest with
  | [] => .ok (finish cursor done)
  | first :: rest =>
    have nonempty : cursor.rest ≠ [] := by simp [found]
    match item limit cursor spaced (done.head?.map Token.kind) first rest with
    | .error error => .error error
    | .ok (.blank more) => tokensFrom limit (cursor.move (more + 1)) true done
    | .ok (.comment more) => tokensFrom limit (cursor.move (more + 1)) spaced done
    | .ok .newline =>
      tokensFrom limit (cursor.move (0 + 1)) false (withNewline done cursor.line cursor.column)
    | .ok .stop => .ok (finish cursor done)
    | .ok (.word lexeme) =>
      let token : Token := ⟨lexeme.kind, lexeme.value, cursor.line, cursor.column, spaced⟩
      tokensFrom limit (cursor.move (lexeme.steps - 1 + 1)) false (token :: done)
termination_by cursor.rest.length
decreasing_by all_goals exact Cursor.length_rest_move_lt _ _ nonempty

end Scan

/-- The tokens of a source text, with a limit on the digits of a number or without one. -/
def scanWithin (limit : Option Nat) (source : String) : Except ReadError TokenStream :=
  Scan.tokensFrom limit { rest := source.toList } false []

def scan (source : String) : Except ReadError TokenStream :=
  scanWithin (some Text.digitLimit) source

end ContractForge
