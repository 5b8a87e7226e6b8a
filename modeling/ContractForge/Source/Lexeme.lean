import ContractForge.Source.Error
import ContractForge.Source.Token

/-!
# Lexemes

Readers for the single words of the source language. Each looks at the text
from the first character of a word and says what token stands there and how
many steps the cursor takes over it.
-/

namespace ContractForge

/-- A recognised word: its class, its decoded text and its length in steps. -/
structure Lexeme where
  kind : TokenKind
  value : String
  steps : Nat
deriving DecidableEq

/-- Why no word could be read. The offset counts columns from the first character. -/
inductive LexemeError where
  | invalid (summary : String) (offset : Nat)
  | missingDigits (base : Nat)
  | tooManyDigits
deriving DecidableEq

namespace Lexeme

/-! ### Names -/

/-- The characters of a name at the start of the text: letters, digits and
underscores, and one `?` or `!` that is not the start of a comparison. -/
def nameChars (text : List Char) : List Char :=
  let run := text.takeWhile Text.isWordChar
  match text.dropWhile Text.isWordChar with
  | mark :: tail =>
    if (mark == '?' || mark == '!') && tail.head? != some '=' then run ++ [mark] else run
  | [] => run

/-! ### Quoted text -/

/-- What an escaped character stands for. Between single quotes only the quote and
the backslash can be escaped, and a backslash before anything else is kept. -/
def unescape (quote escaped : Char) : List Char :=
  if quote == '\'' then
    if escaped == '\\' || escaped == '\'' then [escaped] else ['\\', escaped]
  else match escaped with
    | 'n' => ['\n']
    | 't' => ['\t']
    | 'r' => ['\r']
    | '0' => ['\x00']
    | 's' => [' ']
    | other => [other]

structure QuotedText where
  value : List Char
  interpolated : Bool
  steps : Nat

/-- Read up to and over the closing quote, or find that there is none. -/
def quotedText? (quote : Char) : List Char → Option QuotedText
  | [] => none
  | '\\' :: escaped :: rest =>
    (quotedText? quote rest).map fun inner =>
      { inner with value := unescape quote escaped ++ inner.value, steps := inner.steps + 2 }
  | c :: rest =>
    if c == quote then some ⟨[], false, 1⟩
    else (quotedText? quote rest).map fun inner =>
      { value := c :: inner.value
        interpolated := inner.interpolated ||
          (quote == '"' && c == '#' && rest.head? == some '\x7b')
        steps := inner.steps + 1 }

/-! ### Numerals -/

/-- Digits and the underscores between them. -/
def digitRun (text : List Char) : List Char :=
  text.takeWhile fun c => Text.isDigit c || c == '_'

def digitsOf (run : List Char) : List Char :=
  run.filter (· != '_')

/-- The value of one digit in a base up to sixteen. -/
def digitValue (c : Char) : Nat :=
  if Text.isDigit c then c.toNat - '0'.toNat
  else if 'a' ≤ c && c ≤ 'f' then c.toNat - 'a'.toNat + 10
  else c.toNat - 'A'.toNat + 10

def numberInBase (base : Nat) (digits : List Char) : Nat :=
  digits.foldl (fun value c => base * value + digitValue c) 0

/-- Whether a character is a digit of the base, which is sixteen or two. -/
def isDigitIn (base : Nat) (c : Char) : Bool :=
  if base == 16 then Text.isDigit c || ('a' ≤ c && c ≤ 'f') || ('A' ≤ c && c ≤ 'F')
  else c == '0' || c == '1'

/-- Read the digits after a base mark; the value is kept in decimal, which bounds it. -/
def basedNumeral (limit : Option Nat) (base : Nat) (text : List Char) :
    Except LexemeError Lexeme :=
  let run := text.takeWhile fun c => isDigitIn base c || c == '_'
  let digits := digitsOf run
  if digits.isEmpty then .error (.missingDigits base)
  else
    let decimal := toString (numberInBase base digits)
    if Text.exceeds limit decimal.toList then .error .tooManyDigits
    else .ok ⟨.integer, decimal, 2 + run.length⟩

/-- An exponent: its text and its length in steps. A mark that ends the text counts as
one whose sign would follow. -/
def exponent? : List Char → Option (List Char × Nat)
  | mark :: tail =>
    if mark == 'e' || mark == 'E' then
      match tail with
      | [] => some ([mark], 2)
      | first :: more =>
        if first == '+' || first == '-' then
          let digits := more.takeWhile Text.isDigit
          some (mark :: first :: digits, 2 + digits.length)
        else if Text.isDigit first then
          let digits := tail.takeWhile Text.isDigit
          some (mark :: digits, 1 + digits.length)
        else none
    else none
  | [] => none

/-- A decimal point followed by digits: its text and its length. A point before
anything else starts a call. -/
def fraction? : List Char → Option (List Char × Nat)
  | '.' :: first :: more =>
    if Text.isDigit first then
      let run := digitRun (first :: more)
      some ('.' :: digitsOf run, 1 + run.length)
    else none
  | _ => none

/-- Read a decimal numeral, with an optional fraction and exponent. -/
def decimalNumeral (text : List Char) : Lexeme :=
  let run := digitRun text
  let (fraction, fractionSteps) := (fraction? (text.drop run.length)).getD ([], 0)
  let steps := run.length + fractionSteps
  let (exponent, exponentSteps) := (exponent? (text.drop steps)).getD ([], 0)
  let kind := if fraction.isEmpty && exponent.isEmpty then TokenKind.integer else .float
  ⟨kind, String.ofList (digitsOf run ++ fraction ++ exponent), steps + exponentSteps⟩

/-- Read a numeral that starts with a digit. -/
def numeral (limit : Option Nat) (text : List Char) : Except LexemeError Lexeme :=
  match text with
  | '0' :: 'x' :: digits | '0' :: 'X' :: digits => basedNumeral limit 16 digits
  | '0' :: 'b' :: digits | '0' :: 'B' :: digits => basedNumeral limit 2 digits
  | _ => .ok (decimalNumeral text)

/-! ### Words by their first character -/

/-- Read a quoted text that starts with its quote. -/
def quotedLiteral (quote : Char) (rest : List Char) (offset : Nat) :
    Except LexemeError (QuotedText × Nat) :=
  match quotedText? quote rest with
  | some text => .ok (text, 1 + text.steps)
  | none => .error (.invalid "Unterminated string literal" offset)

/-- Read an instance variable after its `@`. -/
def instanceVariable (rest : List Char) : Except LexemeError Lexeme :=
  if rest.head? == some '@' then .error (.invalid "Class variables (@@) are not supported" 0)
  else
    let name := nameChars rest
    if name.isEmpty then .error (.invalid "Expected instance variable name after '@'" 0)
    else .ok ⟨.ivar, String.ofList name, 1 + name.length⟩

/-- Read a symbol after its `:`, or find that the colon is no symbol. A colon that ends
the text reads as a symbol without text. -/
def symbol? (rest : List Char) : Except LexemeError (Option Lexeme) :=
  match rest with
  | [] => .ok (some ⟨.symbol, "", 3⟩)
  | first :: tail =>
    if Text.isLetter first || first == '_' then
      let name := nameChars rest
      .ok (some ⟨.symbol, String.ofList name, 1 + name.length⟩)
    else if first == '"' || first == '\'' then do
      let (text, steps) ← quotedLiteral first tail 1
      .ok (some ⟨.symbol, String.ofList text.value, 1 + steps⟩)
    else .ok none

/-- Read a name: a label when a single colon follows, a keyword unless it is called as a
method, a constant when it starts with a capital. -/
def word (afterDot : Bool) (text : List Char) : Lexeme :=
  let name := nameChars text
  let value := String.ofList name
  let isPlain := name.getLast? != some '?' && name.getLast? != some '!'
  let labelled := match text.drop name.length with
    | ':' :: tail => isPlain && tail.head? != some ':'
    | _ => false
  let nameKind := if name.head?.any Text.isCapital then TokenKind.constant else .identifier
  if labelled then ⟨.label, value, name.length + 1⟩
  else match Keyword.ofSpelling? value with
    | some keyword =>
      ⟨if afterDot then nameKind else .keyword keyword, value, name.length⟩
    | none => ⟨nameKind, value, name.length⟩

/-- Whether a percent sign starts one of the literals that the language leaves out. -/
def startsPercentLiteral : List Char → Bool
  | '%' :: letter :: opener :: _ =>
    "xwiWIqQr".toList.contains letter && "([\x7b<|!/".toList.contains opener
  | _ => false

/-- Read an operator or delimiter, the longest that fits. -/
def markOrError (text : List Char) : Except LexemeError Lexeme :=
  let long? := (Mark.ofChars? (text.take 3)).filter fun mark => mark.spelling.length == 3
  let pair? := (Mark.ofChars? (text.take 2)).filter fun mark => mark.spelling.length == 2
  match long? <|> pair? with
  | some mark => .ok ⟨.mark mark, mark.spelling, mark.spelling.length⟩
  | none =>
    if text.head? == some (Char.ofNat 0x60) || startsPercentLiteral text then
      let start := Text.quoted (String.ofList (text.take 2))
      .error (.invalid s!"Unsupported literal starting with {start}" 0)
    else match Mark.ofChars? (text.take 1) with
      | some mark => .ok ⟨.mark mark, mark.spelling, 1⟩
      | none =>
        let shown := Text.quoted (String.ofList (text.take 1))
        .error (.invalid s!"Unexpected character {shown}" 0)

/-- Read the word at the start of a non-empty text. A colon may start a symbol only
where `symbolAllowed`, and a keyword directly after a dot is a method name. -/
def read (limit : Option Nat) (symbolAllowed afterDot : Bool) (first : Char) (rest : List Char) :
    Except LexemeError Lexeme := do
  if first == '"' || first == '\'' then
    let (text, steps) ← quotedLiteral first rest 0
    let kind := if text.interpolated then TokenKind.interpolated else .string
    return ⟨kind, String.ofList text.value, steps⟩
  if Text.isDigit first then
    return ← numeral limit (first :: rest)
  if first == '@' then
    return ← instanceVariable rest
  if first == '$' then
    throw (.invalid "Global variables are not supported" 0)
  if first == ':' && symbolAllowed then
    if let some lexeme ← symbol? rest then
      return lexeme
  if Text.isLetter first || first == '_' then
    return word afterDot (first :: rest)
  markOrError (first :: rest)

end Lexeme

end ContractForge
