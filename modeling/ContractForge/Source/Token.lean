/-!
# Tokens

The words of the source language: keywords, operators and delimiters, the
literal and name classes, and the two tokens that have no text of their own,
the end of a line and the end of the text.
-/

namespace ContractForge

/-- Reserved words. The last six are reserved so that the grammar can reject
them by name. -/
inductive Keyword where
  | classKw | moduleKw | defKw | endKw | ifKw | elsifKw | elseKw | unlessKw | whileKw | untilKw
  | forKw | inKw | doKw | thenKw | returnKw | breakKw | nextKw | trueKw | falseKw | nilKw | selfKw
  | andKw | orKw | notKw | beginKw | rescueKw | ensureKw | caseKw | whenKw | yieldKw
deriving DecidableEq, Repr

namespace Keyword

def spelling : Keyword → String
  | classKw => "class" | moduleKw => "module" | defKw => "def" | endKw => "end"
  | ifKw => "if" | elsifKw => "elsif" | elseKw => "else" | unlessKw => "unless"
  | whileKw => "while" | untilKw => "until" | forKw => "for" | inKw => "in"
  | doKw => "do" | thenKw => "then" | returnKw => "return" | breakKw => "break"
  | nextKw => "next" | trueKw => "true" | falseKw => "false" | nilKw => "nil"
  | selfKw => "self" | andKw => "and" | orKw => "or" | notKw => "not"
  | beginKw => "begin" | rescueKw => "rescue" | ensureKw => "ensure" | caseKw => "case"
  | whenKw => "when" | yieldKw => "yield"

/-- The word in capitals, by which messages name the token. -/
def label : Keyword → String
  | classKw => "CLASS" | moduleKw => "MODULE" | defKw => "DEF" | endKw => "END"
  | ifKw => "IF" | elsifKw => "ELSIF" | elseKw => "ELSE" | unlessKw => "UNLESS"
  | whileKw => "WHILE" | untilKw => "UNTIL" | forKw => "FOR" | inKw => "IN"
  | doKw => "DO" | thenKw => "THEN" | returnKw => "RETURN" | breakKw => "BREAK"
  | nextKw => "NEXT" | trueKw => "TRUE" | falseKw => "FALSE" | nilKw => "NIL"
  | selfKw => "SELF" | andKw => "AND" | orKw => "OR" | notKw => "NOT"
  | beginKw => "BEGIN" | rescueKw => "RESCUE" | ensureKw => "ENSURE" | caseKw => "CASE"
  | whenKw => "WHEN" | yieldKw => "YIELD"

def all : List Keyword :=
  [classKw, moduleKw, defKw, endKw, ifKw, elsifKw, elseKw, unlessKw, whileKw, untilKw, forKw, inKw,
   doKw, thenKw, returnKw, breakKw, nextKw, trueKw, falseKw, nilKw, selfKw, andKw, orKw, notKw,
   beginKw, rescueKw, ensureKw, caseKw, whenKw, yieldKw]

def ofSpelling? (text : String) : Option Keyword :=
  all.find? fun keyword => keyword.spelling == text

/-- What is said of a reserved word that the grammar has no rule for. -/
def rejection? : Keyword → Option String
  | beginKw => some "begin/rescue blocks are not supported"
  | rescueKw => some "rescue clauses are not supported"
  | ensureKw => some "ensure clauses are not supported"
  | caseKw => some "case expressions are not supported"
  | whenKw => some "case expressions are not supported"
  | yieldKw => some "yield is not supported"
  | _ => none

end Keyword

inductive Mark where
  | plus | minus | star | slash | percent | starStar | ampersand | pipe | caret | tilde
  | less | greater | lessEq | greaterEq | eqEq | bangEq | ampAmp | pipePipe | bang
  | lessLess | greaterGreater | eq | plusEq | minusEq | starEq | slashEq | percentEq
  | starStarEq | pipePipeEq | question | colon | colonColon | arrow
  | lparen | rparen | lbrace | rbrace | lbracket | rbracket | semicolon | comma | dot
deriving DecidableEq, Repr

namespace Mark

def spelling : Mark → String
  | plus => "+" | minus => "-" | star => "*" | slash => "/" | percent => "%"
  | starStar => "**" | ampersand => "&" | pipe => "|" | caret => "^" | tilde => "~"
  | less => "<" | greater => ">" | lessEq => "<=" | greaterEq => ">=" | eqEq => "=="
  | bangEq => "!=" | ampAmp => "&&" | pipePipe => "||" | bang => "!" | lessLess => "<<"
  | greaterGreater => ">>" | eq => "=" | plusEq => "+=" | minusEq => "-=" | starEq => "*="
  | slashEq => "/=" | percentEq => "%=" | starStarEq => "**=" | pipePipeEq => "||="
  | question => "?" | colon => ":" | colonColon => "::" | arrow => "=>" | lparen => "("
  | rparen => ")" | lbrace => "\x7b" | rbrace => "\x7d" | lbracket => "[" | rbracket => "]"
  | semicolon => ";" | comma => "," | dot => "."

/-- The name by which messages refer to the mark. -/
def label : Mark → String
  | plus => "PLUS" | minus => "MINUS" | star => "STAR" | slash => "SLASH"
  | percent => "PERCENT" | starStar => "STAR_STAR" | ampersand => "AMPERSAND"
  | pipe => "PIPE" | caret => "CARET" | tilde => "TILDE" | less => "LT" | greater => "GT"
  | lessEq => "LT_EQ" | greaterEq => "GT_EQ" | eqEq => "EQ_EQ" | bangEq => "BANG_EQ"
  | ampAmp => "AMPERSAND_AMPERSAND" | pipePipe => "PIPE_PIPE" | bang => "BANG"
  | lessLess => "LT_LT" | greaterGreater => "GT_GT" | eq => "EQ" | plusEq => "PLUS_EQ"
  | minusEq => "MINUS_EQ" | starEq => "STAR_EQ" | slashEq => "SLASH_EQ"
  | percentEq => "PERCENT_EQ" | starStarEq => "STAR_STAR_EQ" | pipePipeEq => "PIPE_PIPE_EQ"
  | question => "QUESTION" | colon => "COLON" | colonColon => "COLON_COLON"
  | arrow => "ARROW" | lparen => "LPAREN" | rparen => "RPAREN" | lbrace => "LBRACE"
  | rbrace => "RBRACE" | lbracket => "LBRACKET" | rbracket => "RBRACKET"
  | semicolon => "SEMICOLON" | comma => "COMMA" | dot => "DOT"

def all : List Mark :=
  [plus, minus, star, slash, percent, starStar, ampersand, pipe, caret, tilde, less, greater,
   lessEq, greaterEq, eqEq, bangEq, ampAmp, pipePipe, bang, lessLess, greaterGreater, eq, plusEq,
   minusEq, starEq, slashEq, percentEq, starStarEq, pipePipeEq, question, colon, colonColon,
   arrow, lparen, rparen, lbrace, rbrace, lbracket, rbracket, semicolon, comma, dot]

/-- The mark that is written with exactly the given characters. -/
def ofChars? (chars : List Char) : Option Mark :=
  all.find? fun mark => mark.spelling.toList == chars

/-- A line that ends in one of these marks goes on in the next line. -/
def continuesLine : Mark → Bool
  | tilde | bang | colonColon | rparen | rbrace | rbracket | semicolon => false
  | _ => true

end Mark

inductive TokenKind where
  | keyword (word : Keyword)
  | mark (sign : Mark)
  | integer | float | string | interpolated | symbol | label | identifier | constant | ivar
  | newline
  | endOfInput
deriving DecidableEq, Repr

namespace TokenKind

/-- The name by which messages refer to the class. -/
def name : TokenKind → String
  | keyword word => word.label
  | mark sign => sign.label
  | integer => "INTEGER" | float => "FLOAT" | string => "STRING"
  | interpolated => "INTERPOLATED_STRING" | symbol => "SYMBOL" | label => "LABEL"
  | identifier => "IDENTIFIER" | constant => "CONSTANT" | ivar => "IVAR"
  | newline => "NEWLINE"
  | endOfInput => "EOF"

/-- The class name in lower case, as messages quote an expected closer. -/
def lowerName : TokenKind → String
  | keyword word => word.spelling
  | kind => String.ofList (kind.name.toList.map Char.toLower)

/-- A newline directly after such a token does not end the statement. -/
def continuesLine : TokenKind → Bool
  | keyword .andKw | keyword .orKw | keyword .notKw => true
  | mark sign => sign.continuesLine
  | label => true
  | _ => false

end TokenKind

/-- A token: its class, its decoded text, where it starts, and whether white space
stands before it on its line. -/
structure Token where
  kind : TokenKind
  value : String
  line : Nat
  column : Nat
  spaced : Bool := false
deriving DecidableEq, Repr

/-- The tokens of a whole text: those before the end, and the token of the end. -/
structure TokenStream where
  pending : List Token
  last : Token

/-- All tokens in order, the end included. -/
def TokenStream.toList (stream : TokenStream) : List Token :=
  stream.pending ++ [stream.last]

end ContractForge
