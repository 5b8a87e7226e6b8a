import ContractForge.Source.Token
import ContractForge.Syntax.Node

/-!
# Parsing: tokens, scopes and loops

A parser reads tokens from the front of a stream. It keeps the names that have
been assigned in each open scope, which tells a variable from a call without
arguments, and it knows whether a `do` belongs to the loop being read.
-/

namespace ContractForge

/-- What a parser knows at a point of the token stream. -/
structure ParseState where
  /-- The tokens still to be read, without the token of the end. -/
  pending : List Token
  /-- The token of the end. -/
  last : Token
  /-- The names known in each open scope, the innermost scope first. -/
  scopes : List (List String) := [[]]
  /-- How many loop heads are being read, in which `do` opens the loop and no block. -/
  loopHeads : Nat := 0
  /-- How many digits a number may have, if there is a limit. -/
  digitLimit : Option Nat := some Text.digitLimit

abbrev Parse (α : Type) := StateT ParseState (Except ReadError) α

namespace Parse

variable {α σ : Type}

/-! ### Looking at tokens -/

/-- The token a number of places ahead; beyond the end, the token of the end. -/
def peek (offset : Nat) : Parse Token := do
  let state ← get
  return state.pending.getD offset state.last

def current : Parse Token :=
  peek 0

def advance : Parse Token := do
  let token ← current
  modify fun state => { state with pending := state.pending.drop 1 }
  return token

/-- Whether the next token has the given class. -/
def at? (kind : TokenKind) : Parse Bool := do
  return (← current).kind == kind

/-- Whether the next token has one of the given classes. -/
def atAny (kinds : List TokenKind) : Parse Bool := do
  return kinds.contains (← current).kind

/-- Whether the next token is the given mark. -/
def atMark (mark : Mark) : Parse Bool :=
  at? (.mark mark)

/-- Whether the next token is the given keyword. -/
def atKeyword (keyword : Keyword) : Parse Bool :=
  at? (.keyword keyword)

/-- Whether the next token is the given mark, with no blank before it. -/
def atAttached (mark : Mark) : Parse Bool := do
  let token ← current
  return token.kind == .mark mark && !token.spaced

/-! ### Errors -/

def failAt (token : Token) (summary : String) : Parse α :=
  throw (.at summary token.line token.column)

def fail (summary : String) : Parse α := do
  failAt (← current) summary

/-- A token as error messages name it: by its text, or by its class if the text is blank. -/
def described (token : Token) : String :=
  if Text.isBlank token.value then token.kind.name else Text.quoted token.value

/-- Consume a token of the given class, or fail with what was expected. -/
def expect (kind : TokenKind) (detail : String := "") : Parse Token := do
  let token ← current
  if token.kind == kind then
    advance
  else
    let suffix := if detail == "" then "" else ": " ++ detail
    failAt token s!"Expected {kind.name} but got {described token}{suffix}"

/-! ### Line ends -/

/-- Consume all tokens at the front that have one of the given classes. -/
def skipAll (kinds : List TokenKind) : Parse Unit :=
  modify fun state =>
    { state with pending := state.pending.dropWhile fun token => kinds.contains token.kind }

/-- Consume line ends. -/
def skipNewlines : Parse Unit :=
  skipAll [.newline]

/-- Consume everything that ends statements. -/
def skipTerminators : Parse Unit :=
  skipAll [.newline, .mark .semicolon]

/-! ### Scopes -/

/-- Record a name in the innermost scope. -/
def declare (name : String) : Parse Unit :=
  modify fun state => { state with scopes := match state.scopes with
    | innermost :: outer => (name :: innermost) :: outer
    | [] => [] }

/-- Whether a name is known in some open scope. -/
def isLocal (name : String) : Parse Bool := do
  return (← get).scopes.any fun scope => scope.contains name

/-- Run a parser with no outer names in sight. -/
def inFreshScope (parser : Parse α) : Parse α := do
  let outer := (← get).scopes
  modify fun state => { state with scopes := [[]] }
  let value ← parser
  modify fun state => { state with scopes := outer }
  return value

/-- Run a parser in a scope inside the current one. -/
def inInnerScope (parser : Parse α) : Parse α := do
  modify fun state => { state with scopes := [] :: state.scopes }
  let value ← parser
  modify fun state => { state with scopes := state.scopes.drop 1 }
  return value

def inLoopHead (parser : Parse α) : Parse α := do
  modify fun state => { state with loopHeads := state.loopHeads + 1 }
  let value ← parser
  modify fun state => { state with loopHeads := state.loopHeads - 1 }
  return value

def outsideLoopHeads (parser : Parse α) : Parse α := do
  let outer := (← get).loopHeads
  modify fun state => { state with loopHeads := 0 }
  let value ← parser
  modify fun state => { state with loopHeads := outer }
  return value

/-- Whether the next token is a `do` that opens a block. -/
def atBlockDo : Parse Bool := do
  return (← atKeyword .doKw) && (← get).loopHeads == 0

/-! ### Repetition -/

/-- What a round of a repetition decides. -/
inductive Round (σ α : Type) where
  | again (state : σ)
  | done (value : α)

/-- Repeat a round at most the given number of times. -/
def repeatAtMost (round : σ → Parse (Round σ α)) : Nat → σ → Parse α
  | 0, _ => throw .depthExceeded
  | count + 1, state => do
    match ← round state with
    | .again next => repeatAtMost round count next
    | .done value => return value

/-- Repeat a round until it is done. Every round that goes on has to consume a token,
so the number of pending tokens bounds the rounds. -/
def loop (round : σ → Parse (Round σ α)) (start : σ) : Parse α := do
  repeatAtMost round ((← get).pending.length + 1) start

/-! ### Nodes -/

def nodeAt (token : Token) (kind : Kind) (children : List Node) (payload : Payload) : Node :=
  { kind, payload, line := some token.line, column := some token.column, children }

/-- A leaf that carries the text of a token. -/
def leaf (token : Token) (kind : Kind) : Node :=
  nodeAt token kind [] (.text token.value)

end Parse

end ContractForge
