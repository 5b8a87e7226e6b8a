import ContractForge.Text.Digits
import ContractForge.Text.Quoted

/-!
# Reading errors

Why a source text could not be read as a program: a lexical or grammatical
error with the place where it was noticed, or a numeral with no digits where
digits have to stand or with more of them than are read.
-/

namespace ContractForge

def describeCount : Option Int → String
  | some count => toString count
  | none => "None"

def describePosition (line : Int) (column : Option Int) : String :=
  s!"line {line}, column {describeCount column}"

structure SyntaxError where
  summary : String
  line : Option Int := none
  column : Option Int := none
deriving DecidableEq

/-- The full text of the error, which names the position when there is one. -/
def SyntaxError.message (error : SyntaxError) : String :=
  match error.line with
  | some line => s!"{error.summary} at {describePosition line error.column}"
  | none => error.summary

/-- The ways in which reading a source text fails. -/
inductive ReadError where
  /-- The text breaks a rule of the language. -/
  | invalid (error : SyntaxError)
  /-- A numeral has a base mark and no digits after it. -/
  | missingDigits (base : Nat)
  /-- A numeral has an exponent mark and no digits after it. -/
  | missingExponent (numeral : String)
  /-- A number has too many digits; how many they are is known if they were read. -/
  | tooManyDigits (count : Option Nat)
  /-- The bound on the depth of the grammar was used up. -/
  | depthExceeded
deriving DecidableEq

def ReadError.message : ReadError → String
  | invalid error => error.message
  | missingDigits base => s!"invalid literal for int() with base {base}: ''"
  | missingExponent numeral => s!"could not convert string to float: {Text.quoted numeral}"
  | tooManyDigits count => Text.tooLongMessage count
  | depthExceeded => "maximum nesting depth exceeded"

def ReadError.at (summary : String) (line column : Nat) : ReadError :=
  .invalid { summary, line := some line, column := some column }

end ContractForge
