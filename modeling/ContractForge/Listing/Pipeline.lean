import ContractForge.Configuration
import ContractForge.Listing.Arithmetic
import ContractForge.Listing.CallOrder
import ContractForge.Listing.Layout

/-!
# Improving generated code

The passes over a listing, in the order in which they run. The configuration
says which of them do.
-/

namespace ContractForge.Listing

/-- A pass over the lines of a listing. -/
inductive Pass where
  | layout | arithmetic | callOrder
deriving DecidableEq, Repr

/-- The lines after a pass, and what it reported. -/
def Pass.run : Pass → List String → List String × List Diagnostic
  | layout, lines => (packLines lines, [])
  | arithmetic, lines => checkArithmetic lines
  | callOrder, lines => reorderCalls lines

/-- The text after a pass, and what it reported. -/
def Pass.apply (pass : Pass) (code : String) : String × List Diagnostic :=
  let (lines, reports) := pass.run (Text.lines code)
  (Text.unlines lines, reports)

/-- Why a number that a pass has to read cannot be read. -/
def Pass.digitsError? : Pass → List String → Option Text.DigitsError
  | layout, lines => declaredWidthError? lines
  | arithmetic, lines => (excessVersion? lines).map .tooMany
  | callOrder, _ => none

def passes (configuration : Configuration) : List Pass :=
  if !configuration.optimizes then []
  else
    (if configuration.packsStorage then [.layout] else []) ++
      (if configuration.checksSecurity then [.arithmetic, .callOrder] else [])

/-- The text after all passes, and what they reported. -/
def optimize (configuration : Configuration) (code : String) : String × List Diagnostic :=
  (passes configuration).foldl (fun (code, reports) pass =>
    let (improved, found) := pass.apply code
    (improved, reports ++ found)) (code, [])

/-- Why the first number that the passes cannot read cannot be read. The passes keep the
declarations and the pragma, so the text before them shows it. -/
def digitsError? (configuration : Configuration) (code : String) : Option Text.DigitsError :=
  (passes configuration).findSome? fun pass => pass.digitsError? (Text.lines code)

end ContractForge.Listing
