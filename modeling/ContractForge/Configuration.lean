/-!
# Configuration

What can be chosen about a compilation.
-/

namespace ContractForge

structure Configuration where
  /-- The compiler versions that the generated code is for. -/
  version : String := "^0.8.30"
  /-- Whether the generated code is improved at all. -/
  optimizes : Bool := true
  /-- Whether state variables are packed into storage slots. -/
  packsStorage : Bool := true
  /-- Whether arithmetic is checked and external calls are moved back. -/
  checksSecurity : Bool := true
deriving DecidableEq, Repr

end ContractForge
