import ContractForge.Listing.Line
import ContractForge.Target.Type

/-!
# Packing state variables

State variables take storage slots of 32 bytes in the order of their
declarations. Each run of declarations is reordered so that narrow variables
share slots: the widest first, each into the first slot with room for it.
Constants take no storage and stay in front.
-/

namespace ContractForge.Listing

def slotWidth : Nat := 32

/-- A storage slot that is being filled. -/
structure Slot (α : Type) where
  items : List α
  free : Nat

variable {α : Type}

/-- Put an item into the first slot with room for it, or into a new one. -/
def placeItem (item : α) (width : Nat) : List (Slot α) → List (Slot α)
  | [] => [⟨[item], slotWidth - width⟩]
  | slot :: rest =>
    if width ≤ slot.free then ⟨slot.items ++ [item], slot.free - width⟩ :: rest
    else slot :: placeItem item width rest

/-- Items by falling width; items of equal width keep their order. -/
def byWidth (width : α → Nat) (items : List α) : List α :=
  items.mergeSort fun left right => width right ≤ width left

/-- The slots that items fill, the widest items first. -/
def fillSlots (width : α → Nat) (items : List α) : List (Slot α) :=
  (byWidth width items).foldl (fun slots item =>
    placeItem item (min (width item) slotWidth) slots) []

/-- Items in an order that packs them into slots. -/
def pack (width : α → Nat) (items : List α) : List α :=
  (fillSlots width items).flatMap Slot.items

/-- Pack declarations, if all their widths can be read. -/
def packDeclarations (enumNames : List String) (declarations : List Declaration) :
    Except Text.DigitsError (List Declaration) :=
  match declarations.findSome? fun found => widthError? found.type enumNames with
  | some error => .error error
  | none => .ok (pack (fun found => storageWidth found.type enumNames) declarations)

/-- A run of declarations with their lines: constants first, then the variables packed. -/
def arrange (enumNames : List String) (block : List (String × Declaration)) : List String :=
  let constants := block.filter fun (_, found) => found.isConstant
  let stored := block.filter fun (_, found) => !found.isConstant
  let packed := pack (fun (_, found) => storageWidth found.type enumNames) stored
  (constants ++ packed).map Prod.fst

/-- The run of declarations at the beginning, and the lines after it with all further runs
packed. -/
def layoutParts (enumNames : List String) :
    List String → List (String × Declaration) × List String
  | [] => ([], [])
  | line :: rest =>
    let (block, output) := layoutParts enumNames rest
    match declaration? line with
    | some found => ((line, found) :: block, output)
    | none => ([], line :: (arrange enumNames block ++ output))

/-- The lines of a listing with every run of declarations packed. -/
def packLines (lines : List String) : List String :=
  let enumNames := lines.filterMap enumeration?
  let (block, output) := layoutParts enumNames lines
  arrange enumNames block ++ output

/-- Why the first width that cannot be read cannot be. -/
def declaredWidthError? (lines : List String) : Option Text.DigitsError :=
  (lines.filterMap declaration?).findSome? fun found =>
    if found.isConstant then none else widthError? found.type (lines.filterMap enumeration?)

end ContractForge.Listing
