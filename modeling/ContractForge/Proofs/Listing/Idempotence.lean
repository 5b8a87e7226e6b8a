import ContractForge.Listing.Pipeline
import ContractForge.Proofs.Listing.Moves
import Mathlib.Algebra.GroupWithZero.Nat
import Mathlib.Algebra.Order.BigOperators.Group.List
import Mathlib.Algebra.Order.Group.Nat

/-!
# Improving code a second time

Packing settles at once, on every text. Checking arithmetic and moving updates do so on
regular listings, with two exceptions: a statement that assigns to two entries at once, and an
update that was moved although it calls out itself. A text is the same after a second run
exactly if neither exception occurs (`optimize_optimize_iff`).
-/

namespace ContractForge.Listing

open Text List

variable {configuration : Configuration} {lines : List String} {code line : String}

/-! ### Regular listings -/

/-- Whether a line is taken for a declaration and for a pragma or an update, too, or becomes a
declaration when its update is checked. -/
def isAmbiguous (line : String) : Bool :=
  let updates := (update? compoundEnd? line).toList ++ (update? stepEnd? line).toList
  ((declaration? line).isSome && ((pragmaConstraint? line).isSome || !updates.isEmpty)) ||
    updates.any fun update => (declaration? update.checked).isSome

/-- A listing whose functions hold statements, where each line is taken for one thing. -/
@[mk_iff]
structure Regular (lines : List String) : Prop where
  plain : PlainBodies lines
  opens : ∀ body ∈ bodies lines, ∀ first ∈ body.head?, closes first = false
  single : ∀ line ∈ lines, isAmbiguous line = false

instance (lines : List String) : Decidable (Regular lines) :=
  decidable_of_iff' _ (regular_iff lines)

/-- A line that is changed is read as an update, and becomes the checked one. -/
theorem exists_update (changed : checkLine unsigned line ≠ line) :
    ∃ update ∈ (update? compoundEnd? line).toList ++ (update? stepEnd? line).toList,
      checkLine unsigned line = update.checked := by
  obtain ⟨indent, root, _, parts, named, -, found, checked⟩ := exists_change changed
  refine ⟨updateOf indent root parts, ?_, checked⟩
  rw [mem_append, Option.mem_toList, Option.mem_toList, named.update?_eq, named.update?_eq]
  obtain compound | ⟨-, step⟩ := Option.or_eq_some_iff.mp found
  · exact .inl (by rw [compound]; rfl)
  · exact .inr (by rw [step]; rfl)

/-- Packing moves no function. -/
theorem bodies_packWith_of (same : bodies (layoutParts enumNames lines).2 = bodies lines) :
    bodies (packWith enumNames lines) = bodies lines := by
  rw [packWith, bodies_append_of_plain (functionHeader?_of_mem_arrange lines), same]

theorem bodies_packWith (sectioned : Sectioned lines) :
    bodies (packWith enumNames lines) = bodies lines := by
  apply bodies_packWith_of
  induction sectioned with
  | nil => rfl
  | @outside line rest other sectioned ih =>
    rw [bodies, other]
    cases declares : declaration? line with
    | some =>
      rw [layoutParts_entry declares]
      exact ih
    | none =>
      rw [layoutParts_other declares, bodies, other]
      exact bodies_packWith_of ih
  | @function line header body tail found statements inside ends sectioned ih =>
    rw [layoutParts_other (declaration?_of_functionHeader? found),
      packWith_append fun line mem => (statements line mem).noDeclaration,
      bodies_function found statements inside (ends_packWith ends),
      bodies_function found statements inside ends, bodies_packWith_of ih]

namespace Regular

variable {lines : List String} (regular : Regular lines)
include regular

theorem pragmasApart : PragmasApart lines := by
  intro line mem isPragma
  have single := regular.single line mem
  cases declares : declaration? line with
  | none => rfl
  | some => simp [isAmbiguous, declares, isPragma] at single

theorem keepsDeclarations (unsigned : List String) : KeepsDeclarations unsigned lines := by
  intro line mem changed
  obtain ⟨update, isUpdate, checked⟩ := exists_update changed
  have single := regular.single line mem
  simp only [isAmbiguous, Bool.or_eq_false_iff, any_eq_false] at single
  obtain ⟨alone, unchecked⟩ := single
  constructor
  · cases declares : declaration? line with
    | none => rfl
    | some =>
      have some : ((update? compoundEnd? line).toList ++
          (update? stepEnd? line).toList).isEmpty = false := by
        rw [isEmpty_eq_false_iff]
        exact ne_nil_of_mem isUpdate
      simp [declares, some] at alone
  · rw [checked]
    simpa using unchecked update isUpdate

theorem packLines : Regular (packLines lines) where
  plain := by
    rw [PlainBodies, packLines_eq, bodies_packWith regular.plain.sectioned]
    exact regular.plain
  opens := by
    rw [packLines_eq, bodies_packWith regular.plain.sectioned]
    exact regular.opens
  single := fun line mem => regular.single line ((packWith_perm _ _).mem_iff.mp mem)

/-- Checking arithmetic changes nothing, or it checks all lines and puts the library in. -/
theorem checkArithmetic_cases :
    needsChecks lines = false ∧ (checkArithmetic lines).1 = lines ∨
      needsChecks lines ∧
        ChecksTo (variablesWith holdsUnsigned lines) lines (checkArithmetic lines).1 := by
  cases needed : needsChecks lines with
  | false => exact .inl ⟨rfl, checkArithmetic_unneeded needed⟩
  | true => exact .inr ⟨rfl, checkArithmetic_of_needsChecks regular.pragmasApart needed⟩

theorem filterMap_checkArithmetic {α : Type} {read? : String → Option α}
    (unread : ∀ line ∈ libraryTexts, read? line = none)
    (alike : ∀ line ∈ lines, read? (checkLine (variablesWith holdsUnsigned lines) line) =
      read? line) : (checkArithmetic lines).1.filterMap read? = lines.filterMap read? := by
  obtain ⟨-, same⟩ | ⟨-, checks⟩ := regular.checkArithmetic_cases
  · rw [same]
  · exact checks.filterMap unread alike

theorem declarations_checkArithmetic :
    (checkArithmetic lines).1.filterMap declaration? = lines.filterMap declaration? :=
  regular.filterMap_checkArithmetic
    (fun line library => (isStatement_of_library line library).noDeclaration)
    fun _ mem => (regular.keepsDeclarations _).declaration?_checkLine mem

theorem pragmas_checkArithmetic :
    (checkArithmetic lines).1.filterMap pragmaConstraint? = lines.filterMap pragmaConstraint? :=
  regular.filterMap_checkArithmetic
    (fun line library => (isStatement_of_library line library).noPragma)
    fun line _ => pragmaConstraint?_checkLine line

theorem pragmasApart_checkArithmetic : PragmasApart (checkArithmetic lines).1 := by
  obtain ⟨-, same⟩ | ⟨-, checks⟩ := regular.checkArithmetic_cases
  · rw [same]
    exact regular.pragmasApart
  · exact checks.pragmasApart regular.pragmasApart

theorem sectioned_checkArithmetic : Sectioned (checkArithmetic lines).1 := by
  obtain ⟨-, same⟩ | ⟨-, checks⟩ := regular.checkArithmetic_cases
  · rw [same]
    exact regular.plain.sectioned
  · exact (checks.plainBodies (regular.keepsDeclarations _) regular.plain).sectioned

theorem opens_checkArithmetic :
    ∀ body ∈ bodies (checkArithmetic lines).1, ∀ first ∈ body.head?, closes first = false := by
  obtain ⟨-, same⟩ | ⟨-, checks⟩ := regular.checkArithmetic_cases
  · rw [same]
    exact regular.opens
  · exact checks.opens regular.opens

theorem packWith_checkArithmetic (packed : packWith enumNames lines = lines) :
    packWith enumNames (checkArithmetic lines).1 = (checkArithmetic lines).1 := by
  obtain ⟨-, same⟩ | ⟨-, checks⟩ := regular.checkArithmetic_cases
  · rw [same, packed]
  · exact checks.packWith_eq (regular.keepsDeclarations _) packed

end Regular

/-! ### The number of characters -/

/-- The number of characters in a listing, without its line breaks. -/
def charCount (lines : List String) : Nat :=
  (lines.map fun line => line.toList.length).sum

theorem charCount_perm (perm : lines.Perm others) : charCount lines = charCount others :=
  (perm.map _).sum_eq

theorem charCount_le (sublist : lines.Sublist others) : charCount lines ≤ charCount others :=
  (sublist.map _).sum_le_sum fun _ _ => Nat.zero_le _

/-- A changed listing has more characters than before. -/
theorem charCount_lt_checkArithmetic (apart : PragmasApart lines) (needed : needsChecks lines) :
    charCount lines < charCount (checkArithmetic lines).1 := by
  obtain ⟨_, first, second⟩ := checkArithmetic_of_needsChecks apart needed
  obtain ⟨line, behind, changed⟩ := any_eq_true.mp (Bool.and_eq_true_iff.mp needed).2
  have mem : line ∈ lines :=
    (dropWhile_suffix _).subset (mem_of_mem_tail behind)
  have grows : ∀ line : String, line.toList.length ≤
      (checkLine (variablesWith holdsUnsigned lines) line).toList.length := by
    intro line
    by_cases same : checkLine (variablesWith holdsUnsigned lines) line = line
    · rw [same]
    · exact Nat.le_of_lt (length_lt_checkLine same)
  have longer : charCount lines <
      charCount (lines.map (checkLine (variablesWith holdsUnsigned lines))) := by
    rw [charCount, charCount, map_map]
    refine sum_lt_sum _ _ (fun line _ => grows line) ⟨line, mem, ?_⟩
    exact length_lt_checkLine (Ne.symm (by simpa using changed))
  exact Nat.lt_of_lt_of_le longer (charCount_le (first.sublist.trans second.sublist))

/-- Moving updates only changes the order of the lines. -/
theorem reorderCalls_perm (lines : List String) : (reorderCalls lines).1.Perm lines := by
  obtain ⟨_, bodyOrder, isOrder⟩ := exists_bodyOrder lines
  have perm := bodyOrder.perm.map (lineAt lines)
  rwa [map_lineAt_range, ← isOrder] at perm

/-! ### Checking and moving a second time -/

/-- A listing with its arithmetic checked and its updates moved. -/
def settle (lines : List String) : List String :=
  (reorderCalls (checkArithmetic lines).1).1

/-- Whether a line behind the first contract header is checked and assigns to two entries. -/
def assignsTwiceBehind (lines : List String) : Bool :=
  !checksArithmetic lines &&
    (behindHeader lines).any (assignsTwice (variablesWith holdsUnsigned lines))

/-- In some function an update that was moved calls out, and another update, or the call that
both were moved in front of, can be moved in front of it. -/
def MovesAgain (lines : List String) : Prop :=
  ∃ body ∈ bodies lines,
    Movable (tableVariables lines) (movedFront (tableVariables lines) (statementsOf body))

theorem checksArithmetic_congr
    (same : others.filterMap pragmaConstraint? = lines.filterMap pragmaConstraint?) :
    checksArithmetic others = checksArithmetic lines := by
  have byPragmas : ∀ lines : List String, versionDigits? lines =
      (lines.filterMap pragmaConstraint?).findSome? firstVersion? := by
    intro _
    rw [← head?_filterMap, filterMap_filterMap, head?_filterMap]
    rfl
  rw [checksArithmetic, checksArithmetic, minimumVersion?, minimumVersion?, byPragmas others,
    byPragmas lines, same]

section

variable {lines : List String} (regular : Regular lines)
include regular

theorem settle_eq : settle lines =
    rewriteBodies (moveInBody (tableVariables (checkArithmetic lines).1))
      (checkArithmetic lines).1 :=
  reorderCalls_rewrites regular.sectioned_checkArithmetic.sections

/-- What the passes read off declarations and pragmas is the same afterwards. -/
theorem filterMap_settle {α : Type} {read? : String → Option α}
    (unread : ∀ line, IsStatement line → read? line = none)
    (kept : (checkArithmetic lines).1.filterMap read? = lines.filterMap read?) :
    (settle lines).filterMap read? = lines.filterMap read? := by
  rw [settle_eq regular, filterMap_rewriteBodies (moveInBody_perm _) unread
    regular.sectioned_checkArithmetic, kept]

/-- Arithmetic is checked again exactly if a statement assigns to two entries. -/
theorem needsChecks_settle : needsChecks (settle lines) = assignsTwiceBehind lines := by
  have sameUnsigned : variablesWith holdsUnsigned (settle lines) =
      variablesWith holdsUnsigned lines :=
    variablesWith_congr (filterMap_settle regular (fun _ statement => statement.noDeclaration)
      regular.declarations_checkArithmetic)
  have sameVersion : checksArithmetic (settle lines) = checksArithmetic lines :=
    checksArithmetic_congr (filterMap_settle regular (fun _ statement => statement.noPragma)
      regular.pragmas_checkArithmetic)
  have samePlace : ∀ test : String → Bool, (behindHeader (settle lines)).any test =
      (behindHeader (checkArithmetic lines).1).any test := by
    intro _
    rw [settle_eq regular]
    exact (behindHeader_rewriteBodies_perm (moveInBody_perm _)
      regular.sectioned_checkArithmetic).any_eq
  rw [needsChecks, assignsTwiceBehind, sameVersion, sameUnsigned, changesBehind, samePlace]
  obtain ⟨unneeded, same⟩ | ⟨-, checks⟩ := regular.checkArithmetic_cases
  · rw [same]
    rw [needsChecks, changesBehind] at unneeded
    rw [unneeded, eq_comm, Bool.and_eq_false_iff]
    refine (Bool.and_eq_false_iff.mp unneeded).imp_right fun unchanged => ?_
    refine any_eq_false.mpr fun line mem twice => ?_
    have changed := any_eq_false.mp unchanged line mem
    exact changed (by simpa using Ne.symm (checkLine_ne_of_assignsTwice twice))
  · have fails : ∀ line ∈ libraryTexts,
        (line != checkLine (variablesWith holdsUnsigned lines) line) = false := by
      intro _ library
      simp [checkLine_of_library library]
    rw [checks.any_behindHeader fails]
    congr 2
    funext line
    rw [Bool.eq_iff_iff, bne_iff_ne, ne_comm, ne_eq, checkLine_checkLine_iff, Bool.not_eq_false]

/-- A second run changes nothing exactly if no statement assigns to two entries and no update
moves again. -/
theorem settle_settle_iff :
    settle (settle lines) = settle lines ↔
      assignsTwiceBehind lines = false ∧ ¬ MovesAgain (checkArithmetic lines).1 := by
  have apart : PragmasApart (settle lines) := fun line mem =>
    regular.pragmasApart_checkArithmetic line ((reorderCalls_perm _).mem_iff.mp mem)
  cases twice : assignsTwiceBehind lines with
  | true =>
    rw [← needsChecks_settle regular] at twice
    refine iff_of_false (fun same => ?_) (by simp)
    have longer := charCount_lt_checkArithmetic apart twice
    have count : charCount (settle (settle lines)) =
        charCount (checkArithmetic (settle lines)).1 := charCount_perm (reorderCalls_perm _)
    rw [same] at count
    omega
  | false =>
    rw [← needsChecks_settle regular] at twice
    have again := reorderCalls_reorderCalls_iff regular.sectioned_checkArithmetic
      regular.opens_checkArithmetic
    have once : settle (settle lines) = (reorderCalls (settle lines)).1 := by
      rw [settle, checkArithmetic_unneeded twice]
    rw [once, settle, again, MovesAgain]
    simp

/-- Declarations that were packed before are still packed. -/
theorem packLines_settle (packed : packLines lines = lines) :
    packLines (settle lines) = settle lines := by
  have sameNames : ∀ name, name ∈ (settle lines).filterMap enumeration? ↔
      name ∈ lines.filterMap enumeration? := by
    intro _
    rw [← regular.filterMap_checkArithmetic enumeration?_of_library
      fun line _ => enumeration?_checkLine line]
    exact ((reorderCalls_perm _).filterMap _).mem_iff
  rw [packLines_eq, packWith_congr sameNames, settle_eq regular,
    packWith_rewriteBodies (moveInBody_perm _) regular.sectioned_checkArithmetic,
    regular.packWith_checkArithmetic (packLines_eq lines ▸ packed)]

end

/-! ### Texts -/

theorem free_checkLine (free : '\n' ∉ line.toList) : '\n' ∉ (checkLine unsigned line).toList := by
  by_cases same : checkLine unsigned line = line
  · rwa [same]
  · obtain ⟨_, _, _, ⟨_, function, _⟩, named, -, found, checked⟩ :=
      exists_change same
    rw [named.shape] at free
    rw [checked, toList_checked]
    obtain ⟨_, rfl, -, ⟨ends, -⟩ | ⟨ends, -⟩⟩ := change?_eq_some found
    · obtain ⟨_, rfl, known, -⟩ := compoundEnd?_eq_some.mp ends
      have freeName : '\n' ∉ function.toList := by
        unfold checkedFunction? at known
        split at known <;> cases known <;> decide
      simp_all [checkedTail]
    · obtain ⟨⟨-, rfl⟩ | ⟨-, rfl⟩, rfl⟩ := stepEnd?_eq_some ends <;> simp_all [checkedTail]

theorem areLines_checkArithmetic (apart : PragmasApart lines) (areLines : AreLines lines) :
    AreLines (checkArithmetic lines).1 := by
  cases needed : needsChecks lines with
  | false => rwa [checkArithmetic_unneeded needed]
  | true =>
    obtain ⟨_, first, second⟩ := checkArithmetic_of_needsChecks apart needed
    have ofLibrary : ∀ line ∈ libraryTexts, '\n' ∉ line.toList := by decide
    refine ⟨fun none => ?_, fun line mem => ?_⟩
    · have sublist := first.sublist.trans second.sublist
      rw [none, sublist_nil, map_eq_nil_iff] at sublist
      exact areLines.some sublist
    · obtain library | inAttached := second.isExtended.mem _ mem
      · exact ofLibrary line library
      · obtain library | inLines := first.isExtended.mem _ inAttached
        · exact ofLibrary line library
        · obtain ⟨original, isOriginal, rfl⟩ := mem_map.mp inLines
          exact free_checkLine (areLines.free original isOriginal)

/-- The passes that make code safe, on a text whose lines are known. -/
theorem security_apply (apart : PragmasApart lines) (areLines : AreLines lines)
    (cut : Text.lines code = lines) :
    (Pass.callOrder.apply (Pass.arithmetic.apply code).1).1 = unlines (settle lines) ∧
      AreLines (settle lines) := by
  have checked := areLines_checkArithmetic apart areLines
  refine ⟨?_, checked.perm (reorderCalls_perm _)⟩
  simp only [Pass.apply, Pass.run, cut, checked.lines_unlines, settle]

/-- The lines of a text as the passes that make code safe get them. -/
def packedLines (configuration : Configuration) (code : String) : List String :=
  if configuration.packsStorage then packLines (Text.lines code) else Text.lines code

theorem regular_packedLines (configuration : Configuration) (regular : Regular (Text.lines code)) :
    Regular (packedLines configuration code) := by
  unfold packedLines
  split
  · exact regular.packLines
  · exact regular

theorem areLines_packedLines (configuration : Configuration) (code : String) :
    AreLines (packedLines configuration code) := by
  unfold packedLines
  split
  · exact (areLines_lines code).perm (packWith_perm _ _)
  · exact areLines_lines code

/-- A configuration without the passes that make code safe. -/
theorem optimize_of_not_secure
    (insecure : ¬ (configuration.optimizes ∧ configuration.checksSecurity))
    (code : String) : (optimize configuration (optimize configuration code).1).1 =
      (optimize configuration code).1 := by
  have packed : Text.lines (unlines (packLines (Text.lines code))) = packLines (Text.lines code) :=
    ((areLines_lines code).perm (packWith_perm _ _)).lines_unlines
  cases optimizes : configuration.optimizes <;> cases packs : configuration.packsStorage <;>
    cases secures : configuration.checksSecurity <;>
    simp_all [optimize, passes, Pass.apply, Pass.run, packLines_packLines]

/-- A configuration with the passes that make code safe. -/
theorem optimize_of_secure (secure : configuration.optimizes ∧ configuration.checksSecurity)
    (apart : PragmasApart (packedLines configuration code)) :
    (optimize configuration code).1 = unlines (settle (packedLines configuration code)) ∧
      AreLines (settle (packedLines configuration code)) := by
  obtain ⟨optimizes, secures⟩ := secure
  have areLines := areLines_packedLines configuration code
  refine ⟨?_, (security_apply apart areLines areLines.lines_unlines).2⟩
  unfold packedLines at apart areLines ⊢
  cases packs : configuration.packsStorage with
  | false =>
    rw [packs, if_neg Bool.false_ne_true] at apart
    have applied := (security_apply apart (areLines_lines code) rfl).1
    simpa [optimize, passes, optimizes, secures, packs] using applied
  | true =>
    have applied := (security_apply apart areLines areLines.lines_unlines).1
    simpa [optimize, passes, optimizes, secures, packs, Pass.apply, Pass.run] using applied

/-- Of a regular text, a second run of the passes that make code safe decides. -/
theorem optimize_eq_iff_settle (secure : configuration.optimizes ∧ configuration.checksSecurity)
    (regular : Regular (Text.lines code)) :
    (optimize configuration (optimize configuration code).1).1 = (optimize configuration code).1 ↔
      settle (settle (packedLines configuration code)) =
        settle (packedLines configuration code) := by
  have isRegular := regular_packedLines configuration regular
  obtain ⟨once, areOnce⟩ := optimize_of_secure secure isRegular.pragmasApart
  have again : packedLines configuration (optimize configuration code).1 =
      settle (packedLines configuration code) := by
    rw [once, packedLines, areOnce.lines_unlines]
    split
    · rename_i packs
      apply packLines_settle isRegular
      rw [packedLines, if_pos packs, packLines_packLines]
    · rfl
  have apart : PragmasApart (packedLines configuration (optimize configuration code).1) := by
    rw [again]
    exact fun line mem => isRegular.pragmasApart_checkArithmetic line
      ((reorderCalls_perm _).mem_iff.mp mem)
  obtain ⟨twice, areTwice⟩ := optimize_of_secure secure apart
  rw [twice, again]
  rw [again] at areTwice
  rw [once, areTwice.unlines_inj areOnce]

/-- If the passes that make code safe do not run, or the listing is `Regular`, then a second run
changes nothing, unless these passes meet a statement that assigns to two entries, or an update that
calls out and was moved. -/
theorem optimize_optimize_iff (configuration : Configuration) (code : String)
    (regular : configuration.optimizes = true ∧ configuration.checksSecurity = true →
      Regular (Text.lines code)) :
    (optimize configuration (optimize configuration code).1).1 = (optimize configuration code).1 ↔
      (configuration.optimizes = true ∧ configuration.checksSecurity = true →
        assignsTwiceBehind (packedLines configuration code) = false ∧
          ¬ MovesAgain (checkArithmetic (packedLines configuration code)).1) := by
  by_cases secure : configuration.optimizes = true ∧ configuration.checksSecurity = true
  · rw [optimize_eq_iff_settle secure (regular secure),
      settle_settle_iff (regular_packedLines configuration (regular secure))]
    exact ⟨fun settled _ => settled, fun settled => settled secure⟩
  · exact iff_of_true (optimize_of_not_secure secure code) fun isSecure => absurd isSecure secure

/-! ### An update that calls out -/

def payingDeclarations : List (String × Declaration) :=
  [("    mapping(address => uint256) public sent;",
      ⟨"sent", "mapping(address => uint256)", false⟩),
   ("    mapping(address => uint256) public paid;",
      ⟨"paid", "mapping(address => uint256)", false⟩)]

/-- The lines behind the declarations. The second payment is made in an update. -/
def payingFunction : List String :=
  ["", "    function pay(address to) public \x7b", "        payable(to).transfer(1);",
   "        sent[to] = payable(to).transfer(2);", "        paid[to] = 1;", "    \x7d", "\x7d", ""]

def payingTwice : List String :=
  ["// SPDX-License-Identifier: MIT", "pragma solidity ^0.8.30;", "", "contract Bank \x7b"] ++
    (payingDeclarations.map Prod.fst ++ payingFunction)

theorem regular_payingTwice : Regular payingTwice := by
  decide +kernel

theorem packLines_payingTwice : packLines payingTwice = payingTwice := by
  have declared : ∀ entry ∈ payingDeclarations, declaration? entry.1 = some entry.2 := by
    decide +kernel
  have behind : ∀ line ∈ payingFunction, declaration? line = none := by decide +kernel
  have parts : layoutParts [] payingFunction = ([], payingFunction) := by
    have packed := packWith_append (fun line mem => behind line (mem_of_mem_tail mem)) [] []
    rw [payingFunction, layoutParts_other rfl]
    simpa [payingFunction, packWith, layoutParts] using packed
  have packed : arrange [] payingDeclarations = payingDeclarations.map Prod.fst := by
    have falling : payingDeclarations.Pairwise fun left right =>
        storageWidth right.2.type [] ≤ storageWidth left.2.type [] := by decide +kernel
    have stored : ∀ entry ∈ payingDeclarations, (!entry.2.isConstant) = true := by decide +kernel
    rw [arrange, filter_eq_self.mpr stored, pack, fillSlots, byWidth_of_sorted falling]
    decide +kernel
  have names : payingTwice.filterMap enumeration? = [] := by decide +kernel
  rw [packLines_eq, names, payingTwice, packWith_append (by decide +kernel), packWith,
    layoutParts_append declared, parts, append_nil, packed]

theorem areLines_payingTwice : AreLines payingTwice :=
  ⟨by decide, by decide +kernel⟩

theorem payingTwice_optimize_optimize_iff :
    Regular (Text.lines (unlines payingTwice)) ∧
      ((optimize {} (optimize {} (unlines payingTwice)).1).1 =
          (optimize {} (unlines payingTwice)).1 ↔
        (true = true ∧ true = true →
          assignsTwiceBehind (packedLines {} (unlines payingTwice)) = false ∧
            ¬ MovesAgain (checkArithmetic (packedLines {} (unlines payingTwice))).1)) := by
  have regular : Regular (Text.lines (unlines payingTwice)) := by
    rw [areLines_payingTwice.lines_unlines]
    exact regular_payingTwice
  exact ⟨regular, optimize_optimize_iff {} (unlines payingTwice) fun _ => regular⟩

/-- The second run moves the first update in front of the second one, which calls out. -/
theorem optimize_payingTwice_changes :
    (optimize {} (optimize {} (unlines payingTwice)).1).1 ≠
      (optimize {} (unlines payingTwice)).1 := by
  have cut := areLines_payingTwice.lines_unlines
  have packed : packedLines {} (unlines payingTwice) = payingTwice := by
    rw [packedLines, cut]
    exact packLines_payingTwice
  rw [ne_eq, optimize_eq_iff_settle ⟨rfl, rfl⟩ (cut.symm ▸ regular_payingTwice), packed]
  decide +kernel

end ContractForge.Listing
