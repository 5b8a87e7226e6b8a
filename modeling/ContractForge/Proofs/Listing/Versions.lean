import ContractForge.Listing.Arithmetic
import ContractForge.Proofs.Text.Search
import Mathlib.Data.Finset.Max
import Mathlib.Data.Prod.Lex

/-!
# Version constraints

A pragma allows releases of the compiler by a constraint: alternatives, each a list
of numbers with signs that all have to be met. Arithmetic is left unchecked by the
generated code if the first number of the constraint is at least 0.8, whatever its
sign and whatever stands behind it.

The lowest release that an alternative allows is the lower end of one of its own
numbers (`exists_lowerEnd`), so `checksArithmetic_sound_iff` can say from the lower
ends alone when the first number is a safe guess.
-/

namespace ContractForge.Listing

open Text List

/-! ### Releases -/

/-- A release of the compiler. -/
@[ext]
structure Release where
  major : Nat
  minor : Nat
  patch : Nat
deriving DecidableEq

namespace Release

/-- Releases are compared part by part. -/
def key (release : Release) : Nat ×ₗ Nat ×ₗ Nat :=
  toLex (release.major, toLex (release.minor, release.patch))

instance : LinearOrder Release :=
  LinearOrder.lift' key (by
    intro _ _ same
    simpa [key, Release.ext_iff] using same)

theorem le_iff {left right : Release} : left ≤ right ↔ left.major < right.major ∨
    left.major = right.major ∧ (left.minor < right.minor ∨
      left.minor = right.minor ∧ left.patch ≤ right.patch) := by
  show left.key ≤ right.key ↔ _
  simp [key, Prod.Lex.toLex_le_toLex]

/-- The part of a release that languages change with. -/
def language (release : Release) : Nat ×ₗ Nat :=
  toLex (release.major, release.minor)

theorem language_mono {left right : Release} (le : left ≤ right) :
    left.language ≤ right.language := by
  rw [le_iff] at le
  rw [language, language, Prod.Lex.toLex_le_toLex]
  omega

end Release

/-! ### Constraints -/

/-- The signs in front of numbers. -/
inductive Sign where
  | caret | tilde | atLeast | above | atMost | below | exactly

def Sign.chars : Sign → List Char
  | caret => ['^']
  | tilde => ['~']
  | atLeast => ['>', '=']
  | above => ['>']
  | atMost => ['<', '=']
  | below => ['<']
  | exactly => ['=']

/-- A number with a sign. The last part of the number may be left out. -/
structure Comparator where
  sign : Sign
  major : Nat
  minor : Nat
  patch : Option Nat

namespace Comparator

/-- The number, with zero for a part that is left out. -/
def number (comparator : Comparator) : Release :=
  ⟨comparator.major, comparator.minor, comparator.patch.getD 0⟩

/-- A release as far as the number goes. -/
def cut (comparator : Comparator) (release : Release) : Release :=
  if comparator.patch.isSome then release else { release with patch := 0 }

/-- Whether a release meets the comparator. The tilde keeps the language, and the caret the first
part of the number that is not zero. -/
def admits (comparator : Comparator) (release : Release) : Bool :=
  let number := comparator.number
  let cut := comparator.cut release
  match comparator.sign with
  | .atLeast => number ≤ cut
  | .above => number < cut
  | .atMost => cut ≤ number
  | .below => cut < number
  | .exactly => cut = number
  | .tilde => number ≤ cut ∧ cut.language = number.language
  | .caret => number ≤ cut ∧ cut.major = number.major ∧ (0 < number.major ∨
      cut.minor = number.minor ∧ (0 < number.minor ∨ cut.patch = number.patch))

/-- The lowest release that meets the comparator, if any does. -/
def low (comparator : Comparator) : Release :=
  match comparator.sign, comparator.patch with
  | .atMost, _ | .below, _ => ⟨0, 0, 0⟩
  | .above, some patch => ⟨comparator.major, comparator.minor, patch + 1⟩
  | .above, none => ⟨comparator.major, comparator.minor + 1, 0⟩
  | _, _ => comparator.number

/-- With a release, everything from the lower end up to it meets the comparator. -/
theorem admits_of_between {comparator : Comparator} {high : Release}
    (meets : comparator.admits high) :
    comparator.low ≤ high ∧
      ∀ release, comparator.low ≤ release → release ≤ high → comparator.admits release := by
  obtain ⟨sign, _, _, patch⟩ := comparator
  cases sign <;> cases patch
  all_goals
    simp only [admits, number, cut, low, Release.language, Release.le_iff, lt_iff_not_ge,
      Release.ext_iff]
      at meets ⊢
    refine ⟨?_, fun release => ?_⟩
    all_goals simp at meets ⊢; omega

/-- The last part of the number, behind a dot, if it is not left out. -/
def patchChars (comparator : Comparator) : List Char :=
  match comparator.patch with
  | some patch => '.' :: Nat.toDigits 10 patch
  | none => []

def chars (comparator : Comparator) : List Char :=
  comparator.sign.chars ++ (Nat.toDigits 10 comparator.major ++
    '.' :: (Nat.toDigits 10 comparator.minor ++ comparator.patchChars))

end Comparator

/-- Comparators that all have to be met. -/
structure Alternative where
  first : Comparator
  others : List Comparator

namespace Alternative

def comparators (alternative : Alternative) : List Comparator :=
  alternative.first :: alternative.others

def allows (alternative : Alternative) (release : Release) : Bool :=
  alternative.comparators.all fun comparator => comparator.admits release

def chars (alternative : Alternative) : List Char :=
  alternative.first.chars ++ alternative.others.flatMap fun other => ' ' :: other.chars

/-- The lower ends of the comparators that the alternative allows. -/
def lowerEnds (alternative : Alternative) : List Release :=
  (alternative.comparators.map Comparator.low).filter alternative.allows

/-- Of all lower ends the greatest is allowed if anything is. -/
theorem exists_lowerEnd {alternative : Alternative} {release : Release}
    (allowed : alternative.allows release) : ∃ low ∈ alternative.lowerEnds, low ≤ release := by
  classical
  have meets := all_eq_true.mp allowed
  obtain ⟨greatest, mem, above⟩ := alternative.comparators.toFinset.exists_max_image
    Comparator.low ⟨alternative.first, by simp [comparators]⟩
  simp only [mem_toFinset] at mem above
  have below := (Comparator.admits_of_between (meets greatest mem)).1
  refine ⟨greatest.low, mem_filter.mpr ⟨mem_map_of_mem mem, ?_⟩, below⟩
  refine all_eq_true.mpr fun comparator known => ?_
  exact (Comparator.admits_of_between (meets comparator known)).2 _ (above comparator known) below

end Alternative

/-- Alternatives of which one has to be met. -/
structure Constraint where
  first : Alternative
  others : List Alternative

namespace Constraint

variable {constraint : Constraint} {low release : Release}

def alternatives (constraint : Constraint) : List Alternative :=
  constraint.first :: constraint.others

def allows (constraint : Constraint) (release : Release) : Bool :=
  constraint.alternatives.any fun alternative => alternative.allows release

def chars (constraint : Constraint) : List Char :=
  constraint.first.chars ++ constraint.others.flatMap fun other => " || ".toList ++ other.chars

/-- The line that states the constraint. -/
def pragma (constraint : Constraint) : String :=
  String.ofList ("pragma solidity ".toList ++ constraint.chars ++ [';'])

def lowerEnds (constraint : Constraint) : List Release :=
  constraint.alternatives.flatMap Alternative.lowerEnds

theorem allows_of_mem_lowerEnds (mem : low ∈ constraint.lowerEnds) : constraint.allows low := by
  obtain ⟨alternative, known, isLow⟩ := mem_flatMap.mp mem
  exact any_eq_true.mpr ⟨alternative, known, (mem_filter.mp isLow).2⟩

theorem exists_lowerEnd (allowed : constraint.allows release) :
    ∃ low ∈ constraint.lowerEnds, low ≤ release := by
  obtain ⟨alternative, known, allowed⟩ := any_eq_true.mp allowed
  obtain ⟨low, isLow, below⟩ := Alternative.exists_lowerEnd allowed
  exact ⟨low, mem_flatMap.mpr ⟨alternative, known, isLow⟩, below⟩

/-- All allowed releases are as high as a bound if all lower ends are. -/
theorem forall_allows_iff :
    (∀ release, constraint.allows release → bound ≤ release) ↔
      ∀ low ∈ constraint.lowerEnds, bound ≤ low := by
  constructor
  · exact fun all low mem => all low (allows_of_mem_lowerEnds mem)
  · intro all _ allowed
    obtain ⟨low, mem, below⟩ := exists_lowerEnd allowed
    exact (all low mem).trans below

/-- The lowest language that is allowed is the lowest one of the lower ends. -/
theorem isLeast_language_iff {language : Nat ×ₗ Nat} :
    IsLeast {found | ∃ release, constraint.allows release ∧ release.language = found}
        language ↔
      language ∈ constraint.lowerEnds.map Release.language ∧
        ∀ low ∈ constraint.lowerEnds, language ≤ low.language := by
  constructor
  · rintro ⟨⟨release, allowed, rfl⟩, least⟩
    have below : ∀ low ∈ constraint.lowerEnds, release.language ≤ low.language :=
      fun low mem => least ⟨low, allows_of_mem_lowerEnds mem, rfl⟩
    obtain ⟨low, mem, isBelow⟩ := exists_lowerEnd allowed
    exact ⟨mem_map.mpr ⟨low, mem, (Release.language_mono isBelow).antisymm (below low mem)⟩, below⟩
  · rintro ⟨mem, least⟩
    obtain ⟨low, isLow, rfl⟩ := mem_map.mp mem
    refine ⟨⟨low, allows_of_mem_lowerEnds isLow, rfl⟩, ?_⟩
    rintro _ ⟨_, allowed, rfl⟩
    obtain ⟨other, isOther, below⟩ := exists_lowerEnd allowed
    exact (least other isOther).trans (Release.language_mono below)

end Constraint

/-! ### The first number -/

theorem digits_toDigits : Nat.toDigits 10 value ≠ [] ∧ ∀ c ∈ Nat.toDigits 10 value, isDigit c := by
  refine ⟨Nat.toDigits_ne_nil, fun c mem => ?_⟩
  have isNumeral := Nat.isDigit_of_mem_toDigits (by decide) (by decide) mem
  simpa [Char.isDigit, isDigit, Char.le_def] using isNumeral

theorem digitsValue_toDigits : digitsValue (Nat.toDigits 10 value) = value :=
  Nat.ofDigitChars_toDigits (by decide) (by decide)

/-- Two runs of digits with a dot between them are read up to their ends. -/
theorem firstVersion?_of_digits {major minor tail : List Char} (someMajor : major ≠ [])
    (areMajor : ∀ c ∈ major, isDigit c) (someMinor : minor ≠ [])
    (areMinor : ∀ c ∈ minor, isDigit c) (ends : ∀ c ∈ tail.head?, isDigit c = false) :
    firstVersion? (major ++ '.' :: (minor ++ tail)) = some (major, minor) := by
  have isMinor : (minor ++ tail).takeWhile isDigit = minor := by
    rw [takeWhile_append_of_pos areMinor]
    cases tail with
    | nil => simp
    | cons c => simp [ends c rfl]
  obtain ⟨c, major, rfl⟩ := exists_cons_of_ne_nil someMajor
  have isMajor : (c :: major ++ '.' :: (minor ++ tail)).takeWhile isDigit = c :: major := by
    rw [takeWhile_append_of_pos areMajor]
    simp [show isDigit '.' = false by decide]
  have behind : (c :: major ++ '.' :: (minor ++ tail)).dropWhile isDigit =
      '.' :: (minor ++ tail) := by
    rw [dropWhile_append_of_pos areMajor]
    simp [show isDigit '.' = false by decide]
  rw [cons_append] at isMajor behind ⊢
  simp [firstVersion?, isMajor, behind, isMinor, someMinor]

/-- What is neither a digit nor a dot is passed over. -/
theorem firstVersion?_cons (other : isDigit c = false)
    (noDot : c ≠ '.') : firstVersion? (c :: rest) = firstVersion? rest := by
  simp [firstVersion?, other, noDot]

theorem firstVersion?_sign (sign : Sign) :
    firstVersion? (sign.chars ++ rest) = firstVersion? rest := by
  cases sign <;> simp only [Sign.chars, cons_append, nil_append]
  all_goals repeat rw [firstVersion?_cons (by decide) (by decide)]

/-- Whatever its sign and whatever follows, the number of the first comparator is found. -/
theorem firstVersion?_chars (constraint : Constraint) :
    firstVersion? constraint.chars = some (Nat.toDigits 10 constraint.first.first.major,
      Nat.toDigits 10 constraint.first.first.minor) := by
  obtain ⟨⟨⟨-, major, minor, patch⟩, comparators⟩, alternatives⟩ := constraint
  obtain ⟨someMajor, areMajor⟩ := digits_toDigits
  obtain ⟨someMinor, areMinor⟩ := digits_toDigits
  simp only [Constraint.chars, Alternative.chars, Comparator.chars, append_assoc,
    cons_append, firstVersion?_sign]
  refine firstVersion?_of_digits someMajor areMajor someMinor areMinor fun c isNext => ?_
  -- The number ends at a dot, at a blank, or with the text.
  cases patch with
  | some =>
    obtain rfl : '.' = c := by simpa [Comparator.patchChars] using isNext
    decide
  | none =>
    cases comparators with
    | cons =>
      obtain rfl : ' ' = c := by simpa [Comparator.patchChars] using isNext
      decide
    | nil =>
      cases alternatives with
      | cons =>
        obtain rfl : ' ' = c := by simpa [Comparator.patchChars] using isNext
        decide
      | nil => simp [Comparator.patchChars] at isNext

/-- No semicolon stands in a comparator. -/
theorem semicolon_notMem_chars (comparator : Comparator) : ';' ∉ comparator.chars := by
  have noDigit : ∀ value : Nat, ';' ∉ Nat.toDigits 10 value := fun value mem =>
    absurd ((digits_toDigits).2 _ mem) (by decide)
  have noPatch : ';' ∉ comparator.patchChars := by
    unfold Comparator.patchChars
    split <;> simp [noDigit]
  have noSign : ';' ∉ comparator.sign.chars := by
    cases comparator.sign <;> decide
  simp [Comparator.chars, noDigit, noPatch, noSign]

theorem trimmed_of_ends {first last : Char} {middle : List Char} (starts : isSpace first = false)
    (ends : isSpace last = false) :
    trimmed (first :: (middle ++ [last])) = first :: (middle ++ [last]) := by
  simp [trimmed, starts, ends]

/-- What stands between the words of a pragma and its semicolon is the constraint. -/
theorem pragmaConstraint?_of_chars (nonempty : chars ≠ []) (noSemicolon : ';' ∉ chars) :
    pragmaConstraint? (String.ofList ("pragma solidity ".toList ++ chars ++ [';'])) =
      some chars := by
  have isWord : "pragma solidity ".toList = 'p' :: "ragma solidity ".toList := by simp
  have whole := @trimmed_of_ends 'p' ';' ("ragma solidity ".toList ++ chars) (by decide) (by decide)
  rw [← cons_append, ← cons_append, ← isWord] at whole
  have found := (@after?_eq_some _ _ "pragma solidity ").mpr (whole.trans (append_assoc _ _ _))
  rw [pragmaConstraint?, String.toList_ofList, found]
  simp [nonempty, noSemicolon]

theorem pragmaConstraint?_pragma (constraint : Constraint) :
    pragmaConstraint? constraint.pragma = some constraint.chars := by
  apply pragmaConstraint?_of_chars
  · intro isEmpty
    have found := firstVersion?_chars constraint
    rw [isEmpty] at found
    cases found
  · simp [Constraint.chars, Alternative.chars, semicolon_notMem_chars]

/-- The first number of the constraint is what is taken for the lowest version. That arithmetic is
taken to be checked only if all allowed releases check it, holds exactly if the number is too long
to be read, if it is below 0.8, or if no alternative allows a lower end of one of its numbers below
0.8. The first number is the lowest language that is allowed exactly if it is the lowest one among
the lower ends. -/
theorem checksArithmetic_sound_iff (constraint : Constraint) (before after : List String)
    (noPragma : ∀ line ∈ before, pragmaConstraint? line = none) :
    let lines := before ++ constraint.pragma :: after
    let first := constraint.first.first
    minimumVersion? lines = some (first.major, first.minor) ∧
      ((excessVersion? lines = none → checksArithmetic lines = true →
          ∀ release, constraint.allows release = true → ⟨0, 8, 0⟩ ≤ release) ↔
        isTooLong (Nat.toDigits 10 first.major) = true ∨
          isTooLong (Nat.toDigits 10 first.minor) = true ∨ first.major = 0 ∧ first.minor < 8 ∨
          ∀ low ∈ constraint.lowerEnds, ⟨0, 8, 0⟩ ≤ low) ∧
      (IsLeast {found | ∃ release, constraint.allows release = true ∧ release.language = found}
          (toLex (first.major, first.minor)) ↔
        toLex (first.major, first.minor) ∈ constraint.lowerEnds.map Release.language ∧
          ∀ low ∈ constraint.lowerEnds, toLex (first.major, first.minor) ≤ low.language) := by
  intro lines first
  have digits : versionDigits? lines =
      some (Nat.toDigits 10 first.major, Nat.toDigits 10 first.minor) := by
    have skipped : (before.findSome? fun line => (pragmaConstraint? line).bind firstVersion?) =
        none := by
      simp only [findSome?_eq_none_iff]
      intro line member
      rw [noPragma line member, Option.bind_none]
    rw [versionDigits?, findSome?_append, skipped, Option.none_or, findSome?_cons,
      pragmaConstraint?_pragma, Option.bind_some, firstVersion?_chars]
  have isFirst : minimumVersion? lines = some (first.major, first.minor) := by
    simp only [minimumVersion?, digits, Option.map_some, digitsValue_toDigits]
  have isChecked : checksArithmetic lines = true ↔ ¬ (first.major = 0 ∧ first.minor < 8) := by
    simp [checksArithmetic, isFirst]
    omega
  have isRead : excessVersion? lines = none ↔ ¬ isTooLong (Nat.toDigits 10 first.major) = true ∧
      ¬ isTooLong (Nat.toDigits 10 first.minor) = true := by
    simp [excessVersion?, digits]
  refine ⟨isFirst, ?_, Constraint.isLeast_language_iff⟩
  rw [isRead, isChecked, Constraint.forall_allows_iff, and_imp]
  simp only [or_iff_not_imp_left]

/-- An upper bound in front of a lower one. -/
def upperFirst : Constraint :=
  ⟨⟨⟨.below, 0, 9, some 0⟩, [⟨.atLeast, 0, 6, some 0⟩]⟩, []⟩

theorem upperFirst_minimumVersion :
    let before := ["// SPDX-License-Identifier: MIT"]
    (∀ line ∈ before, pragmaConstraint? line = none) ∧
      minimumVersion? (before ++ [upperFirst.pragma]) = some (0, 9) := by
  intro before
  have noPragma : ∀ line ∈ before, pragmaConstraint? line = none := by simp [before]; decide
  exact ⟨noPragma, (checksArithmetic_sound_iff upperFirst before [] noPragma).1⟩

/-- Old compilers are allowed, and nothing is checked. -/
theorem upperFirst_unchecked :
    upperFirst.pragma = "pragma solidity <0.9.0 >=0.6.0;" ∧
      checksArithmetic [upperFirst.pragma] = true ∧ upperFirst.allows ⟨0, 6, 0⟩ = true := by
  decide

end ContractForge.Listing
