import ContractForge.Check.Findings
import ContractForge.Proofs.Check.Scrubbing

/-!
# Blanking out keeps offsets

Blanking out replaces characters one by one, and no line break is made or lost
(`blanks_scrub`). So a word that is found in the result stands at the same place of the
source, and the line that is reported is its line there (`checkSource_lines`).
-/

namespace ContractForge.Check

open Text List

variable {here? : Option Char → List Char → Option String} {name : String} {line : Nat}
  {old new : List Char}

/-- A text without blanks stands where it does after blanking out. -/
theorem eq_of_blanks (blanks : Forall₂ Blanks old word) (solid : ' ' ∉ word) : old = word := by
  induction blanks with
  | nil => rfl
  | cons isNew _ ih =>
    obtain ⟨notBlank, others⟩ := (not_or.mp (mt mem_cons.mpr solid))
    rw [ih others, isNew.resolve_right fun made => notBlank made.2.symm]

theorem count_of_blanks (blanks : Forall₂ Blanks old new) : old.count '\n' = new.count '\n' := by
  induction blanks with
  | nil => rfl
  | cons isNew _ ih =>
    rw [count_cons, count_cons, ih]
    obtain rfl | ⟨notBreak, rfl⟩ := isNew
    · rfl
    · simp [notBreak]

/-- The word stands in the text on the line, where the search finds it after blanking out. -/
def IsAt (here? : Option Char → List Char → Option String) (text : List Char) (name : String)
    (line : Nat) : Prop :=
  ∃ front rest, text = front ++ (name.toList ++ rest) ∧ line = front.count '\n' + 1 ∧
    here? ((scrub text).take front.length).getLast? ((scrub text).drop front.length) = some name

/-- The search finds words that have no blanks, where they stand. -/
def FindsWords (here? : Option Char → List Char → Option String) : Prop :=
  ∀ ⦃previous rest name⦄, here? previous rest = some name →
    ' ' ∉ name.toList ∧ ∃ more, rest = name.toList ++ more

theorem isAt_of_findAll (finds : FindsWords here?)
    (found : (name, line) ∈ findAll here? (scrub chars)) : IsAt here? chars name line := by
  obtain ⟨front, rest, isText, isHere, rfl⟩ := mem_findAllFrom found
  have blanks := blanks_scrub chars
  obtain ⟨solid, more, rfl⟩ := finds isHere
  rw [isText] at blanks
  have ofFront := forall₂_take_append _ _ _ blanks
  have isWord := eq_of_blanks (forall₂_take_append _ _ _ (forall₂_drop_append _ _ _ blanks)) solid
  refine ⟨chars.take front.length, (chars.drop front.length).drop name.toList.length, ?_, ?_, ?_⟩
  · have isRest := take_append_drop name.toList.length (chars.drop front.length)
    rw [isWord] at isRest
    rw [isRest, take_append_drop]
  · rw [count_of_blanks ofFront]
  · rw [ofFront.length_eq, isText, take_left, drop_left]
    simpa using isHere

/-- A word from a list of words without blanks is found where it stands. -/
theorem stands_of_after? {names : List String} {test : List Char → Bool}
    (solid : ∀ name ∈ names, ' ' ∉ name.toList) (mem : name ∈ names)
    (found : (after? name chars).any test) :
    ' ' ∉ name.toList ∧ ∃ more, chars = name.toList ++ more := by
  obtain ⟨more, isAfter, -⟩ := (Option.any_eq_true _ _).mp found
  exact ⟨solid name mem, more, after?_eq_some.mp isAfter⟩

theorem findsWords_evaluatorHere? : FindsWords evaluatorHere? := by
  intro previous rest name isHere
  have here := find?_some isHere
  exact stands_of_after? (by decide) (mem_of_find?_eq_some isHere) (Bool.and_eq_true_iff.mp here).2

theorem findsWords_launcherHere? : FindsWords launcherHere? := by
  intro previous rest name isHere
  obtain isHere | ⟨-, isHere⟩ := Option.or_eq_some_iff.mp isHere
  · have here := find?_some isHere
    exact stands_of_after? (by decide) (mem_of_find?_eq_some isHere)
      (Bool.and_eq_true_iff.mp here).2
  obtain isHere | ⟨-, isHere⟩ := Option.or_eq_some_iff.mp isHere
  · have here := find?_some isHere
    exact stands_of_after? (by decide) (mem_of_find?_eq_some isHere)
      (Bool.and_eq_true_iff.mp here).2
  obtain isHere | ⟨-, isHere⟩ := Option.or_eq_some_iff.mp isHere
  · split at isHere
    · rename_i isFirst
      cases isHere
      obtain ⟨more, rfl⟩ := head?_eq_some_iff.mp (beq_iff_eq.mp isFirst)
      exact ⟨by decide, more, rfl⟩
    · contradiction
  · split at isHere
    · rename_i isPercent
      cases isHere
      simp only [isPercentCommand, Option.any_eq_true, Option.bind_eq_some_iff,
        after?_eq_some, head?_eq_some_iff] at isPercent
      obtain ⟨c, ⟨_, rfl, more, rfl⟩, isOpener⟩ := isPercent
      refine ⟨?_, more, ?_⟩
      · rw [String.toList_ofList]
        rintro isBlank
        obtain rfl : ' ' = c := by simpa using isBlank
        exact absurd isOpener (by decide)
      · simp
    · contradiction

/-- Blanking out keeps the length of a source, makes nothing but blanks and has line breaks where
the source has them. The line of each evaluation or launch that is found is that of its text in the
source. -/
theorem checkSource_lines (source : String) :
    (scrub source.toList).length = source.toList.length ∧
      (∀ (index : Nat) (old new : Char), source.toList[index]? = some old →
        (scrub source.toList)[index]? = some new →
          (new = old ∨ new = ' ') ∧ (new = '\n' ↔ old = '\n')) ∧
      ∀ reported ∈ checkSource source, reported.code = "E003" ∨ reported.code = "E004" →
        ∃ name line, reported.line = some (Int.ofNat line) ∧
          (reported.code = "E003" ∧ IsAt evaluatorHere? source.toList name line ∧
              reported.message = s!"Use of {name} is not allowed in smart contracts" ∨
            reported.code = "E004" ∧ IsAt launcherHere? source.toList name line) := by
  have blanks := blanks_scrub source.toList
  refine ⟨blanks.length_eq.symm, fun index old new isOld isNew => ?_,
    fun reported member known => ?_⟩
  · obtain rfl | ⟨notBreak, rfl⟩ : Blanks old new := by
      obtain ⟨isIndex, rfl⟩ := List.getElem?_eq_some_iff.mp isOld
      obtain ⟨isNewIndex, rfl⟩ := List.getElem?_eq_some_iff.mp isNew
      exact blanks.get isIndex isNewIndex
    · simp
    · simp [notBreak]
  · simp only [checkSource, mem_append, mem_map] at member
    obtain ((isClass | isConstructor) | ⟨⟨name, line⟩, found, rfl⟩) |
      ⟨⟨name, line⟩, found, rfl⟩ := member
    · split at isClass <;> simp_all [finding]
    · split at isConstructor <;> simp_all [finding]
    · exact ⟨name, line, rfl, .inl ⟨rfl, isAt_of_findAll findsWords_evaluatorHere? found, rfl⟩⟩
    · exact ⟨name, line, rfl, .inr ⟨rfl, isAt_of_findAll findsWords_launcherHere? found⟩⟩

end ContractForge.Check
