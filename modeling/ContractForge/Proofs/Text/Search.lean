import Mathlib.Tactic.FinCases
import ContractForge.Text.Search

/-!
# What searches find

The readers of `ContractForge.Text.Search` say what they found and what follows
it. Here they are characterised by how the text is put together, and
`namesIn` is shown to find every name that stands between two characters that
belong to no word. A search over all places finds something exactly if one of them
has it.
-/

namespace ContractForge.Text

open List

variable {next : Char} {name : List Char}

/-- A text has a beginning exactly if it is put together of it and what follows. -/
theorem after?_eq_some {start : String} :
    after? start chars = some rest ↔ chars = start.toList ++ rest := by
  unfold after?
  rw [← String.length_toList]
  constructor
  · intro found
    split at found
    · rename_i starts
      obtain ⟨_, rfl⟩ := isPrefixOf_iff_prefix.mp starts
      simp at found
      rw [found]
    · contradiction
  · rintro rfl
    simp

/-! ### Character classes -/

theorem isWordChar_of_isNameStart (starts : isNameStart c) : isWordChar c := by
  simp only [isNameStart, Bool.or_eq_true] at starts
  rcases starts with letter | underscore
  · simp [isWordChar, isAlphanumeric, isLetter, letter]
  · simp [isWordChar, underscore]

theorem isSpace_of_isBlankChar (blank : isBlankChar c) : isSpace c := by
  simp only [isBlankChar, Bool.or_eq_true, beq_iff_eq] at blank
  obtain rfl | rfl := blank
  · rfl
  · rfl

theorem isWordChar_of_isBlankChar (blank : isBlankChar c) : isWordChar c = false := by
  simp only [isBlankChar, Bool.or_eq_true, beq_iff_eq] at blank
  rcases blank with rfl | rfl
  all_goals decide

/-- The code points of white space. -/
def spaceCodes : List Nat :=
  range' 0x09 5 ++ range' 0x1C 5 ++ [0x85, 0xA0, 0x1680] ++ range' 0x2000 11 ++
    [0x2028, 0x2029, 0x202F, 0x205F, 0x3000]

theorem toNat_mem_spaceCodes (isSpaced : isSpace c) : c.toNat ∈ spaceCodes := by
  simp only [isSpace, spaceRanges, Ranges.has, any_cons, any_nil, Bool.or_eq_true, beq_iff_eq,
    Bool.and_eq_true, decide_eq_true_eq, Bool.or_false, ← Char.toNat_inj] at isSpaced
  simp only [spaceCodes, mem_append, mem_range'_1, mem_cons, not_mem_nil]
  have blank : ' '.toNat = 0x20 := rfl
  omega

theorem isSpace_of_isWordChar (isWord : isWordChar c) : isSpace c = false := by
  have outsideAll : ∀ code ∈ spaceCodes, isWordChar (Char.ofNat code) = false := by decide +kernel
  by_contra isSpaced
  have outside := outsideAll _ (toNat_mem_spaceCodes (eq_true_of_ne_false isSpaced))
  rw [Char.ofNat_toNat] at outside
  exact Bool.false_ne_true (outside.symm.trans isWord)

theorem isNameStart_of_not_isWordChar (outside : isWordChar c = false) : isNameStart c = false := by
  cases starts : isNameStart c with
  | false => rfl
  | true =>
    rw [isWordChar_of_isNameStart starts] at outside
    contradiction

/-! ### Names -/

/-- A name at the beginning of a text is its longest beginning of word characters, and starts
like a name. -/
theorem name?_eq_some (found : name? chars = some (name, rest)) :
    (∃ first others, chars = first :: others ∧ isNameStart first ∧
      name = first :: others.takeWhile isWordChar) ∧ rest = chars.dropWhile isWordChar := by
  unfold name? at found
  cases chars with
  | nil => simp at found
  | cons first others =>
    by_cases starts : isNameStart first
    · have word := isWordChar_of_isNameStart starts
      simp only [head?_cons, Option.any_some, starts, if_true, word?,
        takeWhile_cons, word, Option.some.injEq, Prod.mk.injEq] at found
      exact ⟨⟨first, others, rfl, starts, found.1.symm⟩, found.2.symm⟩
    · simp [starts] at found

theorem mem_namesIn_of_name? (found : name? chars = some (name, rest)) :
    name ∈ namesIn false chars := by
  obtain ⟨⟨_, _, rfl, starts, rfl⟩, -⟩ := name?_eq_some found
  simp [namesIn, starts]

/-- The names behind a character that belongs to no word are names of the whole text. -/
theorem mem_namesIn_append (front : List Char) (outside : isWordChar c = false)
    (mem : name ∈ namesIn false chars) (inside : Bool) :
    name ∈ namesIn inside (front ++ c :: chars) := by
  induction front generalizing inside with
  | nil => simpa [namesIn, outside, isNameStart_of_not_isWordChar outside] using mem
  | cons _ _ ih =>
    rw [cons_append, namesIn]
    split
    · exact ih true
    · split
      · exact mem_cons_of_mem _ (ih true)
      · exact ih false

/-- Blanks before a text hide none of its names. -/
theorem mem_namesIn_of_dropWhile (mem : name ∈ namesIn false (chars.dropWhile isBlankChar)) :
    name ∈ namesIn false chars := by
  induction chars with
  | nil => simpa using mem
  | cons first _ ih =>
    by_cases blank : isBlankChar first
    · rw [dropWhile_cons_of_pos blank] at mem
      exact mem_namesIn_append [] (isWordChar_of_isBlankChar blank) (ih mem) false
    · rwa [dropWhile_cons_of_neg blank] at mem

/-! ### Words -/

/-- A name that can be read again: it has at least one character, and all are those of words. -/
def isWord (name : String) : Bool :=
  !name.toList.isEmpty && name.toList.all isWordChar

theorem isWord_iff {name : String} :
    isWord name ↔ name.toList ≠ [] ∧ ∀ c ∈ name.toList, isWordChar c := by
  simp only [isWord, Bool.and_eq_true, Bool.not_eq_true', isEmpty_eq_false_iff, all_eq_true]

theorem word?_append (named : name ≠ []) (word : ∀ c ∈ name, isWordChar c)
    (stops : isWordChar next = false) :
    word? (name ++ next :: rest) = some (name, next :: rest) := by
  have taken : (name ++ next :: rest).takeWhile isWordChar = name := by
    rw [takeWhile_append_of_pos word, takeWhile_cons_of_neg (by simp [stops]), append_nil]
  have left : (name ++ next :: rest).dropWhile isWordChar = next :: rest := by
    rw [dropWhile_append_of_pos word, dropWhile_cons_of_neg (by simp [stops])]
  unfold word?
  rw [taken, left]
  cases name with
  | nil => contradiction
  | cons => rfl

/-! ### Places of a text -/

theorem anywhere_eq_true (holds : anywhere test previous chars) :
    ∃ front rest, chars = front ++ rest ∧ test (front.getLast?.or previous) rest := by
  induction chars generalizing previous with
  | nil => exact ⟨[], [], rfl, holds⟩
  | cons c chars ih =>
    obtain here | later := Bool.or_eq_true_iff.mp holds
    · exact ⟨[], c :: chars, rfl, here⟩
    · obtain ⟨front, rest, rfl, there⟩ := ih later
      refine ⟨c :: front, rest, rfl, ?_⟩
      cases isLast : front.getLast? <;> simpa [getLast?_cons] using there

theorem anywhere_of_append
    (there : test (front.getLast?.or previous) rest) : anywhere test previous (front ++ rest) := by
  induction front generalizing previous with
  | nil =>
    cases rest with
    | nil => exact there
    | cons => exact Bool.or_eq_true_iff.mpr (.inl there)
  | cons _ front ih =>
    refine Bool.or_eq_true_iff.mpr (.inr (ih ?_))
    cases isLast : front.getLast? <;> simpa [getLast?_cons, isLast] using there

/-- If a search finds nothing, then there is nothing to find at any place. -/
theorem findAllFrom_eq_nil (nothing : findAllFrom here? line previous 0 (front ++ c :: rest) = []) :
    here? (front.getLast?.or previous) (c :: rest) = none := by
  induction front generalizing line previous with
  | nil =>
    cases found : here? previous (c :: rest) with
    | none => exact found
    | some => simp [findAllFrom, found] at nothing
  | cons first front ih =>
    cases found : here? previous (first :: (front ++ c :: rest)) with
    | none =>
      simp only [cons_append, findAllFrom, found] at nothing
      have later := ih nothing
      cases isLast : front.getLast? <;> simpa [getLast?_cons] using later
    | some => simp [findAllFrom, found] at nothing

/-- What is found stands behind as many line breaks as its line says. -/
theorem mem_findAllFrom {name : String}
    (found : (name, line) ∈ findAllFrom here? start previous skip chars) :
    ∃ front rest, chars = front ++ rest ∧ here? (front.getLast?.or previous) rest = some name ∧
      line = front.count '\n' + start := by
  induction chars generalizing start previous skip with
  | nil => simp [findAllFrom] at found
  | cons c chars ih =>
    let next := if c == '\n' then start + 1 else start
    -- The first character is the place, or what is behind it has one.
    obtain isHere | ⟨skip, found⟩ : here? previous (c :: chars) = some name ∧ line = start ∨
        ∃ skip, (name, line) ∈ findAllFrom here? next (some c) skip chars := by
      unfold findAllFrom at found
      dsimp only at found
      split at found
      · exact .inr ⟨_, found⟩
      · obtain same | found := mem_cons.mp found
        · cases same
          exact .inl ⟨‹_›, rfl⟩
        · exact .inr ⟨_, found⟩
      · exact .inr ⟨_, found⟩
    · exact ⟨[], c :: chars, rfl, isHere.1, by simp [isHere.2]⟩
    · obtain ⟨front, rest, rfl, isHere, rfl⟩ := ih found
      refine ⟨c :: front, rest, rfl, ?_, ?_⟩
      · cases isLast : front.getLast? <;> simpa [getLast?_cons, isLast] using isHere
      · simp only [next, count_cons]
        split <;> omega

end ContractForge.Text
