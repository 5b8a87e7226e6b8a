import ContractForge.Listing.Arithmetic
import ContractForge.Proofs.Text.Search
import Mathlib.Data.List.TakeWhile

/-!
# Checking arithmetic a second time

A line whose arithmetic was checked is not changed again, unless it assigns to two entries
at once (`checkLine_checkLine_iff`): the target of `a[i] += b[j] += 1;` is taken to be all of
`a[i] += b[j]`, and the compound assignment inside it is found by the second check.
-/

namespace ContractForge.Listing

open Text List

variable {c : Char} {rest root tail index value indent : List Char} {line function : String}
  {unsigned : List String} {end? : List Char → Option (String × List Char)}

/-! ### Brackets before a compound operator -/

/-- Whether a text starts with a compound operator, with blanks around it. -/
def startsCompound : List Char → Bool
  | ' ' :: operator :: '=' :: ' ' :: _ => (checkedFunction? operator).isSome
  | _ => false

/-- Whether a compound operator follows one of the closing brackets before the first semicolon. -/
def marked : List Char → Bool
  | [] => false
  | ';' :: _ => false
  | c :: rest => (c == ']' && startsCompound rest) || marked rest

/-- Whether a compound operator follows two of the closing brackets before the first semicolon. -/
def markedTwice : List Char → Bool
  | [] => false
  | ';' :: _ => false
  | c :: rest => (c == ']' && startsCompound rest && marked rest) || markedTwice rest

theorem marked_cons (inside : c ≠ ';') (rest : List Char) :
    marked (c :: rest) = ((c == ']' && startsCompound rest) || marked rest) := by
  rw [marked]
  simpa using inside

theorem markedTwice_cons (inside : c ≠ ';') (rest : List Char) :
    markedTwice (c :: rest) =
      ((c == ']' && startsCompound rest && marked rest) || markedTwice rest) := by
  rw [markedTwice]
  simpa using inside

theorem marked_of_markedTwice {chars : List Char} (twice : markedTwice chars) : marked chars := by
  induction chars with
  | nil => contradiction
  | cons c _ ih =>
    by_cases isEnd : c = ';'
    · subst isEnd
      contradiction
    · rw [markedTwice_cons isEnd, Bool.or_eq_true, Bool.and_eq_true] at twice
      rw [marked_cons isEnd, Bool.or_eq_true]
      obtain ⟨here, -⟩ | later := twice
      · exact .inl here
      · exact .inr (ih later)

/-- A character that no operator has ends the search for one. -/
theorem startsCompound_append (blank : c ≠ ' ') (equals : c ≠ '=')
    (op : checkedFunction? c = none) (rest : List Char) :
    startsCompound (chars ++ c :: rest) = startsCompound chars := by
  match chars with
  | [] => simp [startsCompound, blank]
  | [_] =>
    unfold startsCompound
    split <;> simp_all
  | [_, _] => simp [startsCompound, equals]
  | [_, _, _] => simp [startsCompound, blank]
  | first :: second :: third :: fourth :: others =>
    unfold startsCompound
    split <;> split <;> simp_all

/-- A text without brackets and semicolons adds nothing. -/
theorem marked_append (plain : ∀ c ∈ front, c ≠ ';' ∧ c ≠ ']') (rest : List Char) :
    marked (front ++ rest) = marked rest := by
  induction front with
  | nil => rfl
  | cons _ _ ih =>
    obtain ⟨⟨inside, noBracket⟩, ofOthers⟩ := forall_mem_cons.mp plain
    rw [cons_append, marked_cons inside, ih ofOthers]
    simp [noBracket]

/-- The marks in front of a bracket, at it and behind it. -/
theorem marked_bracket (noEnd : ';' ∉ front) (rest : List Char) :
    marked (front ++ ']' :: rest) =
      (marked (front ++ [']']) || (startsCompound rest || marked rest)) := by
  induction front with
  | nil => simp [marked, startsCompound]
  | cons _ _ ih =>
    rw [mem_cons, not_or] at noEnd
    obtain ⟨inside, ofOthers⟩ := noEnd
    have inside := Ne.symm inside
    rw [cons_append, marked_cons inside, ih ofOthers, cons_append,
      marked_cons inside, startsCompound_append (by decide) (by decide) rfl,
      startsCompound_append (by decide) (by decide) rfl, Bool.or_assoc]

/-- A text with a mark has a second one in front of it or behind it. -/
theorem markedTwice_bracket (noEnd : ';' ∉ front) (starts : startsCompound rest) :
    markedTwice (front ++ ']' :: rest) = (marked (front ++ [']']) || marked rest) := by
  induction front with
  | nil =>
    have implies := @marked_of_markedTwice rest
    cases twice : markedTwice rest <;> cases once : marked rest <;>
      simp_all [marked, markedTwice, startsCompound]
  | cons _ others ih =>
    rw [mem_cons, not_or] at noEnd
    obtain ⟨inside, ofOthers⟩ := noEnd
    have inside := Ne.symm inside
    have isMarked : marked (others ++ ']' :: rest) := by
      rw [marked_bracket ofOthers, starts]
      simp
    rw [cons_append, markedTwice_cons inside, ih ofOthers, isMarked,
      Bool.and_true, cons_append, marked_cons inside,
      startsCompound_append (by decide) (by decide) rfl,
      startsCompound_append (by decide) (by decide) rfl, Bool.or_assoc]

/-! ### Ends of statements -/

theorem startsCompound_iff :
    startsCompound rest ↔ ∃ op value,
      rest = ' ' :: op :: '=' :: ' ' :: value ∧ (checkedFunction? op).isSome := by
  constructor
  · intro starts
    unfold startsCompound at starts
    split at starts
    · exact ⟨_, _, rfl, starts⟩
    · contradiction
  · rintro ⟨_, _, rfl, known⟩
    exact known

theorem compoundEnd?_eq_some :
    compoundEnd? rest = some (function, value) ↔ ∃ op,
      rest = ' ' :: op :: '=' :: ' ' :: (value ++ [';']) ∧
        checkedFunction? op = some function ∧ value ≠ [] := by
  constructor
  · intro found
    unfold compoundEnd? at found
    split at found
    · rename_i op text
      split at found
      · rename_i known isText
        cases found
        refine ⟨op, ?_, known, by simp⟩
        rw [← reverse_reverse text, isText]
        simp
      · contradiction
    · contradiction
  · rintro ⟨_, rfl, known, some⟩
    cases isReversed : value.reverse with
    | nil => exact absurd (reverse_eq_nil_iff.mp isReversed) some
    | cons c reversed =>
      have isValue : value = (c :: reversed).reverse := by rw [← isReversed, reverse_reverse]
      simp [compoundEnd?, known, isValue]

/-- A compound assignment ends where an operator starts, if a value and a semicolon follow. -/
theorem compoundEnd?_isSome_iff :
    (compoundEnd? rest).isSome ↔
      startsCompound rest ∧ rest.getLast? = some ';' ∧ 6 ≤ rest.length := by
  constructor
  · intro isSome
    obtain ⟨⟨_, _⟩, found⟩ := Option.isSome_iff_exists.mp isSome
    obtain ⟨_, rfl, known, some⟩ := compoundEnd?_eq_some.mp found
    have nonempty := length_pos_iff.mpr some
    refine ⟨by simp [startsCompound, known], by simp [getLast?_cons], ?_⟩
    simp only [length_cons, length_append]
    omega
  · rintro ⟨starts, ends, long⟩
    obtain ⟨op, text, rfl, known⟩ := startsCompound_iff.mp starts
    obtain ⟨_, isFunction⟩ := Option.isSome_iff_exists.mp known
    have textEnds : text.getLast? = some ';' := by
      cases text with
      | nil => simp at long
      | cons => simpa [getLast?_cons_cons] using ends
    obtain ⟨value, rfl⟩ := getLast?_eq_some_iff.mp textEnds
    have some : value ≠ [] := by
      rintro rfl
      simp at long
    exact Option.isSome_iff_exists.mpr ⟨_, compoundEnd?_eq_some.mpr ⟨op, rfl, isFunction, some⟩⟩

/-! ### Targets -/

/-- How what follows the name of a target is read: its index, the library function and the
value. -/
def targetEnd? (end? : List Char → Option (String × List Char)) (tail : List Char) :
    Option (List Char × String × List Char) :=
  (indexSplits tail).findSome? fun (index, rest) =>
    (end? rest).map fun (function, value) => (index, function, value)

theorem bracketEnds_cons (inside : c ≠ ';') (rest : List Char) :
    bracketEnds before (c :: rest) =
      if c == ']' then bracketEnds (c :: before) rest ++ [((c :: before).reverse, rest)]
      else bracketEnds (c :: before) rest := by
  rw [bracketEnds]
  simpa using inside

theorem mem_bracketEnds_iff :
    (index, rest) ∈ bracketEnds before chars ↔ ∃ front, chars = front ++ ']' :: rest ∧
      ';' ∉ front ∧ index = before.reverse ++ front ++ [']'] := by
  induction chars generalizing before with
  | nil => simp [bracketEnds]
  | cons c others ih =>
    by_cases isEnd : c = ';'
    · subst isEnd
      rw [bracketEnds]
      simp only [not_mem_nil, false_iff, not_exists, not_and]
      intro front shape _
      cases front with
      | nil => simp at shape
      | cons => simp_all
    · have split : (∃ front, c :: others = front ++ ']' :: rest ∧ ';' ∉ front ∧
          index = before.reverse ++ front ++ [']']) ↔
          (∃ front, others = front ++ ']' :: rest ∧ ';' ∉ front ∧
            index = (c :: before).reverse ++ front ++ [']']) ∨
          c = ']' ∧ index = (c :: before).reverse ∧ rest = others := by
        constructor
        · rintro ⟨front, shape, noEnd, rfl⟩
          cases front with
          | nil =>
            obtain ⟨rfl, rfl⟩ := List.cons.inj shape
            exact .inr ⟨rfl, by simp, rfl⟩
          | cons _ front =>
            obtain ⟨rfl, rfl⟩ := List.cons.inj shape
            exact .inl ⟨front, rfl, fun mem => noEnd (mem_cons_of_mem _ mem), by simp⟩
        · rintro (⟨front, rfl, noEnd, rfl⟩ | ⟨rfl, rfl, rfl⟩)
          · exact ⟨c :: front, rfl, by simp [noEnd, Ne.symm isEnd], by simp⟩
          · exact ⟨[], rfl, by simp, by simp⟩
      rw [bracketEnds_cons isEnd, split, ← ih]
      by_cases closing : c = ']'
      all_goals simp [closing]

def IsIndex (index : List Char) : Prop :=
  index = [] ∨ ∃ front, index = '[' :: (front ++ [']']) ∧ ';' ∉ front

theorem mem_indexSplits_iff :
    (index, rest) ∈ indexSplits tail ↔ tail = index ++ rest ∧ IsIndex index := by
  constructor
  · intro mem
    unfold indexSplits at mem
    split at mem
    · obtain inBrackets | whole := mem_append.mp mem
      · obtain ⟨front, rfl, noEnd, rfl⟩ := mem_bracketEnds_iff.mp inBrackets
        exact ⟨by simp, .inr ⟨front, rfl, noEnd⟩⟩
      · cases mem_singleton.mp whole
        exact ⟨rfl, .inl rfl⟩
    · cases mem_singleton.mp mem
      exact ⟨rfl, .inl rfl⟩
  · rintro ⟨rfl, rfl | ⟨front, rfl, noEnd⟩⟩
    · unfold indexSplits
      split <;> simp
    · rw [cons_append, append_assoc]
      exact mem_append_left _ (mem_bracketEnds_iff.mpr ⟨front, rfl, noEnd, rfl⟩)

theorem targetEnd?_isSome_iff :
    (targetEnd? end? tail).isSome ↔
      ∃ index rest, tail = index ++ rest ∧ IsIndex index ∧ (end? rest).isSome := by
  simp [targetEnd?, mem_indexSplits_iff, and_assoc]

theorem marked_eq_any (before : List Char) :
    marked chars = (bracketEnds before chars).any fun (_, rest) => startsCompound rest := by
  induction chars generalizing before with
  | nil => rfl
  | cons c _ ih =>
    by_cases isEnd : c = ';'
    · subst isEnd
      rfl
    · rw [marked_cons isEnd, bracketEnds_cons isEnd, ih (c :: before)]
      by_cases closing : c = ']'
      · simp [closing, Bool.or_comm]
      · simp [closing]

/-- A text has a mark exactly if it is put together around one. -/
theorem marked_iff :
    marked chars ↔ ∃ front rest, chars = front ++ ']' :: rest ∧ ';' ∉ front ∧
      startsCompound rest := by
  rw [marked_eq_any [], any_eq_true]
  constructor
  · rintro ⟨⟨_, rest⟩, mem, starts⟩
    obtain ⟨front, shape, noEnd, -⟩ := mem_bracketEnds_iff.mp mem
    exact ⟨front, rest, shape, noEnd, starts⟩
  · rintro ⟨front, rest, shape, noEnd, starts⟩
    exact ⟨⟨_, rest⟩, mem_bracketEnds_iff.mpr ⟨front, shape, noEnd, rfl⟩, starts⟩

/-- At the end of a statement, an operator is followed by a value, for the statement does not end
with the blank behind the operator. -/
theorem compoundEnd?_of_startsCompound (solid : last ≠ ' ')
    (ends : [last, ';'] <:+ before ++ rest) (starts : startsCompound rest) :
    (compoundEnd? rest).isSome := by
  obtain ⟨op, value, rfl, -⟩ := startsCompound_iff.mp starts
  obtain ⟨text, shape⟩ := ends
  have reversed : ';' :: last :: text.reverse =
      value.reverse ++ ' ' :: '=' :: op :: ' ' :: before.reverse := by
    simpa using congrArg reverse shape
  refine compoundEnd?_isSome_iff.mpr ⟨starts, ?_, ?_⟩
  · simpa [getLast?_append, getLast?_cons] using (congrArg getLast? shape).symm
  · match value with
    | [] | [_] => simp [solid] at reversed
    | _ :: _ :: _ => simp

/-- In a text that ends with a statement, a compound assignment ends at each mark. -/
theorem targetEnd?_compoundEnd? (indexed : tail.head? = some '[') (solid : last ≠ ' ')
    (ends : [last, ';'] <:+ tail) : (targetEnd? compoundEnd? tail).isSome = marked tail := by
  obtain ⟨_, rfl⟩ := head?_eq_some_iff.mp indexed
  rw [Bool.eq_iff_iff, targetEnd?_isSome_iff, marked_cons (by decide), Bool.or_eq_true, marked_iff]
  constructor
  · rintro ⟨_, rest, shape, rfl | ⟨front, rfl, noEnd⟩, isSome⟩
    · cases shape
      contradiction
    · exact .inr ⟨front, rest, by simpa using shape, noEnd, (compoundEnd?_isSome_iff.mp isSome).1⟩
  · rintro (noBracket | ⟨front, rest, rfl, noEnd, starts⟩)
    · contradiction
    · rw [append_cons, ← cons_append] at ends
      exact ⟨_, rest, by simp, .inr ⟨front, rfl, noEnd⟩,
        compoundEnd?_of_startsCompound solid ends starts⟩

/-! ### Checked statements -/

/-- What follows the name of the target in a statement with its update checked. -/
def checkedTail (root index : List Char) (function : String) (value : List Char) : List Char :=
  index ++ (" = ".toList ++ (root ++ (index ++ ('.' :: (function.toList ++ ('(' :: (value ++
    [')', ';'])))))))

theorem plain_of_isWordChar (word : isWordChar c) : c ≠ ';' ∧ c ≠ ']' := by
  constructor
  · rintro rfl
    exact absurd word (by decide)
  · rintro rfl
    exact absurd word (by decide)

theorem plain_of_checkedFunction? (known : checkedFunction? op = some function) :
    ∀ c ∈ function.toList, c ≠ ';' ∧ c ≠ ']' := by
  unfold checkedFunction? at known
  split at known <;> cases known <;> simp

theorem marked_append_close (value : List Char) :
    marked (value ++ [')', ';']) = marked (value ++ [';']) := by
  induction value with
  | nil => rfl
  | cons c _ ih =>
    by_cases isEnd : c = ';'
    · subst isEnd
      rfl
    · rw [cons_append, cons_append, marked_cons isEnd, marked_cons isEnd,
        ih, startsCompound_append (by decide) (by decide) rfl,
        startsCompound_append (by decide) (by decide) rfl]

/-- The marks of a statement with its update checked are those of its index and its value. -/
theorem marked_checkedTail (word : ∀ c ∈ root, isWordChar c) (noEnd : ';' ∉ front)
    (plain : ∀ c ∈ function.toList, c ≠ ';' ∧ c ≠ ']') (value : List Char) :
    marked (checkedTail root ('[' :: (front ++ [']'])) function value) =
      (marked (front ++ [']']) || marked (value ++ [';'])) := by
  have ofIndex : ∀ rest, marked ('[' :: (front ++ [']']) ++ rest) =
      (marked (front ++ [']']) || (startsCompound rest || marked rest)) := by
    intro _
    rw [cons_append, marked_cons (by decide), append_assoc, singleton_append, marked_bracket noEnd]
    rfl
  have named : ∀ c ∈ " = ".toList ++ root, c ≠ ';' ∧ c ≠ ']' :=
    forall_mem_append.mpr ⟨by simp, fun c mem => plain_of_isWordChar (word c mem)⟩
  have ofName : ∀ rest, marked (" = ".toList ++ (root ++ rest)) = marked rest := by
    intro _
    rw [← append_assoc, marked_append named]
  have called : ∀ c ∈ '.' :: (function.toList ++ ['(']), c ≠ ';' ∧ c ≠ ']' := by
    refine forall_mem_cons.mpr ⟨by simp, forall_mem_append.mpr ⟨plain, by simp⟩⟩
  have ofCall : ∀ rest, marked ('.' :: (function.toList ++ '(' :: rest)) = marked rest := by
    intro _
    rw [append_cons, ← cons_append, marked_append called]
  have noOperator : ∀ rest, startsCompound (" = ".toList ++ rest) = false := fun rest => rfl
  have noBlank : ∀ rest, startsCompound ('.' :: rest) = false := fun rest => rfl
  rw [checkedTail, ofIndex, noOperator, ofName, ofIndex, noBlank, ofCall, marked_append_close]
  simp only [Bool.false_or, ← Bool.or_assoc, Bool.or_self]

/-! ### Changes -/

/-- How the change that a statement makes is read from what follows the name of its target. -/
def change? (tail : List Char) : Option (List Char × String × List Char) :=
  (targetEnd? compoundEnd? tail).or (targetEnd? stepEnd? tail)

theorem stepEnd?_eq_some (found : stepEnd? rest = some (function, value)) :
    (rest = ['+', '+', ';'] ∧ function = "add" ∨ rest = ['-', '-', ';'] ∧ function = "sub") ∧
      value = ['1'] := by
  unfold stepEnd? at found
  split at found
  · rename_i isStep
    cases found
    exact ⟨.inl ⟨beq_iff_eq.mp isStep, rfl⟩, rfl⟩
  · split at found
    · rename_i isStep
      cases found
      exact ⟨.inr ⟨beq_iff_eq.mp isStep, rfl⟩, rfl⟩
    · contradiction

theorem exists_ending (found : targetEnd? end? tail = some (index, function, value)) :
    ∃ ending, tail = index ++ ending ∧ IsIndex index ∧ end? ending = some (function, value) := by
  obtain ⟨⟨_, ending⟩, mem, reads⟩ := exists_of_findSome?_eq_some found
  obtain ⟨⟨_, _⟩, ends, same⟩ := Option.map_eq_some_iff.mp reads
  cases same
  obtain ⟨shape, isIndex⟩ := mem_indexSplits_iff.mp mem
  exact ⟨ending, shape, isIndex, ends⟩

/-- A change is a compound assignment, or a step if the statement is no compound assignment. -/
theorem change?_eq_some (found : change? tail = some (index, function, value)) :
    ∃ ending, tail = index ++ ending ∧ IsIndex index ∧
      (compoundEnd? ending = some (function, value) ∧ (targetEnd? compoundEnd? tail).isSome ∨
        stepEnd? ending = some (function, value) ∧ targetEnd? compoundEnd? tail = none) := by
  unfold change? at found
  cases compound : targetEnd? compoundEnd? tail with
  | some =>
    rw [compound, Option.some_or] at found
    cases found
    obtain ⟨ending, shape, isIndex, ends⟩ := exists_ending compound
    exact ⟨ending, shape, isIndex, .inl ⟨ends, rfl⟩⟩
  | none =>
    rw [compound, Option.none_or] at found
    obtain ⟨ending, shape, isIndex, ends⟩ := exists_ending found
    exact ⟨ending, shape, isIndex, .inr ⟨ends, rfl⟩⟩

theorem plain_of_change? (found : change? tail = some (index, function, value)) :
    ∀ c ∈ function.toList, c ≠ ';' ∧ c ≠ ']' := by
  obtain ⟨_, -, -, ⟨ends, -⟩ | ⟨ends, -⟩⟩ := change?_eq_some found
  · obtain ⟨_, -, known, -⟩ := compoundEnd?_eq_some.mp ends
    exact plain_of_checkedFunction? known
  · obtain ⟨⟨-, rfl⟩ | ⟨-, rfl⟩, -⟩ := stepEnd?_eq_some ends
    all_goals simp

/-- With its update checked, a statement is longer. -/
theorem length_checkedTail
    (found : change? tail = some (index, function, value)) (root : List Char) :
    tail.length < (checkedTail root index function value).length := by
  obtain ⟨_, rfl, -, ⟨ends, -⟩ | ⟨ends, -⟩⟩ := change?_eq_some found
  · obtain ⟨_, rfl, -, -⟩ := compoundEnd?_eq_some.mp ends
    simp only [checkedTail, String.reduceToList, length_append, length_cons]
    omega
  · obtain ⟨⟨rfl, -⟩ | ⟨rfl, -⟩, -⟩ := stepEnd?_eq_some ends
    all_goals
      simp only [checkedTail, length_append, length_cons]
      omega

theorem checkedTail_ends (root index : List Char) (function : String) (value : List Char) :
    [')', ';'] <:+ checkedTail root index function value := by
  refine ⟨index ++ (" = ".toList ++ (root ++ (index ++ ('.' :: (function.toList ++
    ('(' :: value)))))), ?_⟩
  simp [checkedTail]

theorem targetEnd?_stepEnd?_checkedTail (root index : List Char) (function : String)
    (value : List Char) : targetEnd? stepEnd? (checkedTail root index function value) = none := by
  cases found : targetEnd? stepEnd? (checkedTail root index function value) with
  | none => rfl
  | some parts =>
    obtain ⟨_, shape, -, isStep⟩ := exists_ending found
    obtain ⟨_, ends⟩ := checkedTail_ends root index function value
    have reversed := congrArg reverse (ends.trans shape)
    obtain ⟨⟨isEnding, -⟩ | ⟨isEnding, -⟩, -⟩ := stepEnd?_eq_some isStep
    all_goals simp [isEnding] at reversed

/-- Whether a statement assigns to an entry and, in the course of it, to another one. -/
def assignsTwiceFrom (tail : List Char) : Bool :=
  (targetEnd? compoundEnd? tail).isSome && tail.head? == some '[' && markedTwice tail

theorem plain_operator (known : (checkedFunction? op).isSome) :
    ∀ c ∈ [' ', op, '=', ' '], c ≠ ';' ∧ c ≠ ']' := by
  have notMarks : op ≠ ';' ∧ op ≠ ']' := by
    constructor <;> rintro rfl <;> contradiction
  simpa using notMarks

/-- A statement is assigned to twice exactly if its index or its value has a mark. -/
theorem assignsTwiceFrom_eq (noEnd : ';' ∉ front)
    (ends : compoundEnd? ending = some (function, value))
    (compound : (targetEnd? compoundEnd? ('[' :: (front ++ [']']) ++ ending)).isSome) :
    assignsTwiceFrom ('[' :: (front ++ [']']) ++ ending) =
      (marked (front ++ [']']) || marked (value ++ [';'])) := by
  obtain ⟨op, rfl, known, -⟩ := compoundEnd?_eq_some.mp ends
  have isOperator : (checkedFunction? op).isSome := by
    rw [known]
    rfl
  have ofEnding : marked (' ' :: op :: '=' :: ' ' :: (value ++ [';'])) =
      marked (value ++ [';']) := marked_append (plain_operator isOperator) _
  rw [assignsTwiceFrom, compound, cons_append, markedTwice_cons (by decide),
    append_assoc, singleton_append,
    markedTwice_bracket noEnd (startsCompound_iff.mpr ⟨op, _, rfl, isOperator⟩), ofEnding]
  simp

/-- A second check finds a change in a checked compound assignment or step exactly if there were
two assignments in it. -/
theorem change?_checkedTail (word : ∀ c ∈ root, isWordChar c)
    (found : change? tail = some (index, function, value)) :
    (change? (checkedTail root index function value)).isSome = assignsTwiceFrom tail := by
  rw [change?, targetEnd?_stepEnd?_checkedTail, Option.or_none]
  have plain := plain_of_change? found
  obtain ⟨ending, rfl, rfl | ⟨front, rfl, noEnd⟩, ends⟩ := change?_eq_some found
  · have atBlank : (targetEnd? compoundEnd? (checkedTail root [] function value)).isSome = false :=
      rfl
    rw [atBlank, assignsTwiceFrom]
    obtain ⟨ends, -⟩ | ⟨-, noCompound⟩ := ends
    · obtain ⟨-, rfl, -⟩ := compoundEnd?_eq_some.mp ends
      simp
    · rw [noCompound]
      rfl
  · have again : (targetEnd? compoundEnd?
        (checkedTail root ('[' :: (front ++ [']'])) function value)).isSome =
        (marked (front ++ [']']) || marked (value ++ [';'])) := by
      rw [← marked_checkedTail word noEnd plain value]
      exact targetEnd?_compoundEnd? rfl (by decide) (checkedTail_ends _ _ _ _)
    rw [again]
    obtain ⟨ends, compound⟩ | ⟨ends, noCompound⟩ := ends
    · exact (assignsTwiceFrom_eq noEnd ends compound).symm
    · obtain ⟨last, solid, isLast⟩ : ∃ last, last ≠ ' ' ∧
          [last, ';'] <:+ '[' :: (front ++ [']']) ++ ending := by
        obtain ⟨⟨rfl, -⟩ | ⟨rfl, -⟩, -⟩ := stepEnd?_eq_some ends
        · exact ⟨'+', by decide, '[' :: (front ++ [']']) ++ ['+'], by simp⟩
        · exact ⟨'-', by decide, '[' :: (front ++ [']']) ++ ['-'], by simp⟩
      have unmarked := targetEnd?_compoundEnd? rfl solid isLast
      rw [noCompound, cons_append, marked_cons (by decide), append_assoc,
        singleton_append, marked_bracket noEnd] at unmarked
      obtain ⟨-, rfl⟩ := stepEnd?_eq_some ends
      have ofIndex : marked (front ++ [']']) = false := by simp_all
      rw [ofIndex, assignsTwiceFrom, noCompound]
      rfl

/-! ### Lines -/

/-- An indented line, put together of its blanks, the name that it starts with and what follows. -/
structure NamedLine (line : String) (indent root tail : List Char) : Prop where
  shape : line.toList = indent ++ (root ++ tail)
  indented : indent ≠ []
  blank : ∀ c ∈ indent, isBlankChar c = true
  named : root.head?.any isNameStart = true
  word : ∀ c ∈ root, isWordChar c = true
  stops : tail.head?.any isWordChar = false

def updateOf (indent root : List Char) (parts : List Char × String × List Char) : Update :=
  { indent := String.ofList indent
    root := String.ofList root
    target := String.ofList (root ++ parts.1)
    function := parts.2.1
    value := String.ofList parts.2.2 }

/-- An update is read in an indented line that starts with a name. -/
theorem update?_eq_bind (end? : List Char → Option (String × List Char)) (line : String) :
    update? end? line =
      if line.toList.head?.any isBlankChar then
        (name? (line.toList.dropWhile isBlankChar)).bind fun (root, tail) =>
          (targetEnd? end? tail).map (updateOf (line.toList.takeWhile isBlankChar) root)
      else none := by
  unfold update?
  dsimp only
  cases line.toList.head?.any isBlankChar with
  | false => rfl
  | true =>
    cases name? (line.toList.dropWhile isBlankChar) with
    | none => rfl
    | some parts =>
      simp only [Option.bind_eq_bind, Option.bind_some, targetEnd?]
      cases (indexSplits parts.2).findSome? fun (index, rest) =>
        (end? rest).map fun (function, value) => (index, function, value)
      all_goals rfl

namespace NamedLine

variable {line : String} {indent root tail : List Char}

section

variable (named : NamedLine line indent root tail)
include named

theorem exists_root :
    ∃ first others, root = first :: others ∧ isNameStart first ∧
      isBlankChar first = false := by
  cases root with
  | nil => exact absurd named.named (by decide)
  | cons first others =>
    refine ⟨first, others, rfl, named.named, ?_⟩
    cases blank : isBlankChar first with
    | false => rfl
    | true =>
      have word := named.word first mem_cons_self
      rw [isWordChar_of_isBlankChar blank] at word
      contradiction

theorem takeWhile_blank : line.toList.takeWhile isBlankChar = indent := by
  obtain ⟨_, _, rfl, -, solid⟩ := named.exists_root
  rw [named.shape, takeWhile_append_of_pos named.blank, cons_append,
    takeWhile_cons_of_neg (by simp [solid]), append_nil]

theorem dropWhile_blank : line.toList.dropWhile isBlankChar = root ++ tail := by
  obtain ⟨_, _, rfl, -, solid⟩ := named.exists_root
  rw [named.shape, dropWhile_append_of_pos named.blank, cons_append,
    dropWhile_cons_of_neg (by simp [solid])]

theorem name?_eq : name? (line.toList.dropWhile isBlankChar) = some (root, tail) := by
  obtain ⟨_, _, rfl, starts, -⟩ := named.exists_root
  have ends : tail.takeWhile isWordChar = [] ∧ tail.dropWhile isWordChar = tail := by
    cases tail with
    | nil => exact ⟨rfl, rfl⟩
    | cons next =>
      have outside : ¬ isWordChar next := by simpa using named.stops
      exact ⟨takeWhile_cons_of_neg outside, dropWhile_cons_of_neg outside⟩
  rw [named.dropWhile_blank, name?, cons_append, head?_cons, Option.any_some, if_pos starts,
    word?, ← cons_append, takeWhile_append_of_pos named.word,
    dropWhile_append_of_pos named.word, ends.1, ends.2, append_nil]

theorem update?_eq (end? : List Char → Option (String × List Char)) :
    update? end? line = (targetEnd? end? tail).map (updateOf indent root) := by
  have indented : line.toList.head?.any isBlankChar := by
    cases indent with
    | nil => exact absurd rfl named.indented
    | cons first =>
      rw [named.shape]
      exact named.blank first mem_cons_self
  rw [update?_eq_bind, if_pos indented, named.name?_eq, named.takeWhile_blank, Option.bind_some]

end

end NamedLine

/-- A line that is read as an update is indented and starts with a name. -/
theorem exists_namedLine (isSome : (update? end? line).isSome) :
    ∃ indent root tail, NamedLine line indent root tail := by
  rw [update?_eq_bind] at isSome
  split at isSome
  · rename_i indented
    cases found : name? (line.toList.dropWhile isBlankChar) with
    | none => simp [found] at isSome
    | some parts =>
      obtain ⟨_, _⟩ := parts
      obtain ⟨⟨first, others, isRest, starts, rfl⟩, rfl⟩ := name?_eq_some found
      have word := isWordChar_of_isNameStart starts
      have isName : (first :: others).takeWhile isWordChar =
          first :: others.takeWhile isWordChar := takeWhile_cons_of_pos word
      refine ⟨line.toList.takeWhile isBlankChar, (first :: others).takeWhile isWordChar,
        (line.toList.dropWhile isBlankChar).dropWhile isWordChar, ?_, ?_, ?_, ?_, ?_, ?_⟩
      · rw [isRest, takeWhile_append_dropWhile, ← isRest, takeWhile_append_dropWhile]
      · cases chars : line.toList with
        | nil => simp [chars] at indented
        | cons => simp_all
      · exact fun c mem => mem_takeWhile_imp mem
      · rw [isName]
        exact starts
      · exact fun c mem => mem_takeWhile_imp mem
      · have stops := head?_dropWhile_not isWordChar (line.toList.dropWhile isBlankChar)
        cases next : ((line.toList.dropWhile isBlankChar).dropWhile isWordChar).head? with
        | none => rfl
        | some => simpa [next] using stops
  · contradiction

theorem toList_checked (indent root : List Char) :
    (updateOf indent root parts).checked.toList =
      indent ++ (root ++ checkedTail root parts.1 parts.2.1 parts.2.2) := by
  simp [updateOf, Update.checked, checkedTail, toString]

namespace NamedLine

variable {line : String} {indent root tail : List Char}

section

variable (named : NamedLine line indent root tail) {parts : List Char × String × List Char}
include named

/-- With its update checked, a line starts as it did. -/
theorem checked (isIndex : IsIndex parts.1) :
    NamedLine (updateOf indent root parts).checked indent root
      (checkedTail root parts.1 parts.2.1 parts.2.2) where
  shape := toList_checked indent root
  indented := named.indented
  blank := named.blank
  named := named.named
  word := named.word
  stops := by
    obtain none | ⟨_, bracketed, -⟩ := isIndex
    · rw [none]
      rfl
    · rw [bracketed]
      rfl

theorem checkLine_eq (unsigned : List String) :
    checkLine unsigned line =
      if unsigned.contains (String.ofList root) then
        ((change? tail).map fun parts => (updateOf indent root parts).checked).getD line
      else line := by
  unfold checkLine
  rw [named.update?_eq, named.update?_eq, change?]
  have isRoot : ∀ parts, (updateOf indent root parts).root = String.ofList root := fun _ => rfl
  cases targetEnd? compoundEnd? tail <;> cases targetEnd? stepEnd? tail <;>
    cases mem : unsigned.contains (String.ofList root) <;>
      simp only [Option.map, Option.filter, isRoot, mem] <;> rfl

/-- With its update checked, a line is longer. -/
theorem length_lt (found : change? tail = some parts) :
    line.toList.length < (updateOf indent root parts).checked.toList.length := by
  rw [named.shape, toList_checked]
  simp only [length_append]
  exact Nat.add_lt_add_left (Nat.add_lt_add_left (length_checkedTail found root) _) _

theorem checkLine_eq_self_iff (unsigned : List String) :
    checkLine unsigned line = line ↔
      (unsigned.contains (String.ofList root) && (change? tail).isSome) = false := by
  rw [named.checkLine_eq]
  cases unsigned.contains (String.ofList root) with
  | false => exact iff_of_true rfl rfl
  | true =>
    rw [if_pos rfl]
    cases found : change? tail with
    | none => exact iff_of_true rfl rfl
    | some =>
      refine iff_of_false (fun same => ?_) (by simp)
      have longer := named.length_lt found
      rw [Option.map_some, Option.getD_some] at same
      rw [same] at longer
      exact Nat.lt_irrefl _ longer

end

end NamedLine

/-! ### Changed lines -/

/-- A line that is changed, what it is made of and what it becomes. -/
theorem exists_change (changed : checkLine unsigned line ≠ line) :
    ∃ indent root tail parts, NamedLine line indent root tail ∧
      unsigned.contains (String.ofList root) ∧ change? tail = some parts ∧
        checkLine unsigned line = (updateOf indent root parts).checked := by
  obtain ⟨indent, root, tail, named⟩ : ∃ indent root tail, NamedLine line indent root tail := by
    cases compound : update? compoundEnd? line with
    | some update => exact exists_namedLine (Option.isSome_iff_exists.mpr ⟨update, compound⟩)
    | none =>
      cases step : update? stepEnd? line with
      | some update => exact exists_namedLine (Option.isSome_iff_exists.mpr ⟨update, step⟩)
      | none =>
        refine absurd ?_ changed
        rw [checkLine, compound, step]
        rfl
  have checked := named.checkLine_eq unsigned
  split at checked
  · rename_i isUnsigned
    cases found : change? tail with
    | none =>
      rw [found] at checked
      exact absurd checked changed
    | some parts =>
      rw [found] at checked
      exact ⟨indent, root, tail, parts, named, isUnsigned, found, checked⟩
  · exact absurd checked changed

theorem length_lt_checkLine (changed : checkLine unsigned line ≠ line) :
    line.toList.length < (checkLine unsigned line).toList.length := by
  obtain ⟨_, _, _, _, named, -, found, checked⟩ := exists_change changed
  rw [checked]
  exact named.length_lt found

/-- Whether a line assigns to an entry of an unsigned variable and, in the course of it, to
another entry. -/
def assignsTwice (unsigned : List String) (line : String) : Bool :=
  let tail := (line.toList.dropWhile isBlankChar).dropWhile isWordChar
  ((update? compoundEnd? line).any fun update => unsigned.contains update.root) &&
    tail.head? == some '[' && markedTwice tail

theorem NamedLine.assignsTwice_eq (named : NamedLine line indent root tail)
    (unsigned : List String) :
    assignsTwice unsigned line =
      (unsigned.contains (String.ofList root) && assignsTwiceFrom tail) := by
  have isTail := (name?_eq_some named.name?_eq).2.symm
  rw [assignsTwice, isTail, named.update?_eq, assignsTwiceFrom]
  cases targetEnd? compoundEnd? tail with
  | none => simp
  | some => simp [updateOf, Bool.and_assoc]

theorem checkLine_ne_of_assignsTwice
    (twice : assignsTwice unsigned line) : checkLine unsigned line ≠ line := by
  have isSome : (update? compoundEnd? line).isSome := by
    cases found : update? compoundEnd? line with
    | some => rfl
    | none => simp [assignsTwice, found] at twice
  obtain ⟨_, _, tail, named⟩ := exists_namedLine isSome
  rw [named.assignsTwice_eq, assignsTwiceFrom, Bool.and_eq_true, Bool.and_eq_true,
    Bool.and_eq_true] at twice
  obtain ⟨isUnsigned, ⟨compound, -⟩, -⟩ := twice
  have isChange : (change? tail).isSome := by
    rw [change?, Option.isSome_or, compound, Bool.true_or]
  rw [ne_eq, named.checkLine_eq_self_iff, isUnsigned, isChange]
  decide

/-- A line whose arithmetic was checked is not changed again, unless it assigns to two entries. -/
theorem checkLine_checkLine_iff :
    checkLine unsigned (checkLine unsigned line) = checkLine unsigned line ↔
      assignsTwice unsigned line = false := by
  by_cases changed : checkLine unsigned line = line
  · rw [changed]
    refine iff_of_true changed ?_
    rw [Bool.eq_false_iff]
    exact fun twice => checkLine_ne_of_assignsTwice twice changed
  · obtain ⟨_, _, _, _, named, _, found, checked⟩ := exists_change changed
    obtain ⟨_, -, isIndex, -⟩ := change?_eq_some found
    rw [checked, (named.checked isIndex).checkLine_eq_self_iff,
      change?_checkedTail named.word found,
      named.assignsTwice_eq]

end ContractForge.Listing
