import ContractForge.Proofs.Text.Search
import ContractForge.Proofs.Text.Lines
import ContractForge.Listing.Line
import ContractForge.Target.Contract
import Mathlib.Data.List.TakeWhile

/-!
# Lines that read like declarations

A line declares a state variable if some text in it is followed by a word for a
visibility, a name and the end of a declaration. Here this is said of the text of a
line as a whole: `declaration?_isSome_iff` describes the lines that are recognised.
-/

namespace ContractForge.Listing

open Text List

variable {type : List Char} {name : String}

/-! ### The end of a declaration -/

def visibilities : List String :=
  ["public", "private", "internal"]

/-- The text is a name of the generated language: it starts like one and is a word. -/
def isName (text : String) : Bool :=
  text.toList.head?.any isNameStart && text.toList.all isWordChar

/-- How a declaration ends behind the name. -/
def valueEnding : Option String → String
  | some value => " = " ++ value ++ ";"
  | none => ";"

/-- How a declaration goes on behind its type. -/
def declarationEnding (visibility : String) (isConstant : Bool) (name : String)
    (value : Option String) : String :=
  " " ++ visibility ++ (if isConstant then " constant" else "") ++ " " ++ name ++ valueEnding value

theorem endsDeclaration_iff :
    endsDeclaration rest ↔
      ∃ value, value ≠ some "" ∧ rest = (valueEnding value).toList := by
  simp only [endsDeclaration, Bool.or_eq_true, beq_iff_eq, Bool.and_eq_true, decide_eq_true_eq]
  constructor
  · rintro (atOnce | ⟨⟨starts, isLast⟩, long⟩)
    · exact ⟨none, by simp, atOnce⟩
    · obtain ⟨tail, rfl⟩ := isPrefixOf_iff_prefix.mp starts
      have isLastOfTail : tail.getLast? = some ';' := by
        cases tail with
        | nil => simp at long
        | cons => simpa [getLast?_append] using isLast
      obtain ⟨value, rfl⟩ := getLast?_eq_some_iff.mp isLastOfTail
      refine ⟨some (String.ofList value), ?_, by simp [valueEnding]⟩
      intro isEmpty
      have noChar : value = [] := by simpa using isEmpty
      simp [noChar] at long
  · rintro ⟨value, isGiven, rfl⟩
    cases value with
    | none => exact .inl rfl
    | some value =>
      have someChar : value.toList ≠ [] := by simpa using isGiven
      have long := length_pos_iff.mpr someChar
      refine .inr ⟨⟨by simp [valueEnding], by simp [valueEnding, getLast?_cons]⟩, ?_⟩
      simp only [valueEnding, String.toList_append, length_append, String.reduceToList, length_cons]
      omega

theorem isName_iff :
    isName name ↔ ∃ first others, name.toList = first :: others ∧
      isNameStart first ∧ ∀ c ∈ name.toList, isWordChar c := by
  simp only [isName, Bool.and_eq_true, all_eq_true]
  constructor
  · rintro ⟨starts, word⟩
    cases shape : name.toList with
    | nil => simp [shape] at starts
    | cons first others => exact ⟨first, others, rfl, by simpa [shape] using starts, shape ▸ word⟩
  · rintro ⟨_, _, shape, starts, word⟩
    exact ⟨by simp [shape, starts], word⟩

/-- What ends a declaration does not go on with the name. -/
theorem exists_cons_valueEnding :
    ∃ next rest, (valueEnding value).toList = next :: rest ∧ isWordChar next = false := by
  cases value with
  | none => exact ⟨';', [], rfl, by decide⟩
  | some => exact ⟨' ', _, by simp only [valueEnding, String.toList_append]; rfl, by decide⟩

theorem declaredName?_eq_some :
    declaredName? chars = some name ↔
      isName name ∧ ∃ value, value ≠ some "" ∧
        chars = ' ' :: (name.toList ++ (valueEnding value).toList) := by
  constructor
  · intro found
    unfold declaredName? at found
    split at found
    · obtain ⟨⟨_, _⟩, read, found⟩ := Option.bind_eq_some_iff.mp found
      obtain ⟨⟨first, _, rfl, starts, rfl⟩, rfl⟩ := name?_eq_some read
      simp only [Option.ite_none_right_eq_some, Option.some.injEq] at found
      obtain ⟨ends, rfl⟩ := found
      obtain ⟨value, isGiven, isRest⟩ := endsDeclaration_iff.mp ends
      have isWord := isWordChar_of_isNameStart starts
      rw [dropWhile_cons_of_pos isWord] at isRest
      refine ⟨isName_iff.mpr ⟨first, _, String.toList_ofList, starts, ?_⟩, value, isGiven, ?_⟩
      · rw [String.toList_ofList]
        intro _ mem
        obtain rfl | later := mem_cons.mp mem
        · exact isWord
        · exact mem_takeWhile_imp later
      · rw [← isRest, String.toList_ofList, cons_append, takeWhile_append_dropWhile]
    · contradiction
  · rintro ⟨named, value, isGiven, rfl⟩
    obtain ⟨_, _, shape, starts, word⟩ := isName_iff.mp named
    obtain ⟨_, _, isNext, stops⟩ := exists_cons_valueEnding
    have ends := endsDeclaration_iff.mpr ⟨value, isGiven, rfl⟩
    have read : name? (name.toList ++ (valueEnding value).toList) =
        some (name.toList, (valueEnding value).toList) := by
      rw [isNext, name?, word?_append (by simp [shape]) word stops, shape]
      simp [starts]
    unfold declaredName?
    simp only [read, Option.bind_eq_bind, Option.bind_some, ends, if_true, String.ofList_toList]

theorem afterVisibility?_eq_some :
    afterVisibility? chars = some rest ↔
      ∃ visibility ∈ visibilities, chars = visibility.toList ++ rest := by
  constructor
  · intro found
    obtain ⟨word, isWord, after⟩ := exists_of_findSome?_eq_some found
    exact ⟨word, isWord, after?_eq_some.mp after⟩
  · rintro ⟨_, isWord, rfl⟩
    fin_cases isWord <;> rfl

/-- The word for constants is no name of a variable that is no constant. -/
theorem not_constant_of_declaredName? (found : declaredName? chars = some name) :
    (after? " constant" chars).bind declaredName? = none := by
  obtain ⟨named, value, _, rfl⟩ := declaredName?_eq_some.mp found
  rw [Option.bind_eq_none_iff]
  intro rest after
  cases again : declaredName? rest with
  | none => rfl
  | some other =>
    obtain ⟨otherNamed, otherValue, -, rfl⟩ := declaredName?_eq_some.mp again
    obtain ⟨-, -, -, -, word⟩ := isName_iff.mp named
    obtain ⟨first, _, isFirst, starts, -⟩ := isName_iff.mp otherNamed
    obtain ⟨_, _, isNext, stops⟩ := exists_cons_valueEnding
    have same : name.toList ++ (valueEnding value).toList =
        "constant".toList ++ ' ' :: (other.toList ++ (valueEnding otherValue).toList) := by
      simpa using after?_eq_some.mp after
    -- Both sides are cut where their first word ends.
    have rests := congrArg (List.dropWhile isWordChar) same
    rw [dropWhile_append_of_pos word, isNext, dropWhile_cons_of_neg (by simp [stops]),
      ← isNext, dropWhile_append_of_pos (all_eq_true.mp rfl),
      dropWhile_cons_of_neg (by decide), isFirst] at rests
    cases value with
    | none => simp [valueEnding] at rests
    | some =>
      have isEqual : first = '=' := by
        simp only [valueEnding] at rests
        simp at rests
        exact rests.1.symm
      rw [isEqual] at starts
      contradiction

theorem declarationEnd?_eq_some :
    declarationEnd? chars = some (name, isConstant) ↔
      isName name ∧ ∃ visibility ∈ visibilities, ∃ value, value ≠ some "" ∧
        chars = (declarationEnding visibility isConstant name value).toList := by
  constructor
  · intro found
    unfold declarationEnd? at found
    split at found
    · obtain ⟨_, visible, read⟩ := Option.bind_eq_some_iff.mp found
      obtain ⟨visibility, isWord, rfl⟩ := afterVisibility?_eq_some.mp visible
      split at read
      · rename_i constant
        obtain ⟨rfl, rfl⟩ := Prod.mk.inj (Option.some.inj read)
        obtain ⟨_, after, declared⟩ := Option.bind_eq_some_iff.mp constant
        obtain ⟨named, value, isGiven, rfl⟩ := declaredName?_eq_some.mp declared
        refine ⟨named, visibility, isWord, value, isGiven, ?_⟩
        rw [after?_eq_some.mp after]
        simp [declarationEnding]
      · obtain ⟨_, declared, read⟩ := Option.bind_eq_some_iff.mp read
        obtain ⟨rfl, rfl⟩ := Prod.mk.inj (Option.some.inj read)
        obtain ⟨named, value, isGiven, rfl⟩ := declaredName?_eq_some.mp declared
        exact ⟨named, visibility, isWord, value, isGiven, by simp [declarationEnding]⟩
    · contradiction
  · rintro ⟨named, visibility, isWord, value, isGiven, rfl⟩
    have declared := declaredName?_eq_some.mpr ⟨named, value, isGiven, rfl⟩
    have visible (rest : List Char) : afterVisibility? (visibility.toList ++ rest) = some rest :=
      afterVisibility?_eq_some.mpr ⟨visibility, isWord, rfl⟩
    cases isConstant with
    | true =>
      have split : (declarationEnding visibility true name value).toList = ' ' ::
          (visibility.toList ++
            (" constant".toList ++ ' ' :: (name.toList ++ (valueEnding value).toList))) := by
        simp [declarationEnding]
      rw [split, declarationEnd?, visible]
      simp only [Option.bind_eq_bind, Option.bind_some, after?_eq_some.mpr rfl, declared]
      rfl
    | false =>
      have split : (declarationEnding visibility false name value).toList = ' ' ::
          (visibility.toList ++ ' ' :: (name.toList ++ (valueEnding value).toList)) := by
        simp [declarationEnding]
      rw [split, declarationEnd?, visible]
      simp only [Option.bind_eq_bind, Option.bind_some, not_constant_of_declaredName? declared,
        declared]
      rfl

/-! ### The type of a declaration -/

/-- The type of a declaration is the shortest beginning behind which one ends. -/
theorem declarationFrom?_eq_some :
    declarationFrom? type chars = some found ↔
      ∃ front rest, chars = front ++ rest ∧
        declarationEnd? rest = some (found.name, found.isConstant) ∧
        found.type = String.ofList (type.reverse ++ front) ∧
        ∀ before after, chars = before ++ after → before.length < front.length →
          declarationEnd? after = none := by
  induction chars generalizing type with
  | nil =>
    constructor
    · intro _
      contradiction
    · rintro ⟨_, _, shape, _, -⟩
      obtain ⟨rfl, rfl⟩ := append_eq_nil_iff.mp shape.symm
      contradiction
  | cons c others ih =>
    rw [declarationFrom?]
    cases here : declarationEnd? (c :: others) with
    | some parts =>
      obtain ⟨_, _⟩ := parts
      simp only [Option.some.injEq]
      constructor
      · rintro rfl
        exact ⟨[], _, rfl, here, by simp, by simp⟩
      · rintro ⟨front, _, shape, ends, isType, shortest⟩
        have noFront : front = [] := by
          rw [← length_eq_zero_iff]
          by_contra positive
          have nothing := shortest [] _ rfl (by simpa using Nat.pos_of_ne_zero positive)
          rw [here] at nothing
          contradiction
        rw [noFront, nil_append] at shape
        rw [← shape, here] at ends
        rw [noFront, append_nil] at isType
        obtain ⟨rfl, rfl⟩ := Prod.mk.inj (Option.some.inj ends)
        rw [← isType]
    | none =>
      rw [ih]
      constructor
      · rintro ⟨front, rest, rfl, ends, isType, shortest⟩
        refine ⟨c :: front, rest, rfl, ends, by simpa using isType, ?_⟩
        intro before after shape shorter
        cases before with
        | nil => rw [← nil_append after, ← shape, here]
        | cons _ more =>
          obtain ⟨-, same⟩ := List.cons.inj shape
          exact shortest more after same (by simpa using shorter)
      · rintro ⟨front, rest, shape, ends, isType, shortest⟩
        cases front with
        | nil =>
          rw [← nil_append rest, ← shape, here] at ends
          contradiction
        | cons _ more =>
          obtain ⟨rfl, rfl⟩ := List.cons.inj shape
          refine ⟨more, rest, rfl, ends, by simpa using isType, ?_⟩
          intro before after same shorter
          exact shortest (c :: before) after (by rw [same]; rfl) (by simpa using shorter)

/-- If a declaration ends behind a text, a beginning of the text is found to be its type. -/
theorem exists_declarationFrom? (type : List Char) (ends : declarationEnd? rest = some parts) :
    ∃ found, declarationFrom? type (front ++ rest) = some found ∧
      found.type.toList <+: type.reverse ++ front := by
  induction front generalizing type with
  | nil =>
    cases rest with
    | nil => contradiction
    | cons =>
      rw [nil_append, declarationFrom?, ends]
      exact ⟨_, rfl, by simp⟩
  | cons c more ih =>
    rw [cons_append, declarationFrom?]
    cases here : declarationEnd? (c :: (more ++ rest)) with
    | some => exact ⟨_, rfl, by simp⟩
    | none =>
      obtain ⟨found, declares, isPrefix⟩ := ih (c :: type)
      exact ⟨found, declares, by simpa using isPrefix⟩

/-! ### Lines -/

/-- A type that no declaration has: it starts like another line. -/
def startsOtherwise (type : String) : Bool :=
  otherStarts.any fun start => startsWith type start

/-- A text reads like a declaration: it goes on like one behind something that can be a type. -/
def LooksDeclared (text : String) : Prop :=
  ∃ (blanks : List Char) (type visibility name : String) (isConstant : Bool)
      (value : Option String),
    (∀ c ∈ blanks, isBlankChar c = true) ∧
    text.toList = blanks ++ (type ++ declarationEnding visibility isConstant name value).toList ∧
    type.toList.head?.any (fun c => !isSpace c) = true ∧ startsOtherwise type = false ∧
    visibility ∈ visibilities ∧ isName name = true ∧ value ≠ some ""

theorem isBlankChar_eq_false (visible : isSpace c = false) : isBlankChar c = false := by
  cases blank : isBlankChar c with
  | false => rfl
  | true => rw [isSpace_of_isBlankChar blank] at visible; contradiction

theorem startsWith_of_prefix
    (isPrefix : shorter.toList <+: longer.toList) (starts : startsWith shorter start) :
    startsWith longer start := by
  unfold startsWith at starts ⊢
  have starts := isPrefixOf_iff_prefix.mp starts
  exact isPrefixOf_iff_prefix.mpr (starts.trans isPrefix)

theorem startsOtherwise_of_prefix
    (isPrefix : shorter.toList <+: longer.toList) (other : startsOtherwise longer = false) :
    startsOtherwise shorter = false := by
  rw [Bool.eq_false_iff] at other ⊢
  intro starts
  obtain ⟨start, isStart, starts⟩ := any_eq_true.mp starts
  exact other (any_eq_true.mpr ⟨start, isStart, startsWith_of_prefix isPrefix starts⟩)

section

variable {line text : String} {indent : List Char} (isIndented : indent ≠ [])
  (areBlanks : ∀ c ∈ indent, isBlankChar c) (shape : line.toList = indent ++ text.toList)
include isIndented areBlanks shape

/-- What is read off an indented line. -/
theorem declaration?_of_indent :
    declaration? line = match text.toList.dropWhile isBlankChar with
      | [] => none
      | first :: chars => if isSpace first then none else
          (declarationFrom? [first] chars).filter fun found => !startsOtherwise found.type := by
  have head : line.toList.head?.any isBlankChar := by
    cases indent with
    | nil => contradiction
    | cons blank => simp [shape, areBlanks blank mem_cons_self]
  have behind : line.toList.dropWhile isBlankChar = text.toList.dropWhile isBlankChar := by
    rw [shape, dropWhile_append_of_pos areBlanks]
  unfold declaration?
  simp only [head, behind]
  cases text.toList.dropWhile isBlankChar with
  | nil => rfl
  | cons first chars =>
    simp only [Bool.not_true]
    cases isSpace first with
    | true => rfl
    | false =>
      cases declarationFrom? [first] chars with
      | none => rfl
      | some found =>
        rw [Option.filter_some]
        show (if startsOtherwise found.type = true then none else some found) = _
        cases startsOtherwise found.type <;> rfl

/-- An indented line is recognised as a declaration exactly if its text reads like one. -/
theorem declaration?_isSome_iff : (declaration? line).isSome ↔ LooksDeclared text := by
  rw [declaration?_of_indent isIndented areBlanks shape]
  constructor
  · intro isDeclared
    split at isDeclared
    · contradiction
    · rename_i behind
      split at isDeclared
      · contradiction
      · rename_i visible
        obtain ⟨found, declares⟩ := Option.isSome_iff_exists.mp isDeclared
        obtain ⟨declares, other⟩ := Option.filter_eq_some_iff.mp declares
        obtain ⟨_, _, rfl, ends, isType, -⟩ := declarationFrom?_eq_some.mp declares
        obtain ⟨named, visibility, isWord, value, isGiven, rfl⟩ := declarationEnd?_eq_some.mp ends
        refine ⟨text.toList.takeWhile isBlankChar, found.type, visibility, found.name,
          found.isConstant, value, fun c => mem_takeWhile_imp, ?_, ?_, ?_, isWord, named,
          isGiven⟩
        · rw [String.toList_append, isType, String.toList_ofList]
          conv => lhs; rw [← takeWhile_append_dropWhile (p := isBlankChar) (l := text.toList),
            behind]
          simp
        · simpa [isType] using visible
        · simpa using other
  · rintro ⟨_, type, visibility, name, isConstant, value, inner, isText, visible, other,
      isWord, named, isGiven⟩
    cases isType : type.toList with
    | nil => simp [isType] at visible
    | cons first chars =>
      have ends : declarationEnd? (declarationEnding visibility isConstant name value).toList =
          some (name, isConstant) :=
        declarationEnd?_eq_some.mpr ⟨named, visibility, isWord, value, isGiven, rfl⟩
      obtain ⟨found, declares, _⟩ := exists_declarationFrom? [first] ends
      have isFirst : isSpace first = false := by simpa [isType] using visible
      have behind : text.toList.dropWhile isBlankChar = first ::
          (chars ++ (declarationEnding visibility isConstant name value).toList) := by
        rw [isText, String.toList_append, isType, dropWhile_append_of_pos inner,
          cons_append, dropWhile_cons_of_neg (by simp [isBlankChar_eq_false isFirst])]
      have starts : startsOtherwise found.type = false :=
        startsOtherwise_of_prefix (by rwa [isType]) other
      simp only [behind, isFirst, declares, Option.filter_some, starts]
      rfl

end

end ContractForge.Listing
