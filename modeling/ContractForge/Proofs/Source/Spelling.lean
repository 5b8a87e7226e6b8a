import ContractForge.Proofs.Source.Origin
import ContractForge.Proofs.Source.Pieces
import ContractForge.Proofs.Text.Search

/-!
# How words are written

The text of a word and what follows it determine where it ends: a name takes all
characters of names, a literal goes up to its closing quote. `Written` lists the forms
that the words of each class have, and `isWrittenIn_of_read` shows that these are all.
-/

namespace ContractForge

open Text List

variable {quote c mark : Char} {tail text rest run whole : List Char} {piece : Piece}
  {value : String} {kind : TokenKind} {lexeme : Lexeme} {steps count : Nat}

/-! ### Forms of words -/

inductive IsNameText (rest : List Char) : List Char → Prop where
  | plain {run : List Char} (areWords : ∀ c ∈ run, isWordChar c = true)
      (ends : endsWord rest = true) : IsNameText rest run
  | marked {run : List Char} {mark : Char} (areWords : ∀ c ∈ run, isWordChar c = true)
      (isMark : mark = '?' ∨ mark = '!') : IsNameText rest (run ++ [mark])

/-- The text ends with the quote that closes it. A backslash takes the next character with it. -/
inductive Closes (quote : Char) : List Char → Prop where
  | close : Closes quote [quote]
  | escaped {c : Char} {rest : List Char} (closes : Closes quote rest) :
      Closes quote ('\\' :: c :: rest)
  | char {c : Char} {rest : List Char} (notQuote : c ≠ quote) (notEscape : c ≠ '\\')
      (closes : Closes quote rest) : Closes quote (c :: rest)

def isNumeralChar (c : Char) : Bool :=
  isWordChar c || c == '.' || c == '+' || c == '-'

/-- Characters of numerals that do not end in a point. -/
def Numeric (text : List Char) : Prop :=
  (∀ c ∈ text, isNumeralChar c = true) ∧ text.getLast? ≠ some '.'

/-- The word of the given class and value is written as the text in front of the rest. -/
inductive Written (rest : List Char) : List Char → TokenKind → String → Prop where
  | name {text : List Char} {kind : TokenKind} (nonempty : text.head?.any isWordChar = true)
      (isName : IsNameText rest text)
      (known : kind = .identifier ∨ kind = .constant ∨ ∃ word, kind = .keyword word) :
      Written rest text kind (String.ofList text)
  | label {name : List Char} (nonempty : name ≠ []) (areWords : ∀ c ∈ name, isWordChar c = true) :
      Written rest (name ++ [':']) .label (String.ofList name)
  | sigil {sign : Char} {name : List Char} {kind : TokenKind}
      (isSign : kind = .ivar ∧ sign = '@' ∨ kind = .symbol ∧ sign = ':')
      (nonempty : name ≠ []) (isName : IsNameText rest name) :
      Written rest (sign :: name) kind (String.ofList name)
  | colon (isEnd : rest = []) : Written rest [':'] .symbol ""
  | numeral {text : List Char} {kind : TokenKind} {value : String}
      (isDigit : text.head?.any Text.isDigit = true) (numeric : Numeric text)
      (known : kind = .integer ∨ kind = .float) :
      Written rest text kind value
  | quoted {quote : Char} {body : List Char} {kind : TokenKind} {value : String}
      (isQuote : quote = '"' ∨ quote = '\'') (closes : Closes quote body)
      (known : kind = .string ∨ kind = .interpolated) : Written rest (quote :: body) kind value
  | quotedSymbol {quote : Char} {body : List Char} {value : String}
      (isQuote : quote = '"' ∨ quote = '\'') (closes : Closes quote body)
      (isEmpty : value = "" → body = [quote]) : Written rest (':' :: quote :: body) .symbol value
  | mark (sign : Mark) : Written rest sign.spelling.toList (.mark sign) sign.spelling

/-- The word is read beyond the end of its text: a colon alone, or an exponent without digits. -/
def Lexeme.IsOpen (text : List Char) (lexeme : Lexeme) : Prop :=
  lexeme.kind = .symbol ∧ text = [':'] ∨
    lexeme.kind = .float ∧ lexeme.value.toList.getLast? ∈ [some 'e', some 'E']

/-- The text starts with the word, whose steps lead to its end or beyond the text. -/
def IsWrittenIn (whole : List Char) (lexeme : Lexeme) : Prop :=
  ∃ text rest, whole = text ++ rest ∧
    (lexeme.steps = text.length ∧ ¬lexeme.IsOpen text ∨
      rest = [] ∧ text.length < lexeme.steps ∧ lexeme.IsOpen text) ∧
    Written rest text lexeme.kind lexeme.value

/-! ### Names -/

/-- A name that is a word goes up to the end of the word. -/
theorem IsNameText.ends (isName : IsNameText rest text)
    (areWords : ∀ c ∈ text, isWordChar c) : endsWord rest := by
  cases isName with
  | plain _ ends => exact ends
  | marked _ isMark =>
    have isWord := areWords _ (mem_append_right _ (mem_singleton.mpr rfl))
    obtain rfl | rfl := isMark <;> contradiction

theorem not_isSpace_of_isNameText (isName : IsNameText rest text) :
    ∀ c ∈ text, isSpace c = false := by
  cases isName with
  | plain areWords => exact fun c mem => isSpace_of_isWordChar (areWords c mem)
  | marked areWords isMark =>
    intro c mem
    obtain isWord | isLast := mem_append.mp mem
    · exact isSpace_of_isWordChar (areWords c isWord)
    · obtain rfl := mem_singleton.mp isLast
      obtain rfl | rfl := isMark <;> rfl

namespace Lexeme

theorem isNameText_nameChars (text : List Char) :
    ∃ rest, text = nameChars text ++ rest ∧ IsNameText rest (nameChars text) := by
  have areWords : ∀ c ∈ text.takeWhile isWordChar, isWordChar c :=
    fun c mem => all_eq_true.mp all_takeWhile c mem
  have isText : text = text.takeWhile isWordChar ++ text.dropWhile isWordChar :=
    takeWhile_append_dropWhile.symm
  unfold nameChars
  split
  · rename_i mark tail isDrop
    rw [isDrop] at isText
    split
    · rename_i isMark
      refine ⟨tail, by simpa using isText, .marked areWords ?_⟩
      have isMark := (Bool.and_eq_true_iff.mp isMark).1
      simpa using isMark
    · refine ⟨mark :: tail, isText, .plain areWords ?_⟩
      have stops := head?_dropWhile_not isWordChar text
      rw [isDrop] at stops
      simpa [endsWord] using stops
  · rename_i isDrop
    rw [isDrop] at isText
    exact ⟨[], isText, .plain areWords rfl⟩

/-- A name without a mark is made of characters of names. -/
theorem areWords_of_isNameText (isName : IsNameText rest text)
    (isPlain : (text.getLast? != some '?' && text.getLast? != some '!')) :
    ∀ c ∈ text, isWordChar c := by
  obtain ⟨areWords, -⟩ | ⟨-, isMark⟩ := isName
  · exact areWords
  · obtain rfl | rfl := isMark <;> simp at isPlain

theorem isWrittenIn_word (isStart : isWordChar first) :
    IsWrittenIn (first :: rest) (word afterDot (first :: rest)) := by
  obtain ⟨tail, isText, isName⟩ := isNameText_nameChars (first :: rest)
  have nonempty : (nameChars (first :: rest)).head?.any isWordChar := by
    have nonempty : nameChars (first :: rest) ≠ [] := nameChars_ne_nil isStart
    obtain ⟨_, _, isNames⟩ := exists_cons_of_ne_nil nonempty
    rw [isNames] at isText ⊢
    obtain ⟨rfl, -⟩ := List.cons.inj isText
    exact isStart
  have isDrop : (first :: rest).drop (nameChars (first :: rest)).length = tail :=
    (congrArg (List.drop _) isText).trans drop_left
  unfold word
  extract_lets name value isPlain labelled nameKind
  have known : nameKind = .identifier ∨ nameKind = .constant := by
    unfold nameKind
    split
    · exact .inr rfl
    · exact .inl rfl
  have plain {kind : TokenKind}
      (known : kind = .identifier ∨ kind = .constant ∨ ∃ word, kind = .keyword word) :
      IsWrittenIn (first :: rest) ⟨kind, value, name.length⟩ := by
    refine ⟨name, tail, isText, .inl ⟨rfl, ?_⟩, .name nonempty isName known⟩
    obtain rfl | rfl | ⟨word, rfl⟩ := known <;> simp [IsOpen]
  split
  · rename_i isLabelled
    unfold labelled at isLabelled
    split at isLabelled
    · rename_i after isAfter
      have isTail : tail = ':' :: after := isDrop.symm.trans isAfter
      have areWords := areWords_of_isNameText isName (Bool.and_eq_true_iff.mp isLabelled).1
      refine ⟨name ++ [':'], after, ?_, .inl (by simp [IsOpen]),
        .label (nameChars_ne_nil isStart) areWords⟩
      rw [isText, isTail, append_assoc]
      rfl
    · contradiction
  · split
    · rename_i keyword _
      refine plain ?_
      cases afterDot with
      | false => exact .inr (.inr ⟨keyword, rfl⟩)
      | true => exact known.imp_right .inl
    · exact plain (known.imp_right .inl)

/-! ### Literals -/

theorem unescape_ne_nil (quote : Char) : unescape quote escaped ≠ [] := by
  unfold unescape
  split
  · split <;> simp
  · split <;> simp

theorem closes_quotedText (isQuote : quote = '"' ∨ quote = '\'')
    (reads : quotedText? quote text = some found) :
    ∃ body rest, text = body ++ rest ∧ Closes quote body ∧ found.steps = body.length ∧
      (found.value = [] → body = [quote]) := by
  fun_induction quotedText? quote text generalizing found with
  | case1 => contradiction
  | case2 escaped _ ih =>
    obtain ⟨_, isInner, rfl⟩ := Option.map_eq_some_iff.mp reads
    obtain ⟨body, after, rfl, closes, steps, -⟩ := ih isInner
    refine ⟨'\\' :: escaped :: body, after, rfl, .escaped closes, by simp [steps],
      fun isEmpty => ?_⟩
    simp [unescape_ne_nil] at isEmpty
  | case3 c rest _ isClose =>
    cases reads
    obtain rfl := beq_iff_eq.mp isClose
    exact ⟨[c], rest, rfl, .close, rfl, fun _ => rfl⟩
  | case4 c _ notEscape notClose ih =>
    obtain ⟨_, isInner, rfl⟩ := Option.map_eq_some_iff.mp reads
    obtain ⟨body, after, rfl, closes, steps, -⟩ := ih isInner
    refine ⟨c :: body, after, rfl, .char (by simpa using notClose) ?_ closes,
      by simp [steps], by simp⟩
    rintro rfl
    -- A backslash is read together with the character that follows it, and there is one.
    cases closes with
    | close | escaped _ | char _ _ _ => exact notEscape _ _ rfl rfl

theorem quotedLiteral_eq_ok (isQuote : quote = '"' ∨ quote = '\'')
    (reads : quotedLiteral quote tail offset = .ok (found, steps)) :
    ∃ body rest, tail = body ++ rest ∧ Closes quote body ∧ steps = 1 + body.length ∧
      (found.value = [] → body = [quote]) := by
  unfold quotedLiteral at reads
  split at reads
  · rename_i isText
    obtain ⟨body, rest, isTail, closes, isLength, isEmpty⟩ := closes_quotedText isQuote isText
    cases reads
    exact ⟨body, rest, isTail, closes, by rw [isLength], isEmpty⟩
  · contradiction

/-! ### Words with a sign -/

theorem isWrittenIn_instanceVariable (reads : instanceVariable tail = .ok lexeme) :
    IsWrittenIn ('@' :: tail) lexeme := by
  dsimp only [instanceVariable] at reads
  split at reads
  · contradiction
  split at reads
  · contradiction
  · rename_i notEmpty
    cases reads
    obtain ⟨rest, isTail, isName⟩ := isNameText_nameChars tail
    refine ⟨'@' :: nameChars tail, rest, congrArg ('@' :: ·) isTail,
      .inl (by simp [IsOpen, Nat.add_comm]), .sigil (.inl ⟨rfl, rfl⟩)
        (by simpa using notEmpty) isName⟩

theorem isWrittenIn_symbol? (reads : symbol? tail = .ok (some lexeme)) :
    IsWrittenIn (':' :: tail) lexeme := by
  unfold symbol? at reads
  split at reads
  · cases reads
    exact ⟨[':'], [], rfl, .inr ⟨rfl, by decide, .inl ⟨rfl, rfl⟩⟩, .colon rfl⟩
  · rename_i first rest
    split at reads
    · rename_i isStart
      cases reads
      have isStart : isWordChar first := by
        simp only [Bool.or_eq_true] at isStart
        obtain isStart | isStart := isStart <;> simp [isWordChar, isAlphanumeric, isStart]
      obtain ⟨after, isTail, isName⟩ := isNameText_nameChars (first :: rest)
      exact ⟨':' :: nameChars (first :: rest), after, congrArg (':' :: ·) isTail,
        .inl (by simp [IsOpen, Nat.add_comm, nameChars_ne_nil isStart]),
        .sigil (.inr ⟨rfl, rfl⟩) (nameChars_ne_nil isStart) isName⟩
    · split at reads
      · rename_i isQuote
        have isQuote : first = '"' ∨ first = '\'' := by simpa using isQuote
        cases literal : quotedLiteral first rest 1 with
        | error =>
          rw [literal] at reads
          contradiction
        | ok =>
          rw [literal] at reads
          cases reads
          obtain ⟨body, after, rfl, closes, isLength, isEmpty⟩ :=
            quotedLiteral_eq_ok isQuote literal
          exact ⟨':' :: first :: body, after, rfl,
            .inl ⟨by simp [isLength]; omega, by simp [IsOpen]⟩,
            .quotedSymbol isQuote closes (by simpa using isEmpty)⟩
      · cases reads

/-! ### Numerals -/

theorem numeric_append {first second : List Char} (ofFirst : Numeric first)
    (ofSecond : Numeric second) : Numeric (first ++ second) := by
  refine ⟨forall_mem_append.mpr ⟨ofFirst.1, ofSecond.1⟩, ?_⟩
  cases second with
  | nil => simpa using ofFirst.2
  | cons => simpa [getLast?_append] using ofSecond.2

/-- Characters of names are characters of numerals. -/
theorem numeric_of_areWords (areWords : ∀ c ∈ text, isWordChar c) : Numeric text := by
  refine ⟨fun c mem => by simp [isNumeralChar, areWords c mem], fun isLast => ?_⟩
  exact absurd (areWords '.' (mem_of_getLast? isLast)) (by decide)

theorem isWordChar_of_isDigit (isDigit : Text.isDigit c) : isWordChar c := by
  simp [isWordChar, isAlphanumeric, isDigit]

theorem numeric_of_areDigits (areDigits : ∀ c ∈ text, Text.isDigit c) : Numeric text :=
  numeric_of_areWords fun c mem => isWordChar_of_isDigit (areDigits c mem)

theorem not_mark_of_isDigit (isDigit : Text.isDigit c) : c ∉ ['e', 'E'] := by
  intro isMark
  fin_cases isMark <;> contradiction

theorem numeric_of_isDigitRun (isRun : IsDigitRun run) : Numeric run := by
  obtain ⟨_, _, rfl, isDigit, areDigits⟩ := isRun
  refine numeric_of_areWords (forall_mem_cons.mpr ⟨isWordChar_of_isDigit isDigit, ?_⟩)
  intro c mem
  obtain isDigit | rfl := areDigits c mem
  · exact isWordChar_of_isDigit isDigit
  · rfl

theorem numeric_cons (isMark : c ∈ ['e', 'E', '+', '-']) (numeric : Numeric text) :
    Numeric (c :: text) := by
  have single : Numeric [c] := by
    fin_cases isMark <;> exact ⟨forall_mem_singleton.mpr rfl, by simp⟩
  exact numeric_append single numeric

/-- An exponent ends with a sign or a digit, unless it is a mark that ends the text. -/
theorem exponent_written (tail : List Char) : ∃ exponent final, tail = exponent ++ final ∧
    Numeric exponent ∧ ((exponent? tail).getD ([], 0)).1 = exponent ∧
    (((exponent? tail).getD ([], 0)).2 = exponent.length ∧
        (∀ c ∈ exponent.getLast?, c ∉ ['e', 'E']) ∨
      final = [] ∧ exponent.length < ((exponent? tail).getD ([], 0)).2 ∧
        ∃ mark ∈ ['e', 'E'], exponent = [mark]) := by
  cases found : exponent? tail with
  | none => exact ⟨[], tail, rfl, ⟨by simp, by simp⟩, rfl, .inl (by simp)⟩
  | some split =>
    obtain ⟨_, _⟩ := split
    obtain ⟨mark, _, rfl, isMark, ⟨rfl, rfl, rfl⟩ | ⟨rfl, isExponent⟩⟩ := exponent?_eq_some found
    all_goals have marked {text : List Char} : Numeric text → Numeric (mark :: text) :=
      numeric_cons (mem_append_left ['+', '-'] isMark)
    · exact ⟨[mark], [], rfl, marked ⟨by simp, by simp⟩, rfl,
        .inr ⟨rfl, Nat.lt_succ_self 1, mark, isMark, rfl⟩⟩
    · obtain ⟨_, more, rfl, isSign, rfl⟩ | ⟨_, ⟨nonempty, areDigits⟩, rfl, final, rfl⟩ :=
        isExponent
      · have areDigits : ∀ c ∈ more.takeWhile Text.isDigit, Text.isDigit c :=
          fun c mem => all_eq_true.mp all_takeWhile c mem
        refine ⟨_, more.dropWhile Text.isDigit, by simp, marked (numeric_cons
          (mem_append_right ['e', 'E'] isSign) (numeric_of_areDigits areDigits)), rfl,
            .inl ⟨rfl, ?_⟩⟩
        intro c isLast
        rw [getLast?_cons_cons] at isLast
        obtain rfl | mem := mem_cons.mp (mem_of_getLast? isLast)
        · fin_cases isSign <;> decide
        · exact not_mark_of_isDigit (areDigits c mem)
      · refine ⟨_, final, rfl, marked (numeric_of_areDigits areDigits), rfl, .inl ⟨rfl, ?_⟩⟩
        obtain ⟨_, _, rfl⟩ := exists_cons_of_ne_nil nonempty
        intro c isLast
        exact not_mark_of_isDigit (areDigits c (mem_of_getLast? isLast))

theorem isWrittenIn_decimalNumeral (isDigit : Text.isDigit first) :
    IsWrittenIn (first :: rest) (decimalNumeral (first :: rest)) := by
  obtain ⟨whole, fraction, tail, _, isText, isWhole, isFraction, isValue, isSteps, isFloat⟩ :=
    @decimalNumeral_parts first rest isDigit
  obtain ⟨exponent, final, rfl, isExponent, isOwn, fits⟩ := exponent_written tail
  rw [isOwn] at isValue isFloat
  have known : (decimalNumeral (first :: rest)).kind = .integer ∨
      (decimalNumeral (first :: rest)).kind = .float := by
    simp only [decimalNumeral]
    split
    · exact .inl rfl
    · exact .inr rfl
  have numeric : Numeric fraction := by
    obtain ⟨rfl, -⟩ | ⟨_, rfl, isRun, -⟩ := isFraction
    · exact ⟨by simp, by simp⟩
    · have numeric := numeric_of_isDigitRun isRun
      obtain ⟨_, _, rfl, -⟩ := isRun
      exact ⟨forall_mem_cons.mpr ⟨rfl, numeric.1⟩, by simpa using numeric.2⟩
  refine ⟨whole ++ fraction ++ exponent, final, by simp [isText], ?_, .numeral ?_
    (numeric_append (numeric_append (numeric_of_isDigitRun isWhole) numeric) isExponent) known⟩
  · obtain ⟨isLength, ends⟩ | ⟨rfl, beyond, _, isMark, rfl⟩ := fits
    · refine .inl ⟨by rw [isSteps, isLength, length_append, length_append], ?_⟩
      rintro (⟨isSymbol, -⟩ | ⟨-, isLast⟩)
      · simp [isSymbol] at known
      obtain ⟨c, isMark, isLast⟩ : ∃ c ∈ ['e', 'E'],
          (decimalNumeral (first :: rest)).value.toList.getLast? = some c := by simpa using isLast
      rw [isValue, ← append_assoc, getLast?_append, Option.or_eq_some_iff] at isLast
      obtain isLast | ⟨-, isLast⟩ := isLast
      · exact ends c isLast isMark
      obtain mem | mem := mem_append.mp (mem_of_getLast? isLast)
      · exact not_mark_of_isDigit (isWhole.areDigits.2 c mem) isMark
      obtain ⟨-, rfl⟩ | ⟨_, -, isRun, rfl⟩ := isFraction
      · contradiction
      obtain rfl | mem := mem_cons.mp mem
      · contradiction
      · exact not_mark_of_isDigit (isRun.areDigits.2 c mem) isMark
    · refine .inr ⟨rfl, ?_, .inr ⟨isFloat (by simp), by simpa [isValue] using isMark⟩⟩
      rw [isSteps, length_append, length_append]
      exact Nat.add_lt_add_left beyond _
  · obtain ⟨_, _, rfl, isDigit, -⟩ := isWhole
    exact isDigit

theorem isWordChar_of_isDigitIn (isDigit : isDigitIn base c) : isWordChar c := by
  have isLetter {first last : Char} (lower : 'a' ≤ first ∧ last ≤ 'z' ∨ 'A' ≤ first ∧ last ≤ 'Z')
      (between : first ≤ c ∧ c ≤ last) : isWordChar c := by
    have isAlpha : c.isAlpha := by
      refine Bool.or_eq_true_iff.mpr ?_
      obtain ⟨above, below⟩ | ⟨above, below⟩ := lower
      · exact .inr (Bool.and_eq_true_iff.mpr ⟨decide_eq_true (UInt32.le_trans above between.1),
          decide_eq_true (UInt32.le_trans between.2 below)⟩)
      · exact .inl (decide_eq_true
          ⟨UInt32.le_trans above between.1, UInt32.le_trans between.2 below⟩)
    simp [isWordChar, isAlphanumeric, Text.isLetter, isAlpha]
  unfold isDigitIn at isDigit
  split at isDigit
  · simp only [Bool.or_eq_true, Bool.and_eq_true, decide_eq_true_eq] at isDigit
    obtain (isDigit | between) | between := isDigit
    · exact isWordChar_of_isDigit isDigit
    · exact isLetter (.inl (by decide)) between
    · exact isLetter (.inr (by decide)) between
  · obtain rfl | rfl : c = '0' ∨ c = '1' := by simpa using isDigit
    all_goals rfl

theorem isWrittenIn_basedNumeral (isMark : isWordChar mark)
    (reads : basedNumeral limit base digits = .ok lexeme) :
    IsWrittenIn ('0' :: mark :: digits) lexeme := by
  dsimp only [basedNumeral] at reads
  split at reads
  · contradiction
  split at reads
  · contradiction
  · cases reads
    refine ⟨'0' :: mark :: digits.takeWhile fun c => isDigitIn base c || c == '_',
      digits.dropWhile fun c => isDigitIn base c || c == '_', ?_, .inl ⟨?_, by simp [IsOpen]⟩,
      .numeral rfl (numeric_of_areWords ?_) (.inl rfl)⟩
    · rw [cons_append, cons_append, takeWhile_append_dropWhile]
    · simp only [length_cons]
      omega
    · refine forall_mem_cons.mpr ⟨rfl, forall_mem_cons.mpr ⟨isMark, ?_⟩⟩
      intro c mem
      have isDigit := all_eq_true.mp all_takeWhile c mem
      obtain isDigit | rfl : isDigitIn base c ∨ c = '_' := by simpa using isDigit
      · exact isWordChar_of_isDigitIn isDigit
      · rfl

theorem isWrittenIn_numeral (isDigit : Text.isDigit first)
    (reads : numeral limit (first :: rest) = .ok lexeme) : IsWrittenIn (first :: rest) lexeme := by
  unfold numeral at reads
  split at reads
  case h_5 =>
    cases reads
    exact isWrittenIn_decimalNumeral isDigit
  all_goals
    rename_i isText
    rw [isText]
    exact isWrittenIn_basedNumeral rfl reads

/-! ### Marks -/

theorem isWrittenIn_mark (found : Mark.ofChars? (text.take count) = some sign)
    (isLength : sign.spelling.length = count) :
    IsWrittenIn text ⟨.mark sign, sign.spelling, count⟩ := by
  have isSpelled := find?_some found
  have spelled := beq_iff_eq.mp isSpelled
  refine ⟨sign.spelling.toList, text.drop count, ?_, .inl ⟨?_, by simp [IsOpen]⟩, .mark sign⟩
  · rw [spelled, take_append_drop]
  · rw [String.length_toList, isLength]

theorem isWrittenIn_markOrError (reads : markOrError text = .ok lexeme) :
    IsWrittenIn text lexeme := by
  dsimp only [markOrError] at reads
  split at reads
  · rename_i found
    cases reads
    rw [Option.orElse_eq_orElse, Option.orElse_eq_or, Option.or_eq_some_iff] at found
    obtain long | ⟨-, pair⟩ := found
    · obtain ⟨found, isLength⟩ := Option.filter_eq_some_iff.mp long
      have isLength := beq_iff_eq.mp isLength
      exact isLength ▸ isWrittenIn_mark found isLength
    · obtain ⟨found, isLength⟩ := Option.filter_eq_some_iff.mp pair
      have isLength := beq_iff_eq.mp isLength
      exact isLength ▸ isWrittenIn_mark found isLength
  · split at reads
    · contradiction
    · split at reads
      · rename_i sign found
        cases reads
        have isSpelled := find?_some found
        have spelled : sign.spelling.toList = text.take 1 := beq_iff_eq.mp isSpelled
        have isLength : sign.spelling.length = 1 := by
          have atMost := congrArg List.length spelled
          have nonempty : sign.spelling.length ≠ 0 := by cases sign <;> decide
          rw [String.length_toList, length_take] at atMost
          omega
        exact isWrittenIn_mark found isLength
      · contradiction

/-- Every word is written in one of the forms. -/
theorem isWrittenIn_of_read {symbolAllowed : Bool}
    (reads : read limit symbolAllowed afterDot first rest = .ok lexeme) :
    IsWrittenIn (first :: rest) lexeme := by
  dsimp only [read] at reads
  split at reads
  · rename_i isQuote
    have isQuote : first = '"' ∨ first = '\'' := by simpa using isQuote
    cases literal : quotedLiteral first rest 0 with
    | error =>
      rw [literal] at reads
      contradiction
    | ok =>
      rw [literal] at reads
      cases reads
      obtain ⟨body, after, rfl, closes, isLength, -⟩ := quotedLiteral_eq_ok isQuote literal
      split
      · exact ⟨first :: body, after, rfl, .inl (by simp [isLength, IsOpen, Nat.add_comm]),
          .quoted isQuote closes (.inr rfl)⟩
      · exact ⟨first :: body, after, rfl, .inl (by simp [isLength, IsOpen, Nat.add_comm]),
          .quoted isQuote closes (.inl rfl)⟩
  split at reads
  · rename_i isDigit
    exact isWrittenIn_numeral isDigit reads
  split at reads
  · rename_i isField
    obtain rfl := beq_iff_eq.mp isField
    exact isWrittenIn_instanceVariable reads
  split at reads
  · contradiction
  have others (reads : (if isLetter first || first == '_' then
      .ok (word afterDot (first :: rest)) else markOrError (first :: rest)) = .ok lexeme) :
      IsWrittenIn (first :: rest) lexeme := by
    split at reads
    · rename_i isStart
      cases reads
      refine isWrittenIn_word ?_
      simp only [Bool.or_eq_true] at isStart
      obtain isStart | isStart := isStart <;> simp [isWordChar, isAlphanumeric, isStart]
    · exact isWrittenIn_markOrError reads
  split at reads
  · rename_i isColon
    obtain rfl := beq_iff_eq.mp (Bool.and_eq_true_iff.mp isColon).1
    cases symbol : symbol? rest with
    | error =>
      rw [symbol] at reads
      contradiction
    | ok found =>
      rw [symbol] at reads
      cases found with
      | none => exact others reads
      | some =>
        cases reads
        exact isWrittenIn_symbol? symbol
  · exact others reads

end Lexeme

/-! ### Forms of pieces -/

section

variable (written : Written rest text kind value)
include written

theorem Written.ne_nil : text ≠ [] := by
  cases written with
  | name _ _ _ | numeral _ _ _ =>
    rintro rfl
    contradiction
  | mark sign => cases sign <;> decide
  | _ => simp

theorem Written.kind_ne : kind ≠ .newline ∧ kind ≠ .endOfInput := by
  cases written with
  | name _ _ known => obtain rfl | rfl | ⟨word, rfl⟩ := known <;> simp
  | sigil isSign => obtain ⟨rfl, -⟩ | ⟨rfl, -⟩ := isSign <;> simp
  | numeral _ _ known | quoted _ _ known => obtain rfl | rfl := known <;> simp
  | _ => simp

/-- Names and keywords are written as they are. -/
theorem Written.isNameText
    (isName : kind = .identifier ∨ kind = .constant ∨ ∃ word, kind = .keyword word) :
    text.head?.any isWordChar ∧ IsNameText rest text ∧ value = String.ofList text := by
  cases written with
  | name nonempty isName => exact ⟨nonempty, isName, rfl⟩
  | sigil isSign => obtain ⟨rfl, -⟩ | ⟨rfl, -⟩ := isSign <;> simp at isName
  | numeral _ _ known | quoted _ _ known => obtain rfl | rfl := known <;> simp at isName
  | _ => simp at isName

theorem Written.isLabel (isLabel : kind = .label) :
    ∃ name, text = name ++ [':'] ∧ ∀ c ∈ name, isWordChar c := by
  cases written with
  | label _ areWords => exact ⟨_, rfl, areWords⟩
  | sigil known | name _ _ known | numeral _ _ known | quoted _ _ known => simp [isLabel] at known
  | _ => contradiction

end

namespace Piece

/-- The piece is a comment over several lines, or all that stands behind the end of the program. -/
def isSkipped (piece : Piece) : Bool :=
  match piece.item with
  | .stop => true
  | .comment _ => piece.text.head? != some '#'
  | _ => false

inductive Formed (piece : Piece) : Prop where
  | word {token : Token} (isToken : piece.token? = some token)
      (written : Written piece.rest piece.text token.kind token.value)
  | blank (isText : piece.text ∈ [[' '], ['\t'], ['\r'], ['\\', '\n']])
      (noToken : piece.token? = none)
  | comment {content : List Char} (isText : piece.text = '#' :: content)
      (isContent : content = (content ++ piece.rest).takeWhile (· != '\n'))
      (noToken : piece.token? = none)
  | newline (isText : piece.text = ['\n'])
      (isToken : ∀ token ∈ piece.token?, token.kind = .newline)
  | skipped (isSkipped : piece.isSkipped = true) (noToken : piece.token? = none)

/-- Every token but a line end is written as the text of its piece. -/
theorem Formed.written (formed : piece.Formed) (isToken : piece.token? = some token)
    (counts : token.kind ≠ .newline) : Written piece.rest piece.text token.kind token.value := by
  cases formed with
  | word isWord written =>
    obtain rfl := Option.some.inj (isWord.symm.trans isToken)
    exact written
  | newline _ isNewline => exact absurd (isNewline token isToken) counts
  | blank _ noToken | comment _ _ noToken | skipped _ noToken => simp [noToken] at isToken

theorem Formed.kind_ne (formed : piece.Formed)
    (isToken : piece.token? = some token) : token.kind ≠ .endOfInput := by
  intro isEnd
  exact (formed.written isToken (by simp [isEnd])).kind_ne.2 isEnd

theorem Formed.ne_nil (formed : piece.Formed) (shown : piece.isSkipped = false) :
    piece.text ≠ [] := by
  cases formed with
  | word _ written => exact written.ne_nil
  | blank isText =>
    rintro isEmpty
    simp [isEmpty] at isText
  | comment isText | newline isText => simp [isText]
  | skipped isSkipped => simp [shown] at isSkipped

end Piece

namespace Scan

theorem written_of_isWrittenIn (isWritten : IsWrittenIn whole lexeme) :
    Written (whole.drop (lexeme.steps - 1 + 1)) (whole.take (lexeme.steps - 1 + 1)) lexeme.kind
      lexeme.value := by
  obtain ⟨text, _, rfl, fits, written⟩ := isWritten
  have positive : 0 < text.length := length_pos_iff.mpr written.ne_nil
  have isSteps : lexeme.steps - 1 + 1 = lexeme.steps := by omega
  rw [isSteps]
  obtain ⟨same, -⟩ | ⟨rfl, atMost, -⟩ := fits
  · rw [same, take_left, drop_left]
    exact written
  · rw [append_nil, take_of_length_le atMost.le, drop_of_length_le atMost.le]
    exact written

theorem Recognises.formed (recognises : Recognises limit before piece) : piece.Formed := by
  obtain ⟨_, _, first, rest, isRest, isItem, isPiece⟩ := recognises
  generalize piece.item = found at isItem isPiece
  subst isPiece
  dsimp only [item] at isItem
  split at isItem
  · rename_i isBlank
    cases isItem
    refine .blank ?_ rfl
    obtain (rfl | rfl) | rfl : (first = ' ' ∨ first = '\t') ∨ first = '\r' := by
      simpa using isBlank
    all_goals simp [pieceAt, isRest, Item.more]
  split at isItem
  · rename_i isBroken
    cases isItem
    refine .blank ?_ rfl
    obtain ⟨rfl, isHead⟩ : first = '\\' ∧ rest.head? = some '\n' := by simpa using isBroken
    obtain ⟨_, rfl⟩ := head?_eq_some_iff.mp isHead
    simp [pieceAt, isRest, Item.more]
  split at isItem
  · rename_i isNewline
    cases isItem
    obtain rfl := beq_iff_eq.mp isNewline
    refine .newline (by simp [pieceAt, isRest, Item.more]) fun token isToken => ?_
    simp only [pieceAt, Item.token?, Option.ite_none_right_eq_some, Option.mem_def,
      Option.some.injEq] at isToken
    rw [← isToken.2]
  split at isItem
  · rename_i isBlock
    have isFirst : first = '=' := by
      have starts := isPrefixOf_iff_prefix.mp (Bool.and_eq_true_iff.mp isBlock).2
      exact (cons_prefix_cons.mp starts).1.symm
    split at isItem
    · cases isItem
      refine .skipped ?_ rfl
      simp [Piece.isSkipped, pieceAt, isRest, isFirst]
    · contradiction
  split at isItem
  · rename_i isComment
    cases isItem
    obtain rfl := beq_iff_eq.mp isComment
    have isSplit := take_append_drop (commentLength rest) rest
    have isContent : rest.take (commentLength rest) = rest.takeWhile (· != '\n') :=
      (prefix_iff_eq_take.mp <| takeWhile_prefix _).symm
    refine @Piece.Formed.comment _ (rest.take (commentLength rest)) ?_ ?_ rfl
    · simp [pieceAt, isRest, Item.more]
    · simp only [pieceAt, isRest, Item.more, drop_succ_cons]
      rw [isSplit, isContent]
  split at isItem
  · cases isItem
    exact .skipped rfl rfl
  · split at isItem
    · rename_i reads
      cases isItem
      refine .word rfl ?_
      have written := written_of_isWrittenIn (Lexeme.isWrittenIn_of_read reads)
      simpa only [pieceAt, isRest, Item.more] using written
    all_goals contradiction

theorem Cuts.formed {pieces : List Piece}
    (cuts : Cuts limit before pieces) : ∀ piece ∈ pieces, piece.Formed := by
  induction cuts with
  | nil => simp
  | cons recognises _ _ ih =>
    exact forall_mem_cons.mpr ⟨recognises.formed, ih⟩

end Scan

end ContractForge
