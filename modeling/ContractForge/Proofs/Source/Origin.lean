import ContractForge.Source.Scan
import ContractForge.Decimal.Shortest

/-!
# Where tokens come from

Every token but the line ends is a word that stands somewhere in the text, and an
error in a numeral is one of a numeral that stands there. What a numeral has to
look like for each of these errors is said here about the text alone.
-/

namespace ContractForge

open List

variable {lexeme : Lexeme} {text digits : List Char} {base steps : Nat}

/-- The text is one that a word of the class can have. -/
def TokenKind.Spells : TokenKind → String → Prop
  | .keyword word, text => text = word.spelling
  | .mark sign, text => text = sign.spelling
  | .identifier, text | .constant, text => text ≠ ""
  | _, _ => True

/-! ### Words of a text -/

/-- The outcome is that of reading a word at some place of the text. -/
def ReadsAt (limit : Option Nat) (text : List Char) (outcome : Except LexemeError Lexeme) : Prop :=
  ∃ symbolAllowed afterDot first rest, (first :: rest) <:+ text ∧
    Lexeme.read limit symbolAllowed afterDot first rest = outcome

/-- The token is a line end or a word of the text. -/
def Token.ComesFrom (limit : Option Nat) (text : List Char) (token : Token) : Prop :=
  token.kind = .newline ∨ ∃ steps, ReadsAt limit text (.ok ⟨token.kind, token.value, steps⟩)

def ReadError.ComesFrom (limit : Option Nat) (text : List Char) : ReadError → Prop
  | .invalid _ => True
  | .missingDigits base => ReadsAt limit text (.error (.missingDigits base))
  | .tooManyDigits _ => ReadsAt limit text (.error .tooManyDigits)
  | .missingExponent _ | .depthExceeded => False

namespace Scan

variable {limit : Option Nat} {text : List Char}

/-- A word that was recognised is one of the text, and so is one that was not. -/
def Recognised (limit : Option Nat) (text : List Char) : Except ReadError Item → Prop
  | .ok (.word lexeme) => ReadsAt limit text (.ok lexeme)
  | .ok _ => True
  | .error error => error.ComesFrom limit text

theorem recognised_item (here : (first :: rest) <:+ text)
    (cursor : Cursor) (spaced : Bool) (previous : Option TokenKind) :
    Recognised limit text (item limit cursor spaced previous first rest) := by
  dsimp only [item]
  split
  · trivial
  split
  · trivial
  split
  · trivial
  split
  · cases blockCommentLength? true (first :: rest) <;> trivial
  split
  · trivial
  split
  · trivial
  · cases reading : Lexeme.read limit (symbolAllowed spaced previous)
        (previous == some (.mark .dot)) first rest with
    | ok => exact ⟨_, _, _, _, here, reading⟩
    | error error =>
      cases error with
      | invalid => trivial
      | missingDigits | tooManyDigits => exact ⟨_, _, _, _, here, reading⟩

theorem withNewline_comeFrom
    (comeFrom : ∀ token ∈ done, token.ComesFrom limit text) (line column : Nat) :
    ∀ token ∈ withNewline done line column, token.ComesFrom limit text := by
  unfold withNewline
  split
  · exact forall_mem_cons.mpr ⟨.inl rfl, comeFrom⟩
  · exact comeFrom

theorem move_suffix {cursor : Cursor} (here : cursor.rest <:+ text) (count : Nat) :
    (cursor.move count).rest <:+ text := by
  rw [Cursor.rest_move]
  exact (drop_suffix _ _).trans here

theorem tokensFrom_comeFrom (cursor : Cursor) (spaced : Bool) (done : List Token)
    (here : cursor.rest <:+ text) (comeFrom : ∀ token ∈ done, token.ComesFrom limit text) :
    match tokensFrom limit cursor spaced done with
    | .ok stream => stream.last.kind = .endOfInput ∧
        ∀ token ∈ stream.pending, token.ComesFrom limit text
    | .error error => error.ComesFrom limit text := by
  fun_induction tokensFrom limit cursor spaced done with
  | case1 | case6 =>
    exact ⟨rfl, fun token mem => withNewline_comeFrom comeFrom _ _ token (mem_reverse.mp mem)⟩
  | case2 cursor spaced done _ _ found _ _ fails =>
    have known : Recognised limit text _ :=
      recognised_item (found ▸ here) cursor spaced (done.head?.map Token.kind)
    rw [fails] at known
    exact known
  | case3 _ _ _ _ _ _ _ _ _ ih | case4 _ _ _ _ _ _ _ _ _ ih =>
    exact ih (move_suffix here _) comeFrom
  | case5 _ _ _ _ _ _ _ _ ih =>
    exact ih (move_suffix here _) (withNewline_comeFrom comeFrom _ _)
  | case7 cursor spaced done _ _ found _ lexeme isWord _ ih =>
    have known : Recognised limit text _ :=
      recognised_item (found ▸ here) cursor spaced (done.head?.map Token.kind)
    rw [isWord] at known
    refine ih (move_suffix here _) (forall_mem_cons.mpr ⟨?_, comeFrom⟩)
    exact .inr ⟨lexeme.steps, known⟩

end Scan

/-- The tokens of a text are its words and line ends, and errors are those of its words. -/
theorem scanWithin_comeFrom (limit : Option Nat) (source : String) :
    match scanWithin limit source with
    | .ok stream => stream.last.kind = .endOfInput ∧
        ∀ token ∈ stream.pending, token.ComesFrom limit source.toList
    | .error error => error.ComesFrom limit source.toList :=
  Scan.tokensFrom_comeFrom _ _ _ (suffix_refl _) (by simp)

/-! ### Words by their first character -/

namespace Lexeme

variable {limit : Option Nat} {symbolAllowed : Bool} {mark : Char} {run sign : List Char}

/-- A word that starts with a digit is a numeral. -/
theorem read_of_isDigit (isDigit : Text.isDigit first) :
    read limit symbolAllowed afterDot first rest = numeral limit (first :: rest) := by
  have notQuote : (first == '"' || first == '\'') = false := by
    rw [Bool.eq_false_iff]
    intro isQuote
    obtain rfl | rfl : first = '"' ∨ first = '\'' := by simpa using isQuote
    all_goals exact absurd isDigit (by decide)
  simp only [read, notQuote, isDigit]
  rfl

/-- No numeral, and written as its class is. -/
def Plain : Except LexemeError Lexeme → Prop
  | .ok lexeme => lexeme.kind ≠ .integer ∧ lexeme.kind ≠ .float ∧ lexeme.kind.Spells lexeme.value
  | .error error => ∃ summary offset, error = .invalid summary offset

theorem nameChars_ne_nil (isStart : Text.isWordChar first) : nameChars (first :: rest) ≠ [] := by
  have run : (first :: rest).takeWhile Text.isWordChar ≠ [] := by simp [isStart]
  unfold nameChars
  split
  · split <;> simp [run]
  · exact run

theorem spelling_of_ofSpelling? {text : String}
    (found : Keyword.ofSpelling? text = some keyword) : text = keyword.spelling := by
  have spelled := find?_some found
  exact (beq_iff_eq.mp spelled).symm

theorem plain_word (isStart : Text.isWordChar first) :
    Plain (.ok (word afterDot (first :: rest))) := by
  have named : String.ofList (nameChars (first :: rest)) ≠ "" := by
    simpa using nameChars_ne_nil isStart
  have isName (isConstant : Bool) (steps : Nat) :
      Plain (.ok ⟨if isConstant then .constant else .identifier,
        String.ofList (nameChars (first :: rest)), steps⟩) := by
    cases isConstant with
    | false | true => exact ⟨by simp, by simp, named⟩
  unfold word
  extract_lets name value isPlain labelled nameKind
  split
  · exact ⟨by simp, by simp, trivial⟩
  · split
    · rename_i found
      cases afterDot with
      | false => exact ⟨by simp, by simp, spelling_of_ofSpelling? found⟩
      | true => exact isName _ _
    · exact isName _ _

theorem plain_markOrError (text : List Char) : Plain (markOrError text) := by
  have isMark (mark : Mark) (steps : Nat) : Plain (.ok ⟨.mark mark, mark.spelling, steps⟩) :=
    ⟨by simp, by simp, rfl⟩
  dsimp only [markOrError]
  split
  · exact isMark _ _
  · split
    · exact ⟨_, _, rfl⟩
    · split
      · exact isMark _ _
      · exact ⟨_, _, rfl⟩

theorem plain_instanceVariable (text : List Char) : Plain (instanceVariable text) := by
  dsimp only [instanceVariable]
  split
  · exact ⟨_, _, rfl⟩
  · split
    · exact ⟨_, _, rfl⟩
    · exact ⟨by simp, by simp, trivial⟩

/-- A symbol after a colon, or none. -/
def PlainSymbol : Except LexemeError (Option Lexeme) → Prop
  | .ok found => ∀ lexeme ∈ found, lexeme.kind = .symbol
  | .error error => ∃ summary offset, error = .invalid summary offset

theorem plainSymbol_symbol? (text : List Char) : PlainSymbol (symbol? text) := by
  unfold symbol?
  split
  · simp [PlainSymbol]
  · split
    · simp [PlainSymbol]
    · split
      · unfold quotedLiteral
        split
        · simp [PlainSymbol, bind, Except.bind]
        · exact ⟨_, _, rfl⟩
      · simp [PlainSymbol]

/-- A word that does not start with a digit. -/
theorem plain_read (notDigit : Text.isDigit first = false) :
    Plain (read limit symbolAllowed afterDot first rest) := by
  dsimp only [read]
  split
  · unfold quotedLiteral
    cases quotedText? first rest with
    | none => exact ⟨_, _, rfl⟩
    | some text =>
      refine ⟨?_, ?_, ?_⟩
      all_goals cases text.interpolated <;> simp [TokenKind.Spells]
  split
  · simp_all
  split
  · exact plain_instanceVariable rest
  split
  · exact ⟨_, _, rfl⟩
  have others : Plain (if Text.isLetter first || first == '_' then
      .ok (word afterDot (first :: rest)) else markOrError (first :: rest)) := by
    split
    · rename_i isStart
      refine plain_word ?_
      rw [Bool.or_eq_true] at isStart
      obtain isStart | isStart := isStart <;> simp [Text.isWordChar, Text.isAlphanumeric, isStart]
    · exact plain_markOrError _
  split
  · have known := plainSymbol_symbol? rest
    cases found : symbol? rest with
    | error =>
      rw [found] at known
      exact known
    | ok symbol =>
      rw [found] at known
      cases symbol with
      | none => exact others
      | some lexeme =>
        have isSymbol := known lexeme rfl
        have plain : Plain (.ok lexeme) := by simp [Plain, isSymbol, TokenKind.Spells]
        exact plain
  · exact others

/-! ### Numerals -/

/-- A base mark with no digit of its base after it, underscores aside. -/
def BareBase (text : List Char) : Prop :=
  ∃ mark digits base, text = '0' :: mark :: digits ∧
    (mark ∈ ['x', 'X'] ∧ base = 16 ∨ mark ∈ ['b', 'B'] ∧ base = 2) ∧
    ∀ digit ∈ (digits.dropWhile (· == '_')).head?, isDigitIn base digit = false

/-- Digits and underscores, a digit first. -/
def IsDigitRun (run : List Char) : Prop :=
  ∃ digit rest, run = digit :: rest ∧ Text.isDigit digit ∧
    ∀ c ∈ rest, Text.isDigit c ∨ c = '_'

/-- A decimal numeral that ends in an exponent mark: the text ends there, or a sign follows and
no digit after it. -/
def BareExponent (text : List Char) : Prop :=
  ∃ whole fraction mark exponent, text = whole ++ (fraction ++ mark :: exponent) ∧
    IsDigitRun whole ∧ (fraction = [] ∨ ∃ run, fraction = '.' :: run ∧ IsDigitRun run) ∧
    mark ∈ ['e', 'E'] ∧
    (exponent = [] ∨ ∃ sign after, exponent = sign :: after ∧ sign ∈ ['+', '-'] ∧
      ∀ c ∈ after.head?, Text.isDigit c = false)

/-- A numeral of an integer with more digits than the limit. -/
def LongNumeral (limit : Option Nat) (text : List Char) : Prop :=
  ∃ lexeme, numeral none text = .ok lexeme ∧ lexeme.kind = .integer ∧
    Text.exceeds limit lexeme.value.toList

theorem not_isDigitIn_of_digitsOf_eq_nil
    (none : digitsOf (text.takeWhile fun c => isDigitIn base c || c == '_') = []) :
    ∀ digit ∈ (text.dropWhile (· == '_')).head?, isDigitIn base digit = false := by
  induction text with
  | nil => simp
  | cons c _ ih =>
    by_cases isBlank : c = '_'
    · subst isBlank
      exact ih (by simpa [digitsOf] using none)
    · rw [dropWhile_cons_of_neg (by simpa using isBlank)]
      simp only [head?_cons, Option.mem_def, Option.some.injEq, forall_eq']
      rw [Bool.eq_false_iff]
      intro isDigit
      simp [digitsOf, isDigit, isBlank] at none

/-- The outcome of reading a numeral without a limit, or an error that the numeral accounts
for. -/
def Accounted (limit : Option Nat) (text : List Char) : Except LexemeError Lexeme → Prop
  | .ok lexeme => numeral none text = .ok lexeme
  | .error (.missingDigits _) => BareBase text
  | .error .tooManyDigits => LongNumeral limit text
  | .error (.invalid _ _) => False

theorem accounted_basedNumeral
    (isBased : ∀ limit, numeral limit text = basedNumeral limit base digits)
    (bare : digitsOf (digits.takeWhile fun c => isDigitIn base c || c == '_') = [] →
      BareBase text) : Accounted limit text (basedNumeral limit base digits) := by
  have unlimited := isBased none
  dsimp only [basedNumeral] at unlimited ⊢
  generalize digitsOf (digits.takeWhile fun c => isDigitIn base c || c == '_') = found at *
  by_cases isEmpty : found.isEmpty
  · rw [if_pos isEmpty]
    exact bare (by simpa using isEmpty)
  · rw [if_neg isEmpty] at unlimited ⊢
    split
    · rename_i long
      exact ⟨_, unlimited, rfl, long⟩
    · exact unlimited

theorem accounted_numeral (text : List Char) : Accounted limit text (numeral limit text) := by
  unfold numeral
  split
  iterate 2
    · exact accounted_basedNumeral (fun _ => rfl) fun none =>
        ⟨_, _, _, rfl, .inl ⟨by simp, rfl⟩, not_isDigitIn_of_digitsOf_eq_nil none⟩
  iterate 2
    · exact accounted_basedNumeral (fun _ => rfl) fun none =>
        ⟨_, _, _, rfl, .inr ⟨by simp, rfl⟩, not_isDigitIn_of_digitsOf_eq_nil none⟩
  · unfold Accounted numeral
    split <;> simp_all

theorem isDigitRun_digitRun (isDigit : Text.isDigit first) :
    IsDigitRun (digitRun (first :: rest)) := by
  refine ⟨first, rest.takeWhile fun c => Text.isDigit c || c == '_', ?_, isDigit, ?_⟩
  · simp [digitRun, isDigit]
  · intro c mem
    simpa using all_eq_true.mp all_takeWhile c mem

/-- Digits, and at least one of them. -/
def AreDigits (digits : List Char) : Prop :=
  digits ≠ [] ∧ ∀ c ∈ digits, Text.isDigit c

theorem IsDigitRun.areDigits (isRun : IsDigitRun run) : AreDigits (digitsOf run) := by
  obtain ⟨digit, _, rfl, isDigit, areDigits⟩ := isRun
  have notBlank : digit ≠ '_' := by
    rintro rfl
    exact absurd isDigit (by decide)
  refine ⟨by simp [digitsOf, notBlank], ?_⟩
  intro c mem
  obtain ⟨mem, isDigitChar⟩ := mem_filter.mp mem
  obtain rfl | mem := mem_cons.mp mem
  · exact isDigit
  · exact (areDigits c mem).resolve_right (by simpa using isDigitChar)

theorem fraction?_eq_some (found : fraction? text = some (fraction, steps)) :
    ∃ run rest, text = '.' :: (run ++ rest) ∧ IsDigitRun run ∧ fraction = '.' :: digitsOf run ∧
      steps = 1 + run.length := by
  unfold fraction? at found
  split at found
  · rename_i first more
    split at found
    · rename_i isDigit
      obtain ⟨rfl, rfl⟩ : '.' :: digitsOf (digitRun (first :: more)) = fraction ∧
          1 + (digitRun (first :: more)).length = steps := by simpa using found
      refine ⟨digitRun (first :: more), (first :: more).dropWhile fun c =>
        Text.isDigit c || c == '_',
        ?_, isDigitRun_digitRun isDigit, rfl, rfl⟩
      rw [digitRun, takeWhile_append_dropWhile]
    · contradiction
  · contradiction

/-- What an exponent can look like: a mark alone, a sign and digits, or digits. -/
theorem exponent?_eq_some (found : exponent? text = some (exponent, steps)) :
    ∃ mark tail, text = mark :: tail ∧ mark ∈ ['e', 'E'] ∧
      (tail = [] ∧ exponent = [mark] ∧ steps = 2 ∨
        steps = exponent.length ∧ ((∃ sign more, tail = sign :: more ∧ sign ∈ ['+', '-'] ∧
          exponent = mark :: sign :: more.takeWhile Text.isDigit) ∨
        ∃ digits, AreDigits digits ∧ exponent = mark :: digits ∧ digits <+: tail)) := by
  unfold exponent? at found
  split at found
  · rename_i mark tail
    split at found
    · rename_i isMark
      refine ⟨mark, tail, rfl, by simpa using isMark, ?_⟩
      split at found
      · cases found
        exact .inl ⟨rfl, rfl, rfl⟩
      · rename_i first more
        split at found
        · rename_i isSign
          cases found
          exact .inr ⟨by simp; omega, .inl ⟨first, more, rfl, by simpa using isSign, rfl⟩⟩
        · split at found
          · rename_i isDigit
            cases found
            refine .inr ⟨by simp; omega, .inr ⟨_, ⟨?_, ?_⟩, rfl, takeWhile_prefix _⟩⟩
            · simp [isDigit]
            · exact fun c mem => all_eq_true.mp all_takeWhile c mem
          · contradiction
    · contradiction
  · contradiction

/-- The digits at the front of a text end where something else follows. -/
theorem span_digits (areDigits : ∀ c ∈ digits, Text.isDigit c)
    (stops : ∀ c ∈ rest.head?, Text.isDigit c = false) :
    (digits ++ rest).takeWhile Text.isDigit = digits ∧
      (digits ++ rest).dropWhile Text.isDigit = rest := by
  rw [takeWhile_append_of_pos areDigits, dropWhile_append_of_pos areDigits]
  cases rest with
  | nil => simp
  | cons c => simp [stops c rfl]

theorem isSome_exponent? (isMark : mark ∈ ['e', 'E'])
    (isSign : sign = [] ∨ ∃ c ∈ ['+', '-'], sign = [c]) (areDigits : AreDigits digits) :
    (Decimal.exponent? (mark :: (sign ++ digits))).isSome := by
  have isMark : (mark != 'e' && mark != 'E') = false := by
    obtain rfl | rfl : mark = 'e' ∨ mark = 'E' := by simpa using isMark
    all_goals decide
  have full : (digits.isEmpty || !digits.all Text.isDigit) = false := by
    simpa [AreDigits] using areDigits
  have split : (Decimal.splitSign (sign ++ digits)).2 = digits := by
    obtain rfl | ⟨c, isSign, rfl⟩ := isSign
    · obtain ⟨digit, _, rfl⟩ := exists_cons_of_ne_nil areDigits.1
      have isDigit := areDigits.2 digit mem_cons_self
      unfold Decimal.splitSign
      split <;> simp_all <;> exact absurd isDigit (by decide)
    · obtain rfl | rfl : c = '+' ∨ c = '-' := by simpa using isSign
      all_goals rfl
  simp [Decimal.exponent?, isMark, split, full]

/-- Digits with a fraction and a full exponent are a number. -/
theorem isSome_parse? (isWhole : AreDigits whole)
    (isFraction : fraction = [] ∨ ∃ digits, AreDigits digits ∧ fraction = '.' :: digits)
    (isExponent : exponent = [] ∨ ∃ mark sign digits, mark ∈ ['e', 'E'] ∧
      (sign = [] ∨ ∃ c ∈ ['+', '-'], sign = [c]) ∧ AreDigits digits ∧
      exponent = mark :: (sign ++ digits)) :
    (Decimal.parse? (whole ++ (fraction ++ exponent))).isSome := by
  have stops : ∀ c ∈ exponent.head?, Text.isDigit c = false ∧ c ≠ '.' := by
    obtain rfl | ⟨mark, _, _, isMark, -, -, rfl⟩ := isExponent
    · simp
    · obtain rfl | rfl : mark = 'e' ∨ mark = 'E' := by simpa using isMark
      all_goals simp; decide
  have stopsBefore : ∀ c ∈ (fraction ++ exponent).head?, Text.isDigit c = false := by
    obtain rfl | ⟨_, -, rfl⟩ := isFraction
    · exact fun c mem => (stops c mem).1
    · simp; decide
  have split : (Decimal.splitFraction (fraction ++ exponent)).2 = exponent := by
    obtain rfl | ⟨_, areDigits, rfl⟩ := isFraction
    · rw [nil_append]
      unfold Decimal.splitFraction
      split
      · exact absurd rfl (stops '.' rfl).2
      · rfl
    · exact (span_digits areDigits.2 fun c mem => (stops c mem).1).2
  have ends : (Decimal.exponent? exponent).isSome := by
    obtain rfl | ⟨_, _, _, isMark, isSign, areDigits, rfl⟩ := isExponent
    · rfl
    · exact isSome_exponent? isMark isSign areDigits
  obtain ⟨isTaken, isLeft⟩ := span_digits isWhole.2 stopsBefore
  simp [Decimal.parse?, isTaken, isLeft, split, isWhole.1, ends]

/-- The parts of a decimal numeral: the whole digits, a fraction, and what an exponent is looked
for in. -/
theorem decimalNumeral_parts (isDigit : Text.isDigit first) :
    ∃ whole fraction tail digits, first :: rest = whole ++ (fraction ++ tail) ∧ IsDigitRun whole ∧
      (fraction = [] ∧ digits = [] ∨
        ∃ run, fraction = '.' :: run ∧ IsDigitRun run ∧ digits = '.' :: digitsOf run) ∧
      (decimalNumeral (first :: rest)).value.toList =
        digitsOf whole ++ (digits ++ ((exponent? tail).getD ([], 0)).1) ∧
      (decimalNumeral (first :: rest)).steps =
        whole.length + fraction.length + ((exponent? tail).getD ([], 0)).2 ∧
      (((exponent? tail).getD ([], 0)).1 ≠ [] →
        (decimalNumeral (first :: rest)).kind = .float) := by
  have isRun : IsDigitRun (digitRun (first :: rest)) := isDigitRun_digitRun isDigit
  obtain ⟨after, isText⟩ : ∃ after, first :: rest = digitRun (first :: rest) ++ after :=
    ⟨_, takeWhile_append_dropWhile.symm⟩
  have isAfter : (first :: rest).drop (digitRun (first :: rest)).length = after :=
    (congrArg (List.drop _) isText).trans drop_left
  cases found : fraction? after with
  | none =>
    refine ⟨_, [], after, [], isText, isRun, .inl ⟨rfl, rfl⟩, ?_⟩
    simp [decimalNumeral, isAfter, found]
  | some split =>
    obtain ⟨_, _⟩ := split
    obtain ⟨run, tail, rfl, isFraction, rfl, rfl⟩ := fraction?_eq_some found
    refine ⟨_, '.' :: run, tail, _, isText, isRun, .inr ⟨run, rfl, isFraction, rfl⟩, ?_⟩
    have isTail : (first :: rest).drop ((digitRun (first :: rest)).length + (1 + run.length)) =
        tail := by
      rw [← drop_drop, isAfter]
      simp [Nat.add_comm]
    simp [decimalNumeral, isAfter, found, isTail]
    omega

/-- A decimal numeral that is no number ends in an exponent mark. -/
theorem bareExponent_of_unread (isDigit : Text.isDigit first)
    (unread : Decimal.parse? (decimalNumeral (first :: rest)).value.toList = none) :
    BareExponent (first :: rest) := by
  obtain ⟨whole, fraction, tail, digits, isText, isWhole, isFraction, isValue, -⟩ :=
    decimalNumeral_parts isDigit
  have isParsed : digits = [] ∨ ∃ found, AreDigits found ∧ digits = '.' :: found := by
    obtain ⟨-, rfl⟩ | ⟨_, -, isRun, rfl⟩ := isFraction
    · exact .inl rfl
    · exact .inr ⟨_, isRun.areDigits, rfl⟩
  have unread (full : ((exponent? tail).getD ([], 0)).1 = [] ∨ ∃ mark sign digits,
      mark ∈ ['e', 'E'] ∧ (sign = [] ∨ ∃ c ∈ ['+', '-'], sign = [c]) ∧ AreDigits digits ∧
      ((exponent? tail).getD ([], 0)).1 = mark :: (sign ++ digits)) : False := by
    have isSome := isSome_parse? isWhole.areDigits isParsed full
    rw [← isValue, unread] at isSome
    contradiction
  have isFraction : fraction = [] ∨ ∃ run, fraction = '.' :: run ∧ IsDigitRun run := by
    obtain ⟨rfl, -⟩ | ⟨run, rfl, isRun, -⟩ := isFraction
    · exact .inl rfl
    · exact .inr ⟨run, rfl, isRun⟩
  cases found : exponent? tail with
  | none => exact (unread (.inl (by simp [found]))).elim
  | some exponent =>
    obtain ⟨exponent, _⟩ := exponent
    rw [found] at unread
    obtain ⟨mark, _, rfl, isMark, ⟨rfl, -⟩ | ⟨-, ⟨sign, more, rfl, isSign, rfl⟩ |
      ⟨digits, areDigits, rfl, -⟩⟩⟩ := exponent?_eq_some found
    · exact ⟨whole, fraction, mark, [], isText, isWhole, isFraction, isMark, .inl rfl⟩
    · refine ⟨whole, fraction, mark, _, isText, isWhole, isFraction, isMark,
        .inr ⟨sign, more, rfl, isSign, ?_⟩⟩
      intro c isHead
      rw [Bool.eq_false_iff]
      intro isDigit
      refine unread (.inr ⟨mark, [sign], more.takeWhile Text.isDigit, isMark,
        .inr ⟨sign, isSign, rfl⟩, ⟨?_, ?_⟩, rfl⟩)
      · obtain ⟨_, rfl⟩ := head?_eq_some_iff.mp isHead
        simp [isDigit]
      · exact fun c mem => all_eq_true.mp all_takeWhile c mem
    · exact (unread (.inr ⟨mark, [], digits, isMark, .inl rfl, areDigits, rfl⟩)).elim

theorem numeral_kind (isNumeral : numeral limit text = .ok lexeme) :
    lexeme.kind = .integer ∨ lexeme = decimalNumeral text := by
  have based {base : Nat} {digits : List Char}
      (isBased : basedNumeral limit base digits = .ok lexeme) :
      lexeme.kind = .integer := by
    dsimp only [basedNumeral] at isBased
    split at isBased
    · contradiction
    · split at isBased
      · contradiction
      · cases isBased
        rfl
  unfold numeral at isNumeral
  split at isNumeral
  · exact .inl (based isNumeral)
  · exact .inl (based isNumeral)
  · exact .inl (based isNumeral)
  · exact .inl (based isNumeral)
  · cases isNumeral
    exact .inr rfl

end Lexeme

/-! ### What the words of a text say about it -/

open Lexeme

def HasPlace (text : List Char) (holds : List Char → Prop) : Prop :=
  ∃ here, here <:+ text ∧ holds here

variable {limit : Option Nat} {text : List Char}

/-- A word of the text is written as its class is. -/
theorem ReadsAt.spells (reads : ReadsAt limit text (.ok lexeme)) :
    lexeme.kind.Spells lexeme.value := by
  obtain ⟨_, _, first, _, -, isRead⟩ := reads
  cases isDigit : Text.isDigit first with
  | false =>
    have plain : Plain (.ok lexeme) := isRead ▸ plain_read isDigit
    exact plain.2.2
  | true =>
    rw [read_of_isDigit isDigit] at isRead
    obtain isInteger | rfl := numeral_kind isRead
    · simp [TokenKind.Spells, isInteger]
    · simp only [decimalNumeral]
      split <;> trivial

theorem ReadsAt.numeral (reads : ReadsAt limit text outcome) (notPlain : ¬Plain outcome) :
    HasPlace text fun here => ∃ first rest, here = first :: rest ∧ Text.isDigit first ∧
      Lexeme.numeral limit here = outcome := by
  obtain ⟨_, _, first, rest, isHere, isRead⟩ := reads
  cases isDigit : Text.isDigit first with
  | false => exact absurd (isRead ▸ plain_read isDigit) notPlain
  | true =>
    rw [read_of_isDigit isDigit] at isRead
    exact ⟨_, isHere, first, rest, rfl, isDigit, isRead⟩

theorem ReadsAt.accounted (reads : ReadsAt limit text outcome) (notPlain : ¬Plain outcome) :
    HasPlace text fun here => Accounted limit here outcome := by
  obtain ⟨here, isHere, -, -, -, -, rfl⟩ := reads.numeral notPlain
  exact ⟨here, isHere, accounted_numeral here⟩

/-- An integer that turns out to be too long when it is used. -/
theorem ReadsAt.longInteger (reads : ReadsAt limit text (.ok lexeme))
    (isInteger : lexeme.kind = .integer) (long : Text.exceeds limit lexeme.value.toList) :
    HasPlace text (LongNumeral limit) := by
  obtain ⟨here, isHere, accounted⟩ := reads.accounted (by simp [Plain, isInteger])
  exact ⟨here, isHere, lexeme, accounted, isInteger, long⟩

theorem ReadsAt.bareExponent (reads : ReadsAt limit text (.ok lexeme))
    (isFloat : lexeme.kind = .float) (unread : Decimal.parse? lexeme.value.toList = none) :
    HasPlace text BareExponent := by
  obtain ⟨_, isHere, _, _, rfl, isDigit, isRead⟩ :=
    reads.numeral (by simp [Plain, isFloat])
  obtain isInteger | rfl := numeral_kind isRead
  · simp [isFloat] at isInteger
  · exact ⟨_, isHere, bareExponent_of_unread isDigit unread⟩

end ContractForge
