import ContractForge.Lowering.Expression
import ContractForge.Proofs.Lowering.Step
import ContractForge.Proofs.Source.Literal
import ContractForge.Proofs.Syntax.RoundTrip
import Mathlib.Data.Nat.Digits.Defs

/-!
# Values of numerals

An integer is written in decimal, hexadecimal or binary digits, with underscores among
them. Whatever way it is written, it keeps its value (`numeral_readsAsInteger`), if it has
not more decimal digits than can be read.
-/

namespace ContractForge

open List Parse Lexeme

def digitInCase (digit : Nat) (upper : Bool) : Char :=
  if upper then digit.digitChar.toUpper else digit.digitChar

/-- The ways to write a number: its decimal digits, or digits of a base behind the mark of the base,
with underscores anywhere behind the first digit or the mark. -/
inductive Numeral (number : Nat) : List Char → Prop
  | decimal {first : Char} {run : List Char} (isDigit : first ≠ '_')
    (digits : (first :: run).filter (· != '_') = Nat.toDigits 10 number) :
    Numeral number (first :: run)
  | based {base : Nat} {mark : Char} {run : List Char} {digits : List (Fin base × Bool)}
    (isMark : (base, mark) ∈ [(16, 'x'), (16, 'X'), (2, 'b'), (2, 'B')]) (some : digits ≠ [])
    (shown : run.filter (· != '_') = digits.map fun digit => digitInCase digit.1 digit.2)
    (value : Nat.ofDigits base (digits.map (·.1.val)).reverse = number) :
    Numeral number ('0' :: mark :: run)

/-- The source is scanned as one integer with the decimal digits of the number, and read as its
literal, which is written as these digits in every context. -/
def ReadsAsInteger (source : String) (number : Nat) : Prop :=
  ∃ newline last program literal,
    scan source = .ok ⟨[⟨.integer, toString number, 1, 1, false⟩, newline], last⟩ ∧
    newline.kind = .newline ∧ last.kind = .endOfInput ∧
    parse source = .ok program ∧ program.kind = .program ∧ program.children = [literal] ∧
    literal.kind = .literal ∧ literal.payload = .integer number ∧ literal.children = [] ∧
    ∀ context, Lower.Gives (expression literal) context (toString number) context

namespace Numeral

variable {limit : Option Nat} {number base : Nat} {run chars ending : List Char}
  {digits : List (Fin base × Bool)} {newline last : Token}

theorem exceeds_eq_false_iff (positive : 0 < bound) :
    Text.exceeds (some bound) (toString number).toList = false ↔ number < 10 ^ bound := by
  simpa [Text.exceeds] using Nat.length_toDigits_le_iff (by decide : 1 < 10) positive

section

variable (isEnding : ending = [] ∨ ending = ['\n'])
include isEnding

/-- Digits and underscores go up to the end of the line. -/
theorem takeWhile_run {isDigit : Char → Bool}
    (areDigits : ∀ c ∈ run.filter (· != '_'), isDigit c) (notBreak : isDigit '\n' = false) :
    (run ++ ending).takeWhile (fun c => isDigit c || c == '_') = run := by
  rw [takeWhile_append_of_pos]
  · rcases isEnding with rfl | rfl <;> simp [notBreak]
  · intro c mem
    by_cases isUnderscore : c = '_'
    · simp [isUnderscore]
    · simp [areDigits c (by simp [mem, isUnderscore])]

theorem basedNumeral_eq (isBase : base = 16 ∨ base = 2) (some : digits ≠ [])
    (shown : run.filter (· != '_') = digits.map fun digit => digitInCase digit.1 digit.2)
    (value : Nat.ofDigits base (digits.map (·.1.val)).reverse = number) :
    basedNumeral limit base (run ++ ending) =
      if Text.exceeds limit (toString number).toList then .error .tooManyDigits
      else .ok ⟨.integer, toString number, run.length + 2⟩ := by
  have spec : ∀ digit < 16, ∀ upper, digitValue (digitInCase digit upper) = digit ∧
      isDigitIn 16 (digitInCase digit upper) ∧
      (digit < 2 → isDigitIn 2 (digitInCase digit upper)) := by decide
  have small (digit : Fin base) : digit.val < 16 := by omega
  have taken : (run ++ ending).takeWhile (fun c => isDigitIn base c || c == '_') = run := by
    refine takeWhile_run isEnding ?_ ?_
    · rw [shown, forall_mem_map]
      intro digit _
      have digitSpec := spec digit.1 (small _) digit.2
      rcases isBase with rfl | rfl
      · exact digitSpec.2.1
      · exact digitSpec.2.2 digit.1.2
    · rcases isBase with rfl | rfl <;> decide
  have sums : numberInBase base (digitsOf run) = number := by
    rw [digitsOf, shown, ← value, Nat.ofDigits_eq_foldr, foldr_reverse, foldl_map,
      numberInBase, foldl_map]
    congr
    funext sum digit
    rw [(spec digit.1 (small _) digit.2).1, Nat.add_comm]
    rfl
  have isSome : (digitsOf run).isEmpty = false := by
    simpa [digitsOf, shown] using some
  simp [basedNumeral, taken, sums, isSome, Nat.add_comm]

variable (written : Numeral number chars)
  (fits : Text.exceeds limit (toString number).toList = false)
include written fits

/-- Reading a numeral gives the decimal digits of the number, up to the end of the line. -/
theorem numeral_eq :
    Text.isDigit (chars.headD ' ') ∧ numeral limit (chars ++ ending) =
      .ok ⟨.integer, toString number, chars.length⟩ := by
  cases written with
  | @decimal first run isDigit digits =>
    have areDigits : ∀ c ∈ (first :: run).filter (· != '_'), Text.isDigit c := by
      rw [digits]
      intro c mem
      simpa [Text.isDigit, Char.isDigit, Char.le_def] using
        Nat.isDigit_of_mem_toDigits (by decide) (by decide) mem
    refine ⟨areDigits first (by simp [isDigit]), ?_⟩
    have taken : digitRun (first :: run ++ ending) = first :: run :=
      takeWhile_run isEnding areDigits rfl
    unfold numeral
    split
    case h_5 =>
      have noFraction : fraction? ending = none := by rcases isEnding with rfl | rfl <;> rfl
      have noExponent : exponent? ending = none := by rcases isEnding with rfl | rfl <;> rfl
      generalize first :: run = chars at taken digits
      simp [decimalNumeral, taken, noFraction, noExponent, digitsOf, digits, Nat.repr]
    -- Behind a zero, the mark of a base would be the end of the line.
    all_goals
      rename_i same
      rw [same] at taken
      obtain ⟨rfl, rfl⟩ := cons.inj (show ['0'] = first :: run from taken)
      rcases isEnding with rfl | rfl <;> simp at same
  | @based base mark run digits isMark some shown value =>
    have isBase : base = 16 ∨ base = 2 := by
      simp at isMark
      omega
    have read := @basedNumeral_eq limit _ _ _ _ _ isEnding isBase some shown value
    rw [fits] at read
    simp only [mem_cons, Prod.mk.injEq, not_mem_nil, or_false] at isMark
    obtain ⟨rfl, rfl⟩ | ⟨rfl, rfl⟩ | ⟨rfl, rfl⟩ | ⟨rfl, rfl⟩ := isMark <;> exact ⟨rfl, read⟩

/-- A numeral on a line of its own is one token. -/
theorem scanWithin_eq :
    ∃ newline last, newline.kind = .newline ∧ last.kind = .endOfInput ∧
      scanWithin limit (String.ofList (chars ++ ending)) =
        .ok ⟨[⟨.integer, toString number, 1, 1, false⟩, newline], last⟩ := by
  obtain ⟨isDigit, read⟩ := numeral_eq isEnding written fits
  obtain ⟨first, rest, rfl⟩ : ∃ first rest, chars = first :: rest := by
    cases written <;> exact ⟨_, _, rfl⟩
  have isDigit : Text.isDigit first := isDigit
  have other (c : Char) (noDigit : Text.isDigit c = false) : first ≠ c ∧ c ≠ first := by
    constructor <;> rintro rfl <;> simp [isDigit] at noDigit
  have isItem : Scan.item limit { rest := first :: (rest ++ ending) } false none first
      (rest ++ ending) = .ok (.word ⟨.integer, toString number, (first :: rest).length⟩) := by
    have inRange : '0' ≤ first ∧ first ≤ '9' := by simpa [Text.isDigit] using isDigit
    rw [cons_append] at read
    simp [Scan.item, Lexeme.read, other, inRange, read, Text.isDigit]
  rw [scanWithin, String.toList_ofList, cons_append, @tokensFrom_of_word _ _ _ [] _ _ _ rfl isItem]
  generalize isCursor : Cursor.move _ _ = cursor
  have isRest : cursor.rest = ending := by
    rw [← isCursor, Cursor.rest_move]
    simp
  rcases isEnding with rfl | rfl
  · rw [tokensFrom_of_end isRest]
    exact ⟨_, _, rfl, rfl, rfl⟩
  · rw [Scan.tokensFrom]
    split
    · simp_all
    · rename_i found
      obtain ⟨rfl, rfl⟩ := cons.inj (isRest.symm.trans found)
      have isBreak spaced previous :
          Scan.item limit cursor spaced previous '\n' [] = .ok .newline := rfl
      simp only [isBreak]
      rw [tokensFrom_of_end (by simp [Cursor.rest_move, isRest])]
      exact ⟨_, _, rfl, rfl, rfl⟩

end

/-- The token of an integer, up to the end of the line, is read as a program that is its literal. -/
theorem parseTokensWithin_integer (fits : Text.exceeds limit (toString number).toList = false)
    (isNewline : newline.kind = .newline) (isLast : last.kind = .endOfInput) :
    ∃ program literal,
      parseTokensWithin limit ⟨[⟨.integer, toString number, 1, 1, false⟩, newline], last⟩ =
        .ok program ∧ program.kind = .program ∧ program.children = [literal] ∧
      literal.kind = .literal ∧ literal.payload = .integer number ∧ literal.children = [] := by
  let state : ParseState := { pending := [], last, digitLimit := limit }
  let token : Token := ⟨.integer, toString number, 1, 1, false⟩
  have spelled : [token].map Token.word = (Formula.integer number).words := rfl
  have few : [token].length ≤ 3 := by simp
  have within : (Formula.integer number).Within state.digitLimit := fits
  have places : Places (.integer number) 1 := isRead.places (by decide)
  obtain ⟨⟨kind, payload, _, _, parts⟩, isLiteral, ran⟩ :=
    places.expressionStatement spelled few within (.inr (.inr isNewline)) []
  have starts : startsAt 1 token.kind := rfl
  have read := program_single (by simp [token]) isNewline isLast
    (topLevel_expression starts isNewline ran)
  obtain ⟨rfl, rfl, -, -, isLeaf⟩ := Node.mk.inj isLiteral
  refine ⟨_, _, congrArg (Except.map Prod.fst) read, rfl, rfl, rfl, rfl, ?_⟩
  cases parts with
  | nil => rfl
  | cons => simp [Node.unplacedAll] at isLeaf

/-- A hexadecimal one with as many zeros as there may be decimal digits is not read. -/
theorem scanWithin_hex (positive : 0 < bound) :
    let chars := '0' :: 'x' :: '1' :: replicate bound '0'
    Numeral (16 ^ bound) chars ∧
      scanWithin (some bound) (String.ofList chars) = .error (.tooManyDigits none) := by
  intro chars
  let digits : List (Fin 16 × Bool) := (1, false) :: replicate bound (0, false)
  have shown : ('1' :: replicate bound '0').filter (· != '_') =
      digits.map fun digit => digitInCase digit.1 digit.2 := by
    simp [digits, digitInCase]
  have value : Nat.ofDigits 16 (digits.map (·.1.val)).reverse = 16 ^ bound := by
    simp [digits, Nat.ofDigits_append]
  refine ⟨.based (by simp) (cons_ne_nil _ _) shown value, ?_⟩
  have long : Text.exceeds (some bound) (toString (16 ^ bound)).toList := by
    have large : 10 ^ bound ≤ 16 ^ bound := Nat.pow_le_pow_left (by decide) _
    simpa using mt (exceeds_eq_false_iff positive).mp (Nat.not_lt.mpr large)
  have read := @basedNumeral_eq (some bound) _ _ _ _ _ (.inl rfl) (.inl rfl) (cons_ne_nil _ _)
    shown value
  rw [long, append_nil] at read
  have isItem : Scan.item (some bound) { rest := chars } false none '0'
      ('x' :: '1' :: replicate bound '0') = .error (.tooManyDigits none) := by
    simp [Scan.item, Lexeme.read, numeral, read, Text.isDigit]
  rw [scanWithin, String.toList_ofList, Scan.tokensFrom]
  split
  · simp_all
  · rename_i found
    obtain ⟨rfl, rfl⟩ := cons.inj found
    simp [isItem]

end Numeral

/-- Whatever way an integer is written on a line of its own, it keeps its value through scanning,
reading and writing. The number of its decimal digits is limited. -/
theorem numeral_readsAsInteger {number : Nat} {chars : List Char} {ending : String}
    (written : Numeral number chars) (isEnding : ending = "" ∨ ending = "\n")
    (fits : number < 10 ^ Text.digitLimit) :
    ReadsAsInteger (String.ofList chars ++ ending) number := by
  have short := (Numeral.exceeds_eq_false_iff (by decide)).mpr fits
  have isEnd : ending.toList = [] ∨ ending.toList = ['\n'] := by
    rcases isEnding with rfl | rfl <;> simp
  obtain ⟨newline, last, isNewline, isLast, scanned⟩ := Numeral.scanWithin_eq isEnd written short
  rw [String.ofList_append, String.ofList_toList] at scanned
  obtain ⟨program, literal, parsed, isProgram, children, isLiteral, payload, parts⟩ :=
    Numeral.parseTokensWithin_integer short isNewline isLast
  refine ⟨newline, last, program, literal, scanned, isNewline, isLast, ?_, isProgram, children,
    isLiteral, payload, parts, fun context => ?_⟩
  · rw [parse, parseWithin, scanned]
    exact parsed
  · obtain ⟨_, _, _, _, _⟩ := literal
    cases isLiteral
    cases payload
    exact Lower.gives_pure

theorem hex_readsAsInteger : ReadsAsInteger "0x_f_F\n" 255 :=
  numeral_readsAsInteger (@Numeral.based 255 16 'x' ['_', 'f', '_', 'F'] [(15, false), (15, true)]
    (by decide) (by decide) (by decide) (by decide)) (.inr rfl)
    (Nat.lt_of_lt_of_le (by decide : 255 < 10 ^ 3) (Nat.pow_le_pow_right (by decide) (by decide)))

/-- A one and as many zeros as there may be decimal digits are too long in base sixteen. -/
theorem hex_not_readsAsInteger :
    let chars := '0' :: 'x' :: '1' :: replicate Text.digitLimit '0'
    Numeral (16 ^ Text.digitLimit) chars ∧
      ¬ ReadsAsInteger (String.ofList chars) (16 ^ Text.digitLimit) := by
  obtain ⟨written, failed⟩ := @Numeral.scanWithin_hex Text.digitLimit (by decide)
  refine ⟨written, ?_⟩
  rintro ⟨_, _, _, _, scanned, -⟩
  cases failed.symm.trans scanned

end ContractForge
