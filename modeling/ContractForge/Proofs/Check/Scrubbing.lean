import ContractForge.Check.Scrub
import ContractForge.Proofs.Source.Spelling
import Mathlib.Data.List.TakeWhile

/-!
# Blanking out piece by piece

The check of a source and the scanner find literals and comments on their own. Where
every piece of a text is one that both see alike, blanking out goes piece by piece
(`scrub_pieces`), and words that stand in the result stand in one of its pieces
(`standsIn_of_word`).
-/

namespace ContractForge

open Text Check List

variable {c : Char} {back content rest text front code old new word : List Char} {isDot : Prop}

/-! ### Pieces that are seen -/

/-- A backslash stands before a line break. -/
def breaksLine : List Char → Bool
  | [] => false
  | c :: rest => c == '\\' && rest.head? == some '\n' || breaksLine rest

def closesSplices : List Char → Bool
  | [] => true
  | c :: rest =>
    (!(c == '#' && rest.head? == some '{') || rest.contains '}') && closesSplices rest

/-- The text is a literal or a symbol in double quotes. -/
def isDoubleQuoted (text : List Char) : Bool :=
  (text.dropWhile (· == ':')).head? == some '"'

/-- The piece ends where the check of sources takes it to end: nothing is skipped, no literal goes
on behind a broken line or is left inside a splice, and numerals are set apart from words. -/
@[mk_iff]
structure Piece.IsSeen (piece : Piece) : Prop where
  shown : piece.isSkipped = false
  unbroken : piece.token?.isSome = true → breaksLine piece.text = false
  spliced : isDoubleQuoted piece.text = true → closesSplices piece.text = true
  apart : ∀ token ∈ piece.token?, token.kind = .integer ∨ token.kind = .float →
    endsWord piece.rest = true

theorem breaksLine_of_append (front : List Char) (unbroken : breaksLine (front ++ back) = false) :
    breaksLine back = false := by
  induction front with
  | nil => exact unbroken
  | cons _ _ ih =>
    exact ih (Bool.or_eq_false_iff.mp unbroken).2

theorem closesSplices_of_append (front : List Char)
    (spliced : closesSplices (front ++ back)) : closesSplices back := by
  induction front with
  | nil => exact spliced
  | cons _ _ ih =>
    exact ih (Bool.and_eq_true_iff.mp spliced).2

/-! ### Where literals end -/

theorem afterSingle?_of_closes (closes : Closes '\'' body)
    (unbroken : breaksLine body = false) (rest : List Char) :
    afterSingle? (body ++ rest) = some rest := by
  induction closes with
  | close => rfl
  | @escaped c body closes ih =>
    have notBreak : (c == '\n') = false := by simpa using (Bool.or_eq_false_iff.mp unbroken).1
    have later := ih (breaksLine_of_append ['\\', c] unbroken)
    simpa [afterSingle?, notBreak] using later
  | @char c body notQuote notEscape closes ih =>
    have later := ih (breaksLine_of_append [c] unbroken)
    rw [cons_append, afterSingle?]
    · exact later
    · exact notQuote
    · rintro _ _ rfl
      exact absurd rfl notEscape
    · rintro rfl
      exact absurd rfl notEscape

/-- A literal can be entered behind any brace that closes. -/
theorem Closes.behind_brace (isQuote : quote ≠ '}')
    (closes : Closes quote (front ++ '}' :: back)) : Closes quote back := by
  generalize isBody : front ++ '}' :: back = body at closes
  induction closes generalizing front with
  | close =>
    cases front with
    | nil => exact absurd (List.cons.inj isBody).1.symm isQuote
    | cons => simp at isBody
  | @escaped c body closes ih =>
    obtain _ | ⟨_, _ | ⟨_, front⟩⟩ := front
    · simp at isBody
    · simp at isBody
      exact isBody.2.2 ▸ closes
    · simp at isBody
      exact ih isBody.2.2
  | @char c body notQuote notEscape closes ih =>
    cases front with
    | nil => exact (List.cons.inj isBody).2 ▸ closes
    | cons => exact ih (List.cons.inj isBody).2

theorem Closes.ne_nil (closes : Closes quote body) : body ≠ [] := by
  cases closes <;> simp

theorem dropWhile_eq_brace (closed : '}' ∈ code) :
    ∃ back, code.dropWhile (· != '}') = '}' :: back := by
  cases isDrop : code.dropWhile (· != '}') with
  | nil =>
    have others := dropWhile_eq_nil_iff.mp isDrop '}' closed
    simp at others
  | cons c back =>
    have stops := head?_dropWhile_not (· != '}') code
    rw [isDrop] at stops
    have isBrace : c = '}' := by simpa using stops
    exact ⟨back, by rw [isBrace]⟩

/-- A splice inside a literal ends inside it. -/
theorem afterSplice?_append (nonempty : body ≠ []) (spliced : closesSplices (c :: body))
    (rest : List Char) :
    afterSplice? (c :: (body ++ rest)) = none ∨ ∃ front back,
      c :: body = front ++ '}' :: back ∧
        afterSplice? (c :: (body ++ rest)) = some (back ++ rest) := by
  obtain ⟨next, code, rfl⟩ := exists_cons_of_ne_nil nonempty
  by_cases opens : c = '#' ∧ next = '{'
  · obtain ⟨rfl, rfl⟩ := opens
    have closed : '}' ∈ code := by simpa using (Bool.and_eq_true_iff.mp spliced).1
    obtain ⟨back, isDrop⟩ := dropWhile_eq_brace closed
    refine .inr ⟨'#' :: '{' :: code.takeWhile (· != '}'), back, ?_, ?_⟩
    · rw [cons_append, cons_append, ← isDrop, takeWhile_append_dropWhile]
    · simp [afterSplice?, dropWhile_append, isDrop]
  · left
    unfold afterSplice?
    split
    · rename_i isText
      simp at isText
      exact absurd ⟨isText.1, isText.2.1⟩ opens
    · rfl

theorem afterDouble?_of_closes (closes : Closes '"' body)
    (unbroken : breaksLine body = false) (spliced : closesSplices body) (rest : List Char) :
    afterDouble? (body ++ rest) = some rest := by
  induction isLength : body.length using Nat.strongRecOn generalizing body with
  | ind length ih =>
    subst isLength
    have inner (front : List Char) {back : List Char} (isBody : body = front ++ back)
      (nonempty : front ≠ [])
        (ofBack : Closes '"' back) : afterDouble? (back ++ rest) = some rest := by
      subst isBody
      refine ih back.length ?_ ofBack (breaksLine_of_append front unbroken)
        (closesSplices_of_append front spliced) rfl
      have positive := length_pos_iff.mpr nonempty
      rw [length_append]
      omega
    cases closes with
    | close =>
        rw [singleton_append, afterDouble?]
    | @escaped c body closes  =>
      have notBreak : (c == '\n') = false := by simpa using (Bool.or_eq_false_iff.mp unbroken).1
      rw [cons_append, cons_append, afterDouble?, notBreak]
      exact inner ['\\', c] rfl (by simp) closes
    | @char c body notQuote notEscape closes =>
      have plain := inner [c] rfl (by simp) closes
      rw [cons_append, afterDouble?]
      · obtain isNone | ⟨front, back, isBody, _⟩ := afterSplice?_append closes.ne_nil spliced rest
        · split
          · exact plain
          · simp_all
        · have whole : Closes '"' (front ++ '}' :: back) := isBody ▸ .char notQuote notEscape closes
          have entered := inner (front ++ ['}']) (by simpa using isBody) (by simp)
              (whole.behind_brace (by decide))
          split
          all_goals simp_all
      · exact notQuote
      · rintro rfl
        exact absurd rfl notEscape
      · rintro _ _ rfl
        exact absurd rfl notEscape

namespace Check

variable {keep : List Char → List Char} {piece : Piece} {pieces : List Piece}

/-! ### Character by character -/

/-- The character is kept, or it is no line break and made a blank. -/
def Blanks (old new : Char) : Prop :=
  new = old ∨ old ≠ '\n' ∧ new = ' '

theorem blanks_blankChar (c : Char) : Blanks c (blankChar c) := by
  by_cases isBreak : c = '\n' <;> simp [Blanks, blankChar, isBreak]

theorem blanks_map (text : List Char) : Forall₂ Blanks text (text.map blankChar) :=
  forall₂_map_right_iff.mpr (forall₂_same.mpr fun c _ => blanks_blankChar c)

theorem eq_of_splice? (found : splice? chars = some code) :
    ∃ rest, chars = '#' :: '{' :: (code ++ '}' :: rest) := by
  unfold splice? at found
  split at found
  · split at found
    · rename_i closed
      cases found
      obtain ⟨back, isDrop⟩ := dropWhile_eq_brace (contains_iff_mem.mp closed)
      exact ⟨back, by rw [← isDrop, takeWhile_append_dropWhile]⟩
    · contradiction
  · contradiction

theorem exists_of_noise? (isNoise : noise? (c :: text) = some noise) :
    ∃ front rest, noise = c :: front ∧ text = front ++ rest := by
  generalize isText : c :: text = chars at isNoise
  unfold noise? at isNoise
  split at isNoise
  case h_4 => contradiction
  case h_3 =>
    cases isText
    cases isNoise
    exact ⟨_, _, rfl, takeWhile_append_dropWhile.symm⟩
  all_goals
    cases isText
    obtain ⟨_, -, rfl⟩ := Option.map_eq_some_iff.mp isNoise
    exact ⟨_, _, rfl, (take_append_drop _ _).symm⟩

section

variable (keeps : ∀ code, Forall₂ Blanks code (keep code))
include keeps

theorem blanks_blankLiteral (text : List Char) (skip : Nat) :
    Forall₂ Blanks (text.drop skip) (blankLiteral keep skip text) := by
  induction text generalizing skip with
  | nil => simp [blankLiteral]
  | cons c text ih =>
    cases skip with
    | succ skip => exact ih skip
    | zero =>
      cases found : splice? (c :: text) with
      | none => simpa [blankLiteral, found] using ⟨blanks_blankChar c, ih 0⟩
      | some code =>
        obtain ⟨rest, isText⟩ := eq_of_splice? found
        obtain ⟨rfl, rfl⟩ := cons.inj isText
        have later := ih (code.length + 2)
        have isRest : ('{' :: (code ++ '}' :: rest)).drop (code.length + 2) = rest := by
          rw [drop_succ_cons, ← drop_drop, drop_left]
          rfl
        have mark (c : Char) (notBreak : c ≠ '\n') : Blanks c ' ' := .inr ⟨notBreak, rfl⟩
        rw [isRest] at later
        simpa only [blankLiteral, found] using .cons (mark _ (by decide))
          (.cons (mark _ (by decide))
          (rel_append (keeps code) (.cons (mark _ (by decide)) later)))

theorem blanks_scrubWith (text : List Char) (skip : Nat) :
    Forall₂ Blanks (text.drop skip) (scrubWith keep skip text) := by
  induction text generalizing skip with
  | nil => simp [scrubWith]
  | cons c text ih =>
    cases skip with
    | succ skip => exact ih skip
    | zero =>
      cases isNoise : noise? (c :: text) with
      | none => simpa [scrubWith, isNoise] using ⟨.inl rfl, ih 0⟩
      | some noise =>
        obtain ⟨front, rest, rfl, rfl⟩ : ∃ front rest, noise = c :: front ∧ text = front ++ rest :=
          exists_of_noise? isNoise
        have later := ih front.length
        rw [drop_left] at later
        have blanked : Forall₂ Blanks (c :: front) (blankNoise keep (c :: front)) := by
          unfold blankNoise
          split
          · exact blanks_blankLiteral keeps (c :: front) 0
          · exact blanks_map _
        simpa [scrubWith, isNoise] using rel_append blanked later

end

/-- Blanking out keeps the length of a text and the places of its line breaks. -/
theorem blanks_scrub (text : List Char) : Forall₂ Blanks text (scrub text) :=
  blanks_scrubWith (fun code => blanks_scrubWith blanks_map code 0) text 0

theorem head?_of_blanks (blanks : Forall₂ Blanks old new) :
    new.head? = old.head? ∨ new.head? = some ' ' := by
  cases blanks with
  | nil => exact .inl rfl
  | cons isNew =>
    obtain rfl | ⟨-, rfl⟩ := isNew
    · exact .inl rfl
    · exact .inr rfl

theorem getLast?_scrub (text : List Char) :
    (scrub text).getLast? = text.getLast? ∨ (scrub text).getLast? = some ' ' := by
  rw [getLast?_eq_head?_reverse, getLast?_eq_head?_reverse]
  exact head?_of_blanks (forall₂_reverse_iff.mpr (blanks_scrub text))

/-! ### Code of splices -/

theorem notMem_of_splice? (found : splice? chars = some code) : '}' ∉ code := by
  unfold splice? at found
  split at found
  · split at found
    · cases found
      intro isThere
      simpa using mem_takeWhile_imp isThere
    · contradiction
  · contradiction

section

variable {other : List Char → List Char}
  (same : '}' ∈ text → ∀ code, '}' ∉ code → keep code = other code)
include same

theorem blankLiteral_congr (skip : Nat) :
    blankLiteral keep skip text = blankLiteral other skip text := by
  induction text generalizing skip with
  | nil => rfl
  | cons c rest ih =>
    have ofRest := ih fun isThere => same (mem_cons_of_mem c isThere)
    cases skip with
    | succ skip => exact ofRest skip
    | zero =>
      cases found : splice? (c :: rest) with
      | none => simp only [blankLiteral, found, ofRest]
      | some code =>
        obtain ⟨after, isText⟩ := eq_of_splice? found
        have sameCode := same (by simp [isText]) code (notMem_of_splice? found)
        simp only [blankLiteral, found, ofRest, sameCode]

theorem scrubWith_congr (skip : Nat) : scrubWith keep skip text = scrubWith other skip text := by
  induction text generalizing skip with
  | nil => rfl
  | cons c rest ih =>
    have ofRest := ih fun isThere => same (mem_cons_of_mem c isThere)
    cases skip with
    | succ skip => exact ofRest skip
    | zero =>
      cases isNoise : noise? (c :: rest) with
      | none => simp only [scrubWith, isNoise, ofRest]
      | some noise =>
        obtain ⟨front, after, rfl, rfl⟩ := exists_of_noise? isNoise
        have blanked : blankNoise keep (c :: front) = blankNoise other (c :: front) := by
          unfold blankNoise
          rw [blankLiteral_congr fun isThere => same (mem_append_left after isThere)]
        simp only [scrubWith, isNoise, ofRest, blanked]

end

/-- The code of a splice is blanked out like any text: it has no closing brace, so there are no
splices in it. -/
theorem scrub_eq_scrubWith_scrub (text : List Char) : scrub text = scrubWith scrub 0 text :=
  scrubWith_congr (fun _ _ notClosed =>
    scrubWith_congr (fun isThere => absurd isThere notClosed) 0) 0

/-! ### Blanking out -/

theorem scrubWith_skip (rest : List Char) :
    scrubWith keep skipped.length (skipped ++ rest) = scrubWith keep 0 rest := by
  induction skipped with
  | nil => rfl
  | cons _ _ ih =>
    exact ih

/-- A literal or comment can start with the character. -/
def startsNoise (c : Char) : Bool :=
  c == '\'' || c == '"' || c == '#'

theorem noise?_eq_none (plain : startsNoise c = false) (rest : List Char) :
    noise? (c :: rest) = none := by
  unfold noise?
  split <;> simp_all [startsNoise]

theorem scrubWith_plain {plain : List Char} (arePlain : ∀ c ∈ plain, startsNoise c = false)
    (rest : List Char) : scrubWith keep 0 (plain ++ rest) = plain ++ scrubWith keep 0 rest := by
  induction plain with
  | nil => rfl
  | cons _ _ ih =>
    obtain ⟨here, later⟩ := forall_mem_cons.mp arePlain
    simp [scrubWith, noise?_eq_none here, ih later]

theorem scrubWith_noise {c : Char} {text rest : List Char}
    (isNoise : noise? (c :: (text ++ rest)) = some (c :: text)) :
    scrubWith keep 0 (c :: (text ++ rest)) =
      blankNoise keep (c :: text) ++ scrubWith keep 0 rest := by
  simp [scrubWith, isNoise, scrubWith_skip]

theorem scrub_plain (arePlain : ∀ c ∈ plain, startsNoise c = false) : scrub plain = plain := by
  simpa [scrub, scrubWith] using @scrubWith_plain scrubSplice plain arePlain []

theorem scrub_noise (isNoise : noise? (c :: text) = some (c :: text)) :
    scrub (c :: text) = blankNoise scrubSplice (c :: text) := by
  rw [← append_nil text] at isNoise
  have alone := @scrubWith_noise scrubSplice _ _ _ (isNoise.trans (by simp))
  simpa [scrub, scrubWith] using alone

theorem noise?_of_closes (isQuote : quote = '"' ∨ quote = '\'')
    (closes : Closes quote body) (unbroken : breaksLine body = false)
    (spliced : quote = '"' → closesSplices body) (rest : List Char) :
    noise? (quote :: (body ++ rest)) = some (quote :: body) := by
  obtain rfl | rfl := isQuote
  · simp [noise?, afterDouble?_of_closes closes unbroken (spliced rfl)]
  · simp [noise?, afterSingle?_of_closes closes unbroken]

section

variable (isContent : content = (content ++ rest).takeWhile (· != '\n'))
include isContent

theorem noise?_comment : noise? ('#' :: (content ++ rest)) = some ('#' :: content) := by
  rw [noise?, ← isContent]

theorem inLine_of_content : ∀ c ∈ content, (c != '\n') := by
  intro c mem
  rw [isContent] at mem
  exact all_eq_true.mp all_takeWhile c mem

/-- A comment is the same when nothing follows it. -/
theorem noise?_comment_alone : noise? ('#' :: content) = some ('#' :: content) := by
  have alone : content = (content ++ []).takeWhile (· != '\n') := by
    rw [takeWhile_append_of_pos (inLine_of_content isContent), takeWhile_nil, append_nil]
  simpa using noise?_comment alone

theorem blankNoise_comment : ∀ c ∈ blankNoise keep ('#' :: content), c = ' ' := by
  have isBlank {c : Char} (inLine : (c != '\n')) : blankChar c = ' ' := by
    simp_all [blankChar]
  intro c mem
  obtain ⟨old, isOld, rfl⟩ : ∃ old ∈ '#' :: content, blankChar old = c := mem_map.mp mem
  obtain rfl | isOld := mem_cons.mp isOld
  · rfl
  · exact isBlank (inLine_of_content isContent old isOld)

end

/-! ### Plain texts -/

/-- Nothing in the text is blanked out. -/
def IsPlainText (text : List Char) : Prop :=
  ∀ c ∈ text, startsNoise c = false

theorem startsNoise_of_isNumeralChar (isNumeral : isNumeralChar c) : startsNoise c = false := by
  rw [Bool.eq_false_iff]
  intro starts
  obtain (rfl | rfl) | rfl : (c = '\'' ∨ c = '"') ∨ c = '#' := by simpa [startsNoise] using starts
  all_goals exact absurd isNumeral (by decide)

theorem startsNoise_of_isWordChar (isWord : isWordChar c) : startsNoise c = false :=
  startsNoise_of_isNumeralChar (by simp [isNumeralChar, isWord])

theorem isPlainText_append (ofFirst : IsPlainText first)
    (ofSecond : IsPlainText second) : IsPlainText (first ++ second) :=
  forall_mem_append.mpr ⟨ofFirst, ofSecond⟩

theorem isPlainText_of_isNameText (isName : IsNameText rest text) : IsPlainText text := by
  cases isName with
  | plain areWords => exact fun c mem => startsNoise_of_isWordChar (areWords c mem)
  | marked areWords isMark =>
    refine isPlainText_append (fun c mem => startsNoise_of_isWordChar (areWords c mem)) ?_
    obtain rfl | rfl := isMark <;> simp [IsPlainText, startsNoise]

theorem isPlainText_label (areWords : ∀ c ∈ name, isWordChar c) : IsPlainText (name ++ [':']) := by
  refine isPlainText_append ?_ (by simp [IsPlainText, startsNoise])
  exact fun c mem => startsNoise_of_isWordChar (areWords c mem)

theorem isPlainText_blank
    (isBlank : text ∈ [[' '], ['\t'], ['\r'], ['\\', '\n']]) : IsPlainText text := by
  fin_cases isBlank
  all_goals simp [IsPlainText, startsNoise]

theorem isPlainText_mark (sign : Mark) : IsPlainText sign.spelling.toList := by
  have plain : (sign.spelling.toList.all fun c => !startsNoise c) := by
    cases sign <;> rfl
  intro c mem
  simpa using all_eq_true.mp plain c mem

/-! ### Last characters -/

theorem getLast?_of_closes (closes : Closes quote body) : body.getLast? = some quote := by
  induction closes with
  | close => rfl
  | escaped _ ih | char _ _ _ ih => simp [getLast?_cons, ih]

/-- The text is blanked out on its own. -/
def IsScrubbed (text rest : List Char) : Prop :=
  scrub (text ++ rest) = scrub text ++ scrub rest

theorem isScrubbed_plain (plain : IsPlainText text) (rest : List Char) : IsScrubbed text rest := by
  rw [IsScrubbed, scrub_plain plain]
  exact scrubWith_plain plain rest

theorem isScrubbed_noise (isNoise : noise? (c :: (text ++ rest)) = some (c :: text))
    (alone : noise? (c :: text) = some (c :: text)) : IsScrubbed (c :: text) rest := by
  rw [IsScrubbed, scrub_noise alone]
  exact scrubWith_noise isNoise

theorem isScrubbed_quoted (isQuote : quote = '"' ∨ quote = '\'')
    (closes : Closes quote body) (unbroken : breaksLine body = false)
    (spliced : quote = '"' → closesSplices body) (rest : List Char) :
    IsScrubbed (quote :: body) rest := by
  have isNoise := noise?_of_closes isQuote closes unbroken spliced
  exact isScrubbed_noise (isNoise rest) (by simpa using isNoise [])

theorem isScrubbed_comment (isContent : content = (content ++ rest).takeWhile (· != '\n')) :
    IsScrubbed ('#' :: content) rest :=
  isScrubbed_noise (noise?_comment isContent) (noise?_comment_alone isContent)

theorem isScrubbed_colon (scrubbed : IsScrubbed text rest) : IsScrubbed (':' :: text) rest := by
  have isColon (text : List Char) : scrub (':' :: text) = ':' :: scrub text :=
    @scrubWith_plain _ [':'] (by simp [startsNoise]) text
  rw [IsScrubbed, cons_append, isColon, isColon, scrubbed, cons_append]

theorem isScrubbed_of_written
    (written : Written rest text kind value) (unbroken : breaksLine text = false)
    (spliced : isDoubleQuoted text → closesSplices text) : IsScrubbed text rest := by
  cases written with
  | name _ isName => exact isScrubbed_plain (isPlainText_of_isNameText isName) rest
  | label _ areWords => exact isScrubbed_plain (isPlainText_label areWords) rest
  | @sigil sign name _ isSign _ isName =>
    have plainSign : IsPlainText [sign] := by
      obtain ⟨-, rfl⟩ | ⟨-, rfl⟩ := isSign <;> simp [IsPlainText, startsNoise]
    exact isScrubbed_plain (isPlainText_append plainSign (isPlainText_of_isNameText isName)) rest
  | colon => exact isScrubbed_plain (by simp [IsPlainText, startsNoise]) rest
  | numeral _ numeric =>
    exact isScrubbed_plain (fun c mem => startsNoise_of_isNumeralChar (numeric.1 c mem)) rest
  | @quoted quote body _ _ isQuote closes _ =>
    refine isScrubbed_quoted isQuote closes (breaksLine_of_append [quote] unbroken) ?_ rest
    rintro rfl
    exact closesSplices_of_append ['"'] (spliced rfl)
  | @quotedSymbol quote body _ isQuote closes _ =>
    refine isScrubbed_colon (isScrubbed_quoted isQuote closes
      (breaksLine_of_append [':', quote] unbroken) ?_ rest)
    rintro rfl
    exact closesSplices_of_append [':', '"'] (spliced rfl)
  | mark sign => exact isScrubbed_plain (isPlainText_mark sign) rest

theorem isScrubbed_of_formed (formed : piece.Formed) (seen : piece.IsSeen) :
    IsScrubbed piece.text piece.rest := by
  cases formed with
  | word isToken written =>
    exact isScrubbed_of_written written (seen.unbroken (by simp [isToken])) seen.spliced
  | blank isText =>
    exact isScrubbed_plain (isPlainText_blank isText) _
  | comment isText isContent =>
    rw [isText]
    exact isScrubbed_comment isContent
  | newline isText =>
    exact isScrubbed_plain (by simp [isText, IsPlainText, startsNoise]) _
  | skipped isSkipped => simp [seen.shown] at isSkipped

/-! ### Where words can begin -/

/-- What a text may end with in front of the rest: a character of names only at the end of a word,
and a point only if it is the mark. -/
def MayEndWith (rest : List Char) (isDot : Prop) (c : Char) : Prop :=
  (isWordChar c = true → endsWord rest = true) ∧ c ≠ '@' ∧ (c = '.' → isDot)

theorem mayEndWith_word (isWord : isWordChar c) (ends : endsWord rest) :
    MayEndWith rest isDot c := by
  refine ⟨fun _ => ends, ?_, ?_⟩
  · rintro rfl
    exact absurd isWord (by decide)
  · rintro rfl
    exact absurd isWord (by decide)

theorem mayEndWith_other (isOther : (isWordChar c || c == '@' || c == '.') = false) :
    MayEndWith rest isDot c := by
  simp only [Bool.or_eq_false_iff, beq_eq_false_iff_ne] at isOther
  exact ⟨by simp [isOther.1.1], isOther.1.2, fun isPoint => absurd isPoint isOther.2⟩

theorem mayEndWith_of_isNameText (isName : IsNameText rest text) (isLast : text.getLast? = some c) :
    MayEndWith rest isDot c := by
  cases isName with
  | plain areWords ends =>
    exact mayEndWith_word (areWords c (mem_of_getLast? isLast)) ends
  | marked _ isMark =>
    obtain rfl : _ = c := by simpa using isLast
    obtain rfl | rfl := isMark
    all_goals exact mayEndWith_other rfl

theorem mayEndWith_of_closes (isQuote : quote = '"' ∨ quote = '\'') (closes : Closes quote body)
    (isLast : body.getLast? = some c) : MayEndWith rest isDot c := by
  obtain rfl : quote = c := Option.some.inj ((getLast?_of_closes closes).symm.trans isLast)
  obtain rfl | rfl := isQuote
  all_goals exact mayEndWith_other rfl

theorem getLast?_of_cons {first : Char} (nonempty : text ≠ [])
    (isLast : (first :: text).getLast? = some c) : text.getLast? = some c := by
  obtain ⟨_, _, rfl⟩ := exists_cons_of_ne_nil nonempty
  rwa [getLast?_cons_cons] at isLast

theorem mayEndWith_of_written (written : Written rest text kind value)
    (apart : kind = .integer ∨ kind = .float → endsWord rest)
    (isLast : text.getLast? = some c) : MayEndWith rest (kind = .mark .dot) c := by
  cases written with
  | name _ isName => exact mayEndWith_of_isNameText isName isLast
  | label | colon =>
    obtain rfl : _ = c := by simpa using isLast
    exact mayEndWith_other rfl
  | sigil _ nonempty isName =>
    exact mayEndWith_of_isNameText isName (getLast?_of_cons nonempty isLast)
  | numeral _ numeric known =>
    refine ⟨fun _ => apart known, ?_, ?_⟩
    · rintro rfl
      exact absurd (numeric.1 _ (mem_of_getLast? isLast)) (by decide)
    · rintro rfl
      exact absurd isLast numeric.2
  | quoted isQuote closes =>
    exact mayEndWith_of_closes isQuote closes (getLast?_of_cons closes.ne_nil isLast)
  | quotedSymbol isQuote closes =>
    exact mayEndWith_of_closes isQuote closes
      (getLast?_of_cons closes.ne_nil (getLast?_of_cons (by simp) isLast))
  | mark sign =>
    by_cases isDot : sign = .dot
    · subst isDot
      obtain rfl : '.' = c := by simpa [Mark.spelling] using isLast
      exact ⟨fun isWord => absurd isWord (by decide), by decide, fun _ => rfl⟩
    · have plain : (sign.spelling.toList.getLast?.all fun c =>
          !(isWordChar c || c == '@' || c == '.')) := by
        cases sign
        case dot => contradiction
        all_goals rfl
      rw [isLast] at plain
      exact mayEndWith_other (by simpa using plain)

theorem scrub_comment (isContent : content = (content ++ rest).takeWhile (· != '\n')) :
    ∀ c ∈ scrub ('#' :: content), c = ' ' := by
  rw [scrub_noise (noise?_comment_alone isContent)]
  exact blankNoise_comment isContent

/-- What is left of a piece that is seen ends in front of the next as the piece may. -/
theorem mayEndWith_of_formed (formed : piece.Formed) (seen : piece.IsSeen)
    (isLast : (scrub piece.text).getLast? = some c) :
    MayEndWith piece.rest (∃ token ∈ piece.token?, token.kind = .mark .dot) c := by
  cases formed with
  | @word token isToken written =>
    obtain same | isBlank := getLast?_scrub piece.text
    · rw [same] at isLast
      obtain ⟨word, notAt, point⟩ := mayEndWith_of_written written (seen.apart token isToken) isLast
      exact ⟨word, notAt, fun isPoint => ⟨token, isToken, point isPoint⟩⟩
    · obtain rfl : ' ' = c := Option.some.inj (isBlank.symm.trans isLast)
      exact mayEndWith_other rfl
  | blank isText =>
    simp only [mem_cons, not_mem_nil, or_false] at isText
    obtain isText | isText | isText | isText := isText
    all_goals
      rw [isText] at isLast
      cases isLast
      exact mayEndWith_other rfl
  | comment isText isContent =>
    rw [isText] at isLast
    obtain rfl := scrub_comment isContent c (mem_of_getLast? isLast)
    exact mayEndWith_other rfl
  | newline isText =>
    rw [isText] at isLast
    cases isLast
    exact mayEndWith_other rfl
  | skipped isSkipped => simp [seen.shown] at isSkipped

/-! ### Whole texts -/

theorem endsWord_scrub (ends : endsWord text) : endsWord (scrub text) = true := by
  unfold endsWord at ends ⊢
  obtain same | isBlank := head?_of_blanks (blanks_scrub text)
  · rw [same]
    exact ends
  · rw [isBlank]
    rfl

theorem scrub_ne_nil (nonempty : text ≠ []) : scrub text ≠ [] := by
  rw [← length_pos_iff, ← (blanks_scrub text).length_eq]
  exact length_pos_iff.mpr nonempty

/-- What is left of pieces when each of them is blanked out. -/
def scrubbed (pieces : List Piece) : List Char :=
  pieces.flatMap fun piece => scrub piece.text

@[simp] theorem scrubbed_cons (piece : Piece) (pieces : List Piece) :
    scrubbed (piece :: pieces) = scrub piece.text ++ scrubbed pieces :=
  rfl

@[simp] theorem scrubbed_append : scrubbed (first ++ second) = scrubbed first ++ scrubbed second :=
  flatMap_append

/-- Pieces that are seen are blanked out one by one. -/
theorem scrub_pieces (cuts : Scan.Cuts limit before pieces)
    (seen : ∀ piece ∈ pieces, piece.IsSeen) :
    scrub (pieces.flatMap Piece.text) = scrubbed pieces := by
  induction cuts with
  | nil => rfl
  | @cons before piece later recognises follows cuts ih =>
    obtain ⟨here, others⟩ := forall_mem_cons.mp seen
    rw [flatMap_cons, ← follows, isScrubbed_of_formed recognises.formed here, follows,
      ih others, scrubbed_cons]

/-- What is left of pieces ends in front of the next as the last of them may. -/
theorem mayEndWith_scrubbed {front later : List Piece}
    (cuts : Scan.Cuts limit before (front ++ later)) (seen : ∀ piece ∈ front, piece.IsSeen)
    (isLast : (scrubbed front).getLast? = some c) :
    MayEndWith (later.flatMap Piece.text)
      ((before ++ front.filterMap Piece.token?).getLast?.map Token.kind = some (.mark .dot)) c := by
  obtain rfl | ⟨front, piece, rfl⟩ := eq_nil_or_concat front
  · contradiction
  · rw [concat_eq_append] at *
    rw [append_assoc] at cuts
    obtain _ | ⟨recognises, follows, -⟩ := cuts.later
    have isSeen : piece.IsSeen := seen piece (by simp)
    have nonempty := scrub_ne_nil (recognises.formed.ne_nil isSeen.shown)
    have isEnd : (scrub piece.text).getLast? = some c := by
      simpa [scrubbed, nonempty] using isLast
    obtain ⟨word, notAt, point⟩ := mayEndWith_of_formed recognises.formed isSeen isEnd
    refine ⟨follows ▸ word, notAt, fun isPoint => ?_⟩
    obtain ⟨token, isToken, isDot⟩ := point isPoint
    have isToken : piece.token? = some token := isToken
    simp [isToken, isDot]

/-- The word stands in what is left of one of the pieces, between the given texts. -/
def StandsIn (pieces : List Piece) (front word back : List Char) : Prop :=
  ∃ first piece later start rest, pieces = first ++ piece :: later ∧
    scrub piece.text = start ++ word ++ rest ∧ front = scrubbed first ++ start ∧
    back = rest ++ scrubbed later

theorem StandsIn.behind (stands : StandsIn pieces front word back) (piece : Piece) :
    StandsIn (piece :: pieces) (scrub piece.text ++ front) word back := by
  obtain ⟨first, found, later, start, rest, rfl, isFound, rfl, isBack⟩ := stands
  exact ⟨piece :: first, found, later, start, rest, rfl, isFound, by simp, isBack⟩

/-- A word in what is left of pieces stands in one of them: no two characters of words meet where
pieces do. -/
theorem standsIn_of_word {pieces : List Piece} (cuts : Scan.Cuts limit before pieces)
    (seen : ∀ piece ∈ pieces, piece.IsSeen) {front word back : List Char} (nonempty : word ≠ [])
    (areWords : ∀ c ∈ word, isWordChar c) (isText : scrubbed pieces = front ++ (word ++ back)) :
    StandsIn pieces front word back := by
  induction cuts generalizing front with
  | nil => simp [scrubbed, nonempty] at isText
  | @cons before piece later recognises follows cuts ih =>
    obtain ⟨here, others⟩ := forall_mem_cons.mp seen
    rw [scrubbed_cons] at isText
    obtain ⟨between, rfl, isLater⟩ | ⟨rest, isPiece, isRest⟩ :=
      append_eq_append_iff.mp isText
    · exact (ih others isLater).behind piece
    obtain ⟨between, rfl, isLater⟩ | ⟨after, rfl, isBack⟩ :=
      append_eq_append_iff.mp isRest.symm
    · obtain rfl | ⟨_, last, rfl⟩ := eq_nil_or_concat rest
      · have stands := (@ih others [] (by simpa using isLater)).behind piece
        simpa [isPiece] using stands
      · cases between with
        | nil => exact ⟨[], piece, later, front, [], rfl, by simp [isPiece], by simp [scrubbed],
            isLater.symm⟩
        | cons c =>
          -- The word would go on behind its end.
          have isLast : (scrub piece.text).getLast? = some last := by simp [isPiece]
          have isEnd := (mayEndWith_of_formed recognises.formed here isLast).1
            (areWords last (by simp))
          have stops : endsWord (scrubbed later) := by
            rw [← scrub_pieces cuts others, ← follows]
            exact endsWord_scrub isEnd
          have goesOn : isWordChar c := areWords c (by simp)
          simp [isLater, endsWord, goesOn] at stops
    · exact ⟨[], piece, later, front, after, rfl, by simp [isPiece], by simp [scrubbed], isBack⟩

end Check

end ContractForge
