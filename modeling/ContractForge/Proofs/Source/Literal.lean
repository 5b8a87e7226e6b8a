import ContractForge.Listing.CallOrder
import ContractForge.Source.Scan
import ContractForge.Target.Name

/-!
# Texts as literals

A text is written as a literal three times: in the source between single or double
quotes, in the generated code, and in listings, where literals are found again to be
skipped. `literal_keeps_text` says that all of them stand for the same text.
-/

namespace ContractForge

open List

/-! ### Literals of the source -/

/-- The characters of a text with a backslash in front of the given ones. -/
def withBackslashes (escaped : List Char) (chars : List Char) : List Char :=
  chars.flatMap fun c => if c ∈ escaped then ['\\', c] else [c]

/-- A text as a literal of the source, with a backslash in front of the given characters. -/
def sourceLiteral (quote : Char) (escaped : List Char) (text : String) : String :=
  String.ofList (quote :: withBackslashes escaped text.toList ++ [quote])

/-- The source is one string literal that stands for a text, and nothing else. -/
def ReadsAsText (source text : String) : Prop :=
  ∃ line column, scan source = .ok
    { pending := [⟨.string, text, 1, 1, false⟩, ⟨.newline, "\n", line, column, false⟩]
      last := ⟨.endOfInput, "", line, column, false⟩ }

section

variable {quote : Char} {escaped : List Char}

/-- Up to the closing quote the text is read back, if the quote and the backslash are escaped, and
the sign that starts an interpolation between double quotes. -/
theorem quotedText?_withBackslashes (isQuote : quote = '"' ∨ quote = '\'')
    (backslash : '\\' ∈ escaped) (closing : quote ∈ escaped) (plain : quote = '"' → '#' ∈ escaped)
    (stands : ∀ c ∈ escaped, Lexeme.unescape quote c = [c]) (chars rest : List Char) :
    Lexeme.quotedText? quote (withBackslashes escaped chars ++ quote :: rest) =
      some ⟨chars, false, (withBackslashes escaped chars).length + 1⟩ := by
  induction chars with
  | nil =>
    rcases isQuote with rfl | rfl <;> simp [withBackslashes, Lexeme.quotedText?]
  | cons c chars ih =>
    have step : withBackslashes escaped (c :: chars) =
        (if c ∈ escaped then ['\\', c] else [c]) ++ withBackslashes escaped chars := rfl
    rw [step]
    by_cases isEscaped : c ∈ escaped
    · simp [isEscaped, Lexeme.quotedText?, ih, stands c isEscaped]
    · have notBackslash : c ≠ '\\' := fun same => isEscaped (same ▸ backslash)
      have notClosing : c ≠ quote := fun same => isEscaped (same ▸ closing)
      have notSign : quote = '"' → c ≠ '#' := fun isDouble same =>
        isEscaped (same ▸ plain isDouble)
      simp [isEscaped, Lexeme.quotedText?, ih, notBackslash, notClosing]
      exact fun isDouble isSign => absurd isSign (notSign isDouble)

theorem tokensFrom_of_end (isEnd : cursor.rest = []) :
    Scan.tokensFrom limit cursor spaced done = .ok (Scan.finish cursor done) := by
  rw [Scan.tokensFrom]
  split
  · rfl
  · simp_all

/-- Scanning goes on behind a word. -/
theorem tokensFrom_of_word {first : Char} {rest : List Char} {lexeme : Lexeme}
    (found : cursor.rest = first :: rest)
    (isItem : Scan.item limit cursor spaced (done.head?.map Token.kind) first rest =
      .ok (.word lexeme)) :
    Scan.tokensFrom limit cursor spaced done =
      Scan.tokensFrom limit (cursor.move (lexeme.steps - 1 + 1)) false
        (⟨lexeme.kind, lexeme.value, cursor.line, cursor.column, spaced⟩ :: done) := by
  rw [Scan.tokensFrom]
  split
  · simp_all
  · rename_i isOther
    obtain ⟨rfl, rfl⟩ := List.cons.inj (found.symm.trans isOther)
    simp only [isItem]

/-- Scanning a literal gives one token. -/
theorem readsAsText_sourceLiteral (isQuote : quote = '"' ∨ quote = '\'')
    (backslash : '\\' ∈ escaped) (closing : quote ∈ escaped) (plain : quote = '"' → '#' ∈ escaped)
    (stands : ∀ c ∈ escaped, Lexeme.unescape quote c = [c]) (text : String) :
    ReadsAsText (sourceLiteral quote escaped text) text := by
  have reads := quotedText?_withBackslashes isQuote backslash closing plain stands text.toList []
  unfold ReadsAsText scan scanWithin sourceLiteral
  rw [String.toList_ofList]
  generalize withBackslashes escaped text.toList = body at reads ⊢
  have isItem : Scan.item (some Text.digitLimit) { rest := quote :: (body ++ [quote]) } false none
      quote (body ++ [quote]) = .ok (.word ⟨.string, text, 1 + (body.length + 1)⟩) := by
    rcases isQuote with rfl | rfl <;>
      simp [Scan.item, Lexeme.read, Lexeme.quotedLiteral, reads, bind, Except.bind, pure,
        Except.pure]
  rw [cons_append, @tokensFrom_of_word _ _ _ [] _ _ _ rfl isItem]
  generalize isCursor : Cursor.move _ _ = cursor
  have isEnd : cursor.rest = [] := by
    rw [← isCursor, Cursor.rest_move]
    simp
  exact ⟨cursor.line, cursor.column, tokensFrom_of_end isEnd⟩

end

/-! ### Literals of the generated code -/

/-- What an escaped character of the generated code stands for. -/
def escapeMeaning? : Char → Option Char
  | '\\' => some '\\'
  | '"' => some '"'
  | 'n' => some '\n'
  | 't' => some '\t'
  | 'r' => some '\r'
  | _ => none

/-- The text that the inside of a literal of the generated code stands for. A quote without a
backslash in front of it ends the literal, so none may stand inside. -/
def decodeEscapes? : List Char → Option (List Char)
  | [] => some []
  | '\\' :: escaped :: rest => do return (← escapeMeaning? escaped) :: (← decodeEscapes? rest)
  | c :: rest => if c == '\\' || c == '"' then none else (decodeEscapes? rest).map (c :: ·)

/-- Every such character with a backslash and a letter in its place. -/
def escapeAll (c letter : Char) (text : List Char) : List Char :=
  text.flatMap fun other => if other = c then ['\\', letter] else [other]

/-- The characters can be escaped one after the other, if backslashes are the first. -/
theorem flatMap_quotedChar (text : List Char) :
    text.flatMap Name.quotedChar = escapeAll '\r' 'r' (escapeAll '\t' 't' (escapeAll '\n' 'n'
      (escapeAll '"' '"' (escapeAll '\\' '\\' text)))) := by
  simp only [escapeAll, List.flatMap_assoc]
  refine congrArg text.flatMap (funext fun c => ?_)
  fun_cases Name.quotedChar c
  case case6 => simp_all
  all_goals simp

/-- What is written for a character does not break the line, stands for the character, and is
passed over as a part of the literal. -/
theorem quotedChar_spec :
    (∀ shown ∈ Name.quotedChar c, shown ≠ '\n' ∧ shown ≠ '\r' ∧ shown ≠ '\t') ∧
      (∀ rest, decodeEscapes? (Name.quotedChar c ++ rest) = (decodeEscapes? rest).map (c :: ·)) ∧
      ∀ rest, Listing.afterString? (Name.quotedChar c ++ rest) = Listing.afterString? rest := by
  fun_cases Name.quotedChar c
  case case6 notBackslash notQuote notNewline notTab notReturn =>
    refine ⟨by simp_all, fun rest => ?_, fun rest => ?_⟩
    · simp_all [decodeEscapes?]
    · simp_all [Listing.afterString?]
  all_goals
    refine ⟨by simp, fun rest => ?_, fun rest => ?_⟩
    · cases isRest : decodeEscapes? rest <;> simp [decodeEscapes?, escapeMeaning?, isRest]
    · simp [Listing.afterString?]

/-- Every text is read back from its literals. In the source, between double quotes with a backslash
in front of backslashes, double quotes and hash signs, or between single quotes with a backslash in
front of backslashes and single quotes, it is scanned as one string. In the generated code its
literal stands on one line, without a tab; what stands between the quotes is decoded to the text;
and in a listing the literal ends at its closing quote, whatever follows. -/
theorem literal_keeps_text (text : String) :
    ReadsAsText (sourceLiteral '"' ['\\', '"', '#'] text) text ∧
      ReadsAsText (sourceLiteral '\'' ['\\', '\''] text) text ∧
      ∃ inside, (Name.quote text).toList = '"' :: inside ++ ['"'] ∧
        (∀ shown ∈ inside, shown ≠ '\n' ∧ shown ≠ '\r' ∧ shown ≠ '\t') ∧
        decodeEscapes? inside = some text.toList ∧
        ∀ rest, Listing.afterString? (inside ++ '"' :: rest) = some rest := by
  refine ⟨readsAsText_sourceLiteral (.inl rfl) ?_ ?_ ?_ ?_ text,
    readsAsText_sourceLiteral (.inr rfl) ?_ ?_ ?_ ?_ text, text.toList.flatMap Name.quotedChar,
    by simp [Name.quote], ?_, ?_, ?_⟩
  iterate 8 simp [Lexeme.unescape]
  · simp only [mem_flatMap]
    rintro shown ⟨c, -, member⟩
    exact quotedChar_spec.1 shown member
  · induction text.toList with
    | nil => rfl
    | cons c chars ih => rw [flatMap_cons, quotedChar_spec.2.1, ih, Option.map_some]
  · intro rest
    induction text.toList with
    | nil => rfl
    | cons c chars ih =>
      rw [flatMap_cons, append_assoc, quotedChar_spec.2.2, ih]

end ContractForge
