import ContractForge.Proofs.Source.Spelling
import Mathlib.Data.List.Induction
import Mathlib.Data.Prod.Lex
import Mathlib.Order.Monotone.Basic

/-!
# Places of tokens

Every step of a cursor leads to a later place. So the places of the tokens increase, each
token but a line end stands where it begins (`scan_inOrder`), and the end of the input is
the place behind what was read, unless the last word is read beyond the text (`scan_end`).
-/

namespace ContractForge

open List

variable {text before rest tail : List Char} {token : Token} {done : List Token}
  {pos steps length : Nat} {stream : TokenStream} {value source : String}

/-! ### Places -/

def Token.place (token : Token) : Nat ×ₗ Nat :=
  toLex (token.line, token.column)

/-- The place that follows a text: lines and columns count from one. -/
def placeAfter (text : List Char) : Nat ×ₗ Nat :=
  toLex (text.count '\n' + 1, (text.reverse.takeWhile (· != '\n')).length + 1)

namespace Cursor

def place (cursor : Cursor) : Nat ×ₗ Nat :=
  toLex (cursor.line, cursor.column)

def start (text : List Char) : Cursor where
  rest := text

theorem move_succ (cursor : Cursor) (count : Nat) :
    cursor.move (count + 1) = (cursor.move count).next := by
  induction count generalizing cursor with
  | zero => rfl
  | succ _ ih => exact ih cursor.next

theorem move_move (cursor : Cursor) (first second : Nat) :
    (cursor.move first).move second = cursor.move (first + second) := by
  induction first generalizing cursor with
  | zero => rw [Nat.zero_add, move]
  | succ _ ih => rw [Nat.succ_add, move, move, ih]

/-- Every step leads to a later place, also beyond the end. -/
theorem place_lt_next (cursor : Cursor) : cursor.place < cursor.next.place := by
  rw [place, place, Prod.Lex.toLex_lt_toLex]
  unfold next
  split <;> simp

theorem place_next {cursor : Cursor} {c : Char}
    (isRest : cursor.rest = c :: rest) (isPlace : cursor.place = placeAfter before) :
    cursor.next.place = placeAfter (before ++ [c]) := by
  obtain ⟨isLine, isColumn⟩ := Prod.mk.inj (toLex.injective isPlace)
  unfold next
  split
  · rename_i isEnd
    simp [isRest] at isEnd
  · rename_i isBreak
    obtain ⟨rfl, -⟩ := List.cons.inj (isRest.symm.trans isBreak)
    simp [place, placeAfter, isLine]
  · rename_i notBreak isOther
    obtain ⟨rfl, -⟩ := List.cons.inj (isRest.symm.trans isOther)
    have notBreak : c ≠ '\n' := fun isBreak => notBreak isBreak
    simp [place, placeAfter, isLine, isColumn, notBreak]

end Cursor

/-- The place at a position of a text, also one beyond its end. -/
def placeAt (text : List Char) (pos : Nat) : Nat ×ₗ Nat :=
  ((Cursor.start text).move pos).place

theorem strictMono_placeAt (text : List Char) : StrictMono (placeAt text) := by
  refine strictMono_nat_of_lt_succ fun pos => ?_
  rw [placeAt, placeAt, Cursor.move_succ]
  exact Cursor.place_lt_next _

/-- Inside the text, a place is told by what stands before it. -/
theorem placeAt_append (before rest : List Char) :
    placeAt (before ++ rest) before.length = placeAfter before := by
  -- From its end: the last step to the place goes over the last character before it.
  induction before using List.reverseRecOn generalizing rest with
  | nil => rfl
  | append_singleton before c ih =>
    rw [append_assoc, length_append, length_singleton, placeAt, Cursor.move_succ]
    have isRest : ((Cursor.start (before ++ ([c] ++ rest))).move before.length).rest = c :: rest :=
      (Cursor.rest_move _ _).trans drop_left
    exact Cursor.place_next isRest (ih ([c] ++ rest))

/-- A place tells what stands before it. -/
theorem eq_of_placeAfter
    (isText : before ++ rest = other ++ tail) (same : placeAfter before = placeAfter other) :
    before = other ∧ rest = tail := by
  rw [← placeAt_append before rest, ← placeAt_append other tail, isText] at same
  exact append_inj isText ((strictMono_placeAt _).injective same)

/-! ### How words begin -/

/-- How a word of the class begins: with a quote, with its sign, with a digit, or as its value. -/
def TokenKind.Begins (value : String) (first : Char) : TokenKind → Prop
  | .newline | .endOfInput => False
  | .string | .interpolated => first = '"' ∨ first = '\''
  | .ivar => first = '@'
  | .symbol => first = ':'
  | .integer | .float => Text.isDigit first = true
  | _ => value.toList.head? = some first

/-- The token stands in the text: its place is that of the character it begins with, and a symbol
without a name is a colon at the end of the text or one with empty quotes. -/
def Token.StandsIn (text : List Char) (token : Token) : Prop :=
  ∃ before first rest, text = before ++ first :: rest ∧ token.place = placeAfter before ∧
    token.kind.Begins token.value first ∧
    (token.kind = .symbol → token.value = "" →
      rest = [] ∨ ∃ quote ∈ ['"', '\''], [quote, quote] <+: rest)

theorem Written.begins (written : Written rest text kind value) :
    ∃ first tail, text = first :: tail ∧ kind.Begins value first ∧
      (kind = .symbol → value = "" →
        tail ++ rest = [] ∨ ∃ quote ∈ ['"', '\''], [quote, quote] <+: tail ++ rest) := by
  cases written with
  | name _ _ known =>
    cases text with
    | nil => contradiction
    | cons first tail =>
      obtain rfl | rfl | ⟨word, rfl⟩ := known <;> simp [TokenKind.Begins]
  | label nonempty =>
    obtain ⟨first, tail, rfl⟩ := exists_cons_of_ne_nil nonempty
    exact ⟨first, tail ++ [':'], rfl, by simp [TokenKind.Begins], by simp⟩
  | sigil isSign nonempty =>
    refine ⟨_, _, rfl, ?_, by simp [nonempty]⟩
    obtain ⟨rfl, rfl⟩ | ⟨rfl, rfl⟩ := isSign <;> rfl
  | colon isEnd => exact ⟨':', [], rfl, rfl, fun _ _ => .inl isEnd⟩
  | numeral isDigit _ known =>
    cases text with
    | nil => contradiction
    | cons first tail =>
      refine ⟨first, tail, rfl, ?_⟩
      obtain rfl | rfl := known <;> exact ⟨isDigit, by simp⟩
  | quoted isQuote _ known =>
    refine ⟨_, _, rfl, ?_⟩
    obtain rfl | rfl := known <;> exact ⟨isQuote, by simp⟩
  | quotedSymbol isQuote _ isEmpty =>
    refine ⟨':', _, rfl, rfl, fun _ isValue => .inr ⟨_, by simpa using isQuote, ?_⟩⟩
    simp [isEmpty isValue]
  | mark sign =>
    obtain ⟨first, tail, isText⟩ := exists_cons_of_ne_nil (@Written.mark rest sign).ne_nil
    exact ⟨first, tail, isText, by simp [TokenKind.Begins, isText], by simp⟩

/-- The word is read beyond the text: a colon at its end, or an exponent without digits. -/
def Token.IsOpen (text : List Char) (token : Token) : Prop :=
  token.kind = .symbol ∧ (∃ before, text = before ++ [':'] ∧ token.place = placeAfter before) ∨
    token.kind = .float ∧ token.value.toList.getLast? ∈ [some 'e', some 'E']

section

variable {lexeme : Lexeme} {before rest : List Char} (isWritten : IsWrittenIn rest lexeme)
  (isKind : token.kind = lexeme.kind) (isValue : token.value = lexeme.value)
  (isPlace : token.place = placeAfter before)
include isWritten isKind isValue isPlace

theorem standsIn_of_isWrittenIn : token.StandsIn (before ++ rest) := by
  obtain ⟨_, after, rfl, -, written⟩ := isWritten
  obtain ⟨first, tail, rfl, begins, isEmpty⟩ := written.begins
  rw [← isKind, ← isValue] at begins isEmpty
  exact ⟨before, first, tail ++ after, rfl, isPlace, begins, isEmpty⟩

/-- Exactly the open words are read beyond the text. -/
theorem isOpen_iff_of_isWrittenIn : rest.length < lexeme.steps ↔ token.IsOpen (before ++ rest) := by
  obtain ⟨_, _, rfl, fits, written⟩ := isWritten
  rw [Token.IsOpen, isKind, isValue]
  obtain ⟨isSteps, notOpen⟩ | ⟨rfl, beyond, isOpen⟩ := fits
  · refine iff_of_false (by simp [isSteps]) (mt (Or.imp_left (And.imp_right ?_)) notOpen)
    -- What stands before a place is known, so the colon that ends the text is the word read here.
    rintro ⟨_, isText, isOther⟩
    obtain ⟨-, isWord⟩ := eq_of_placeAfter isText (isPlace.symm.trans isOther)
    exact ((append_eq_singleton_iff.mp isWord).resolve_left fun isNil => written.ne_nil isNil.1).1
  · rw [append_nil]
    refine iff_of_true beyond (isOpen.imp_left (And.imp_right ?_))
    rintro rfl
    exact ⟨before, rfl, isPlace⟩

end

/-! ### What has been read -/

/-- The token is a line end behind a token that can end a line, or stands in the text. -/
def Token.Follows (text : List Char) (earlier : List Token) (token : Token) : Prop :=
  token.kind = .newline ∧ Scan.endsLine (earlier.head?.map Token.kind) = true ∨ token.StandsIn text

/-- The tokens read so far, newest first: their places increase. -/
structure Kept (text : List Char) (done : List Token) : Prop where
  ordered : done.Pairwise fun later earlier => earlier.place < later.place
  follow : ∀ token earlier, token :: earlier <:+ done → token.Follows text earlier

theorem Kept.push (kept : Kept text done) (later : ∀ earlier ∈ done, earlier.place < token.place)
    (follows : token.Follows text done) : Kept text (token :: done) where
  ordered := pairwise_cons.mpr ⟨later, kept.ordered⟩
  follow other earlier isSuffix := by
    obtain isWhole | isSuffix := suffix_cons_iff.mp isSuffix
    · obtain ⟨rfl, rfl⟩ := List.cons.inj isWhole
      exact follows
    · exact kept.follow other earlier isSuffix

theorem Kept.standsIn (kept : Kept text done) (mem : token ∈ done)
    (counts : token.kind ≠ .newline) : token.StandsIn text := by
  obtain ⟨later, earlier, rfl⟩ := append_of_mem mem
  exact (kept.follow token earlier ⟨later, rfl⟩).resolve_left fun isNewline => counts isNewline.1

/-- The tokens that were read before the position. -/
structure Reached (text : List Char) (pos : Nat) (done : List Token) : Prop extends
    Kept text done where
  earlier : ∀ token ∈ done, token.place < placeAt text pos
  beyond : text.length < pos ↔ ∃ token ∈ done, token.IsOpen text

theorem Reached.skip (reached : Reached text pos done)
    (inside : pos + steps ≤ text.length) : Reached text (pos + steps) done where
  toKept := reached.toKept
  earlier token mem := (reached.earlier token mem).trans_le
    ((strictMono_placeAt text).monotone (Nat.le_add_right pos steps))
  beyond := iff_of_false (by omega) (mt reached.beyond.mpr (by omega))

theorem Reached.push (reached : Reached text pos done) (inside : pos < text.length)
    (isPlace : token.place = placeAt text pos) (positive : 0 < steps)
    (follows : token.Follows text done) (opens : text.length < pos + steps ↔ token.IsOpen text) :
    Reached text (pos + steps) (token :: done) where
  toKept := reached.toKept.push (isPlace ▸ reached.earlier) follows
  earlier := by
    have later := strictMono_placeAt text (show pos < pos + steps by omega)
    exact forall_mem_cons.mpr ⟨isPlace ▸ later, fun other mem =>
      (reached.earlier other mem).trans later⟩
  beyond := by
    have none : ¬∃ token ∈ done, token.IsOpen text := mt reached.beyond.mpr (by omega)
    simp [opens, none]

/-! ### Reading -/

namespace Scan

variable {limit : Option Nat} {cursor : Cursor} {lineStart : Bool} {first : Char}

theorem blockCommentLength?_bounds (found : blockCommentLength? lineStart text = some length) :
    0 < length ∧ length ≤ text.length := by
  induction text generalizing lineStart length with
  | nil => contradiction
  | cons c _ ih =>
    rw [blockCommentLength?] at found
    split at found
    · rename_i isEnd
      obtain rfl : '=' = c := by
        have starts := isPrefixOf_iff_prefix.mp (Bool.and_eq_true_iff.mp isEnd).2
        exact (cons_prefix_cons.mp starts).1
      cases found
      exact ⟨by simp [commentLength], (takeWhile_sublist _).length_le⟩
    · obtain ⟨inner, isInner, rfl⟩ := Option.map_eq_some_iff.mp found
      exact ⟨Nat.succ_pos inner, Nat.succ_le_succ (ih isInner).2⟩

/-- What is recognised is inside the text, or a word that starts it. -/
def Item.Fits (first : Char) (rest : List Char) : Item → Prop
  | .blank more | .comment more => more ≤ rest.length
  | .word lexeme => IsWrittenIn (first :: rest) lexeme
  | .newline | .stop => True

theorem fits_item (isItem : item limit cursor spaced previous first rest = .ok found) :
    found.Fits first rest := by
  dsimp only [item] at isItem
  split at isItem
  · cases isItem
    exact Nat.zero_le _
  split at isItem
  · rename_i isBroken
    cases isItem
    cases rest with
    | nil => simp at isBroken
    | cons => exact Nat.succ_le_succ (Nat.zero_le _)
  split at isItem
  · cases isItem
    trivial
  split at isItem
  · split at isItem
    · rename_i found
      cases isItem
      exact Nat.sub_le_of_le_add (blockCommentLength?_bounds found).2
    · contradiction
  split at isItem
  · cases isItem
    exact (takeWhile_sublist _).length_le
  split at isItem
  · cases isItem
    trivial
  · split at isItem
    · rename_i reads
      cases isItem
      exact Lexeme.isWrittenIn_of_read reads
    · contradiction
    · contradiction
    · contradiction

/-- What is left at a position inside the text, and the place there. -/
theorem take_append_of_rest (found : ((Cursor.start text).move pos).rest = first :: rest) :
    pos + (rest.length + 1) = text.length ∧ text = text.take pos ++ first :: rest ∧
      placeAt text pos = placeAfter (text.take pos) := by
  have isDrop : text.drop pos = first :: rest := (Cursor.rest_move _ _).symm.trans found
  have isText : text = text.take pos ++ first :: rest := by rw [← isDrop, take_append_drop]
  have isLength := congrArg length isDrop
  rw [length_drop, length_cons] at isLength
  have isTaken : (text.take pos).length = pos := by
    rw [length_take]
    omega
  refine ⟨by omega, isText, ?_⟩
  rw [← placeAt_append (text.take pos) (first :: rest), ← isText, isTaken]

theorem reached_withNewline (reached : Reached text pos done) (inside : pos < text.length) :
    Reached text (pos + 1) (withNewline done ((Cursor.start text).move pos).line
      ((Cursor.start text).move pos).column) := by
  unfold withNewline
  split
  · rename_i endsLine
    refine reached.push inside rfl Nat.one_pos (.inl ⟨rfl, endsLine⟩) ?_
    simp [Token.IsOpen]
    omega
  · exact reached.skip inside

theorem steps_pos_of_isWrittenIn (isWritten : IsWrittenIn text lexeme) : 0 < lexeme.steps := by
  obtain ⟨_, _, -, _, written⟩ := isWritten
  have nonempty := length_pos_iff.mpr written.ne_nil
  omega

theorem reached_of_tokensFrom (reached : Reached text pos done)
    (isCursor : cursor = (Cursor.start text).move pos)
    (scanned : tokensFrom limit cursor spaced done = .ok stream) :
    ∃ pos done, Reached text pos done ∧ stream = finish ((Cursor.start text).move pos) done := by
  -- Only the last word can be read beyond the text: there the cursor has nothing left.
  fun_induction tokensFrom limit cursor spaced done generalizing pos with
  | case1 _ _ done _ =>
    cases scanned
    exact ⟨pos, done, reached, by rw [isCursor]⟩
  | case2 _ _ _ _ _ _ _ _ _ => contradiction
  | case3 cursor spaced done first rest found nonempty more isSilent ih
  | case4 cursor spaced done first rest found nonempty more isSilent ih =>
    subst isCursor
    obtain ⟨_, -⟩ := take_append_of_rest found
    have fits : more ≤ rest.length := fits_item isSilent
    exact ih (reached.skip (by omega)) (Cursor.move_move _ _ _) scanned
  | case5 cursor spaced done first rest found nonempty isNewline ih =>
    subst isCursor
    obtain ⟨_, -⟩ := take_append_of_rest found
    exact ih (reached_withNewline reached (by omega)) (Cursor.move_move _ _ _) scanned
  | case6 _ _ done _ _ _ _ _ =>
    cases scanned
    exact ⟨pos, done, reached, by rw [isCursor]⟩
  | case7 cursor spaced done first rest found nonempty lexeme isWord token =>
    rename_i ih
    subst isCursor
    obtain ⟨_, isText, isPlace⟩ := take_append_of_rest found
    have isWritten : IsWrittenIn (first :: rest) lexeme := fits_item isWord
    have stands : token.StandsIn _ := standsIn_of_isWrittenIn isWritten rfl rfl isPlace
    have opens : _ ↔ token.IsOpen _ := isOpen_iff_of_isWrittenIn isWritten rfl rfl isPlace
    rw [← isText] at stands opens
    refine ih (reached.push (by omega) rfl (Nat.succ_pos _) (.inr stands) (Iff.trans ?_ opens))
      (Cursor.move_move _ _ _) scanned
    rw [length_cons]
    omega

theorem mem_finish : token ∈ (finish cursor done).pending ↔ token ∈ done ∨
    endsLine (done.head?.map Token.kind) ∧
      token = ⟨.newline, "\n", cursor.line, cursor.column, false⟩ := by
  unfold finish withNewline
  split <;> simp_all

theorem exists_of_endsLine (endsLine : endsLine previous) :
    ∃ kind, previous = some kind ∧ kind ≠ .newline ∧ kind ≠ .mark .semicolon ∧
      kind.continuesLine = false := by
  unfold Scan.endsLine at endsLine
  split at endsLine
  · contradiction
  · contradiction
  · contradiction
  · rename_i kind notNewline notSemicolon
    exact ⟨kind, rfl, notNewline, notSemicolon, by simpa using endsLine⟩

end Scan

/-- The tokens of a text in their order. There is one end of the input, behind the others. Line
ends follow tokens that can end a line. Places increase, but for a last line end at the end of the
input. All but line ends stand where they begin. -/
structure TokenStream.InOrder (text : List Char) (stream : TokenStream) : Prop where
  last : stream.last.kind = .endOfInput
  once : ∀ token ∈ stream.pending, token.kind ≠ .endOfInput
  lines : ∀ before token after, stream.pending = before ++ token :: after → token.kind = .newline →
    ∃ previous ∈ before.getLast?, previous.kind ≠ .newline ∧ previous.kind ≠ .mark .semicolon ∧
      previous.kind.continuesLine = false
  ordered : stream.pending.Pairwise fun earlier later => earlier.place < later.place
  beforeEnd : ∀ token ∈ stream.pending, token.place < stream.last.place ∨
    stream.pending.getLast? = some token ∧ token.kind = .newline ∧ token.place = stream.last.place
  stand : ∀ token ∈ stream.pending, token.kind ≠ .newline → token.StandsIn text

theorem Reached.inOrder (reached : Reached text pos done) :
    (Scan.finish ((Cursor.start text).move pos) done).InOrder text := by
  have kept : Kept text (Scan.withNewline done ((Cursor.start text).move pos).line
      ((Cursor.start text).move pos).column) := by
    unfold Scan.withNewline
    split
    · rename_i endsLine
      exact reached.toKept.push reached.earlier (.inl ⟨rfl, endsLine⟩)
    · exact reached.toKept
  have stand : ∀ token ∈ (Scan.finish ((Cursor.start text).move pos) done).pending,
      token.kind ≠ .newline → token.StandsIn text :=
    fun token mem => kept.standsIn (mem_reverse.mp mem)
  refine ⟨rfl, fun token mem isEnd => ?_, fun before token after isPending isNewline => ?_,
    pairwise_reverse.mpr kept.ordered, fun token mem => ?_, stand⟩
  · -- No character begins an end of the input.
    obtain ⟨_, _, _, -, -, begins, -⟩ := stand token mem (by simp [isEnd])
    rwa [isEnd] at begins
  · have isDone := congrArg reverse isPending
    rw [Scan.finish, reverse_reverse, reverse_append, reverse_cons, append_assoc] at isDone
    obtain ⟨-, endsLine⟩ | ⟨_, _, _, -, -, begins, -⟩ :=
      kept.follow token before.reverse ⟨after.reverse, isDone.symm⟩
    · obtain ⟨_, isKind, ends⟩ := Scan.exists_of_endsLine endsLine
      rw [head?_reverse] at isKind
      obtain ⟨previous, isPrevious, rfl⟩ := Option.map_eq_some_iff.mp isKind
      exact ⟨previous, isPrevious, ends⟩
    · rw [isNewline] at begins
      contradiction
  · obtain mem | ⟨endsLine, rfl⟩ := Scan.mem_finish.mp mem
    · exact .inl (reached.earlier token mem)
    · exact .inr ⟨by simp [Scan.finish, Scan.withNewline, endsLine], rfl, rfl⟩

theorem Reached.nil : Reached text 0 [] where
  ordered := .nil
  follow := by simp
  earlier := by simp
  beyond := by simp

theorem reached_of_scan (scanned : scan source = .ok stream) :
    ∃ pos done, Reached source.toList pos done ∧
      stream = Scan.finish ((Cursor.start source.toList).move pos) done :=
  Scan.reached_of_tokensFrom .nil rfl scanned

/-- Reading a word or a comment over several lines takes at least one character, and the tokens
that scanning returns are in order. -/
theorem scan_inOrder (source : String) :
    (∀ limit symbolAllowed afterDot first rest lexeme,
      Lexeme.read limit symbolAllowed afterDot first rest = .ok lexeme → 0 < lexeme.steps) ∧
    (∀ lineStart text length, Scan.blockCommentLength? lineStart text = some length → 0 < length) ∧
    ∀ stream, scan source = .ok stream → stream.InOrder source.toList := by
  refine ⟨fun _ _ _ _ _ _ reads => ?_, fun _ _ _ found => ?_, fun stream scanned => ?_⟩
  · exact Scan.steps_pos_of_isWrittenIn (Lexeme.isWrittenIn_of_read reads)
  · exact (Scan.blockCommentLength?_bounds found).1
  · obtain ⟨_, _, reached, rfl⟩ := reached_of_scan scanned
    exact reached.inOrder

theorem scan_inOrder_assignment :
    ∃ stream, scan "x = 1\n" = .ok stream ∧ stream.InOrder "x = 1\n".toList := by
  have isOk : (scan "x = 1\n").isOk := by decide +kernel
  cases scanned : scan "x = 1\n" with
  | error => simp [scanned, Except.toBool] at isOk
  | ok stream => exact ⟨stream, rfl, (scan_inOrder _).2.2 stream scanned⟩

/-- Scanning stops behind what was read, and inside the text, unless it ends in an open word. A
symbol without a name has empty quotes or is an open word. -/
theorem scan_end {source : String} (scanned : scan source = .ok stream) :
    ∃ pos, stream.last.place = placeAt source.toList pos ∧
      (pos ≤ source.toList.length ↔ ∀ token ∈ stream.pending, ¬token.IsOpen source.toList) ∧
      (stream.last.place = placeAfter (source.toList.take pos) ↔
        ∀ token ∈ stream.pending, ¬token.IsOpen source.toList) ∧
      ∀ token ∈ stream.pending, token.kind = .symbol → token.value = "" →
        token.IsOpen source.toList ∨ ∃ before quote after, quote ∈ ['"', '\''] ∧
          source.toList = before ++ ':' :: quote :: quote :: after ∧
          token.place = placeAfter before := by
  obtain ⟨pos, done, reached, rfl⟩ := reached_of_scan scanned
  generalize source.toList = text at reached ⊢
  have inside : pos ≤ text.length ↔
      ∀ token ∈ (Scan.finish ((Cursor.start text).move pos) done).pending, ¬token.IsOpen text := by
    rw [← Nat.not_lt, reached.beyond]
    simp only [Scan.mem_finish, or_imp, forall_and, not_exists, not_and, iff_self_and]
    rintro - token ⟨-, rfl⟩
    simp [Token.IsOpen]
  refine ⟨pos, rfl, inside, Iff.trans ?_ inside, ?_⟩
  · have isPlace := placeAt_append (text.take pos) (text.drop pos)
    rw [take_append_drop, length_take] at isPlace
    rw [← isPlace]
    refine ((strictMono_placeAt text).injective.eq_iff).trans ?_
    omega
  · intro token member isSymbol isEmpty
    have member : token ∈ done := by
      refine (Scan.mem_finish.mp member).resolve_right ?_
      rintro ⟨-, rfl⟩
      contradiction
    obtain ⟨before, first, _, rfl, isPlace, begins, ends⟩ :=
      reached.standsIn member (by simp [isSymbol])
    rw [isSymbol] at begins
    obtain rfl : first = ':' := begins
    obtain rfl | ⟨quote, isQuote, after, rfl⟩ := ends isSymbol isEmpty
    · exact .inl (.inl ⟨isSymbol, before, rfl, isPlace⟩)
    · exact .inr ⟨before, quote, after, isQuote, rfl, isPlace⟩

theorem scan_end_name :
    ∃ stream, scan "fee = 2 # rate\n@fee" = .ok stream ∧ ∃ pos,
      stream.last.place = placeAt "fee = 2 # rate\n@fee".toList pos ∧
      (pos ≤ 19 ↔ ∀ token ∈ stream.pending, ¬token.IsOpen "fee = 2 # rate\n@fee".toList) := by
  have isOk : (scan "fee = 2 # rate\n@fee").isOk := by decide +kernel
  cases scanned : scan "fee = 2 # rate\n@fee" with
  | error => simp [scanned, Except.toBool] at isOk
  | ok stream =>
    obtain ⟨pos, isPlace, inside, -⟩ := scan_end scanned
    exact ⟨stream, rfl, pos, isPlace, inside⟩

/-- A colon at the end is read three characters wide, as a symbol without a name. -/
theorem scan_end_colon :
    ((scan ":").map fun stream => (stream.pending.map fun token => (token.kind, token.value),
      stream.last.line, stream.last.column)).toOption =
      some ([(.symbol, ""), (.newline, "\n")], 1, 4) ∧ placeAfter [':'] = toLex (1, 2) := by
  decide +kernel

end ContractForge
