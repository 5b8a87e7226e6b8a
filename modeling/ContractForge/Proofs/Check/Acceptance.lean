import ContractForge.Check.Findings
import ContractForge.Proofs.Check.Scrubbing
import ContractForge.Proofs.Syntax.Reading

/-!
# Programs that are accepted

The check of a source looks at its text, before it is read. Where the check sees the
pieces of the text as the scanner does, what it says about the text holds of the
program: none of the names that it forbids is in the tree, and the tree has the class
and the constructor that it found (`program_of_accepted`).
-/

namespace ContractForge

open Text Check Parse Node List

variable {word rest back name start text others : List Char} {front : List Token}
  {program node : Node} {token next : Token} {here? : Option Char → List Char → Option String}
  {words names : List String} {piece : Piece}

/-- Where a word that opens a definition is seen in the piece, the piece is the keyword or a
label. -/
def Piece.IsOpen (piece : Piece) : Prop :=
  ∀ keyword ∈ [Keyword.classKw, Keyword.defKw],
    anywhere (wordHere keyword.spelling) none (scrub piece.text) = true →
      ∃ token ∈ piece.token?, token.kind = .keyword keyword ∨ token.kind = .label

/-! ### What is accepted -/

theorem checkSource_eq_nil (accepted : checkSource source = []) :
    atSomeLine definesClass (scrub source.toList) ∧
      anywhere definesConstructor none (scrub source.toList) ∧
      findAll evaluatorHere? (scrub source.toList) = [] ∧
      findAll launcherHere? (scrub source.toList) = [] := by
  simpa [checkSource] using accepted

/-! ### Tokens and their pieces -/

variable {source : String} {stream : TokenStream}

theorem exists_stream_of_parse (parsed : parse source = .ok program) :
    ∃ stream, scan source = .ok stream ∧ parseTokens stream = .ok program := by
  unfold parse parseWithin at parsed
  cases scanned : scanWithin (some digitLimit) source with
  | error =>
    rw [scanned] at parsed
    contradiction
  | ok stream =>
    rw [scanned] at parsed
    exact ⟨stream, scanned, parsed⟩

theorem covers_of_scan (scanned : scan source = .ok stream)
    (parsed : parseTokens stream = .ok program) : Covers stream.pending [program] := by
  have scans := scans_pieces scanned
  refine covers_of_parseTokensWithin scans.last ?_ parsed
  obtain ⟨_, isPending, areEnds⟩ := scans.tokens
  intro token mem
  rw [isPending, nil_append, mem_append, mem_filterMap] at mem
  obtain ⟨piece, isPiece, isToken⟩ | isEnd := mem
  · exact (scans.cuts.formed piece isPiece).kind_ne isToken
  · simp [areEnds token isEnd]

/-! ### Names -/

theorem areWords_evaluators : evaluators.all isWord := rfl

theorem areWords_launchers : launchers.all isWord := rfl

theorem starts_of_mayEndWith
    (may : ∀ c, previous = some c → MayEndWith rest isDot c) (begins : endsWord rest = false) :
    startsWord previous ∧ (¬isDot → startsBare previous) := by
  cases previous with
  | none => exact ⟨rfl, fun _ => rfl⟩
  | some c =>
    obtain ⟨word, notAt, point⟩ := may c rfl
    have notWord : isWordChar c = false := by simpa [begins] using word
    refine ⟨by simp [startsWord, notWord], fun noDot => ?_⟩
    have notPoint : c ≠ '.' := fun isPoint => noDot (point isPoint)
    simp [startsBare, notWord, notAt, notPoint]

/-- If a search finds nothing, then nothing is found where a word stands. -/
theorem eq_none_of_findAll {front : List Char}
    (nonempty : word ≠ []) (nothing : findAll here? (front ++ (word ++ rest)) = []) :
    here? front.getLast? (word ++ rest) = none := by
  obtain ⟨_, _, rfl⟩ := exists_cons_of_ne_nil nonempty
  have here := findAllFrom_eq_nil nothing
  rwa [Option.or_none] at here

/-- A name that a token gives stands in the text that is checked as a word of its own, and behind
no point unless the token stands behind a dot. A search that finds nothing does not find it. -/
theorem exists_place_of_name (scanned : scan source = .ok stream)
    (seen : ∀ piece ∈ pieces source, piece.IsSeen) {back : List Token}
    (isPending : stream.pending = front ++ token :: back) (isName : token.IsName)
    (areWords : words.all isWord) (mem : token.value ∈ words)
    (nothing : findAll here? (scrub source.toList) = []) :
    ∃ previous rest, here? previous (token.value.toList ++ rest) = none ∧
      endsWord rest ∧ startsWord previous ∧
      (¬EndsInDot front → startsBare previous) := by
  have isWord := isWord_iff.mp (all_eq_true.mp areWords _ mem)
  have scans := scans_pieces scanned
  have counts : token.kind ≠ .newline := by obtain isName | isName := isName <;> simp [isName]
  obtain ⟨first, piece, later, ends, isPieces, isToken, rfl, -, -⟩ :=
    scans.exists_piece isPending counts
  have cuts := scans.cuts
  rw [isPieces] at seen cuts
  have formed : piece.Formed := cuts.formed piece (by simp)
  obtain ⟨nonempty, isNameText, isValue⟩ :=
    (formed.written isToken counts).isNameText (isName.imp_right .inl)
  obtain _ | ⟨-, follows, laterCuts⟩ := cuts.later
  have isText : token.value.toList = piece.text := by rw [isValue, String.toList_ofList]
  have isPlain := scrub_plain (isPlainText_of_isNameText isNameText)
  have begins : endsWord ((piece :: later).flatMap Piece.text) = false := by
    obtain ⟨_, _, isOthers⟩ := exists_cons_of_ne_nil (formed.written isToken counts).ne_nil
    simpa [endsWord, isOthers] using nonempty
  have starts := starts_of_mayEndWith (fun c isLast => mayEndWith_scrubbed cuts
    (fun other mem => seen other (by simp [mem])) isLast) begins
  refine ⟨(scrubbed first).getLast?, scrubbed later, ?_, ?_, ?_, ?_⟩
  · rw [← scans.text, isPieces, scrub_pieces cuts seen, scrubbed_append, scrubbed_cons, isPlain,
      ← isText] at nothing
    exact eq_none_of_findAll isWord.1 nothing
  · have ends := isNameText.ends (isText ▸ isWord.2)
    rw [← scrub_pieces laterCuts fun other mem => seen other (by simp [mem]), ← follows]
    exact endsWord_scrub ends
  · exact starts.1
  · exact starts.2

section

variable {back : List Token} (accepted : checkSource source = [])
  (scanned : scan source = .ok stream)
  (seen : ∀ piece ∈ pieces source, piece.IsSeen)
  (isPending : stream.pending = front ++ token :: back) (isName : token.IsName)
include accepted scanned seen isPending isName

theorem not_evaluator : token.value ∉ evaluators := by
  intro mem
  obtain ⟨_, _, here, ends, starts, -⟩ := exists_place_of_name scanned seen isPending
    isName areWords_evaluators mem (checkSource_eq_nil accepted).2.2.1
  have absent := find?_eq_none.mp here _ mem
  simp [wordHere, starts, after?_eq_some.mpr rfl, ends] at absent

theorem not_launcher (bare : ¬EndsInDot front) : token.value ∉ launchers := by
  intro mem
  obtain ⟨_, _, here, ends, -, starts⟩ := exists_place_of_name scanned seen isPending
    isName areWords_launchers mem (checkSource_eq_nil accepted).2.2.2
  have notBare := (Option.or_eq_none_iff.mp (Option.or_eq_none_iff.mp here).2).1
  have absent := find?_eq_none.mp notBare _ mem
  simp [starts bare, after?_eq_some.mpr rfl, ends] at absent

end

/-! ### Definitions -/

/-- A word that a label is made of is followed by no white space. -/
theorem not_isSpace_behind_label
    (areWords : ∀ c ∈ name, isWordChar c) (isText : name ++ [':'] = start ++ word ++ rest)
    (last : word.getLast? ≠ some ':') (nonempty : word ≠ []) :
    ∃ c, rest.head? = some c ∧ isSpace c = false := by
  cases rest with
  | nil =>
    have isLast := congrArg List.getLast? isText
    obtain ⟨_, isWordLast⟩ := Option.isSome_iff_exists.mp (getLast?_isSome.mpr nonempty)
    rw [append_nil, getLast?_concat, getLast?_append, isWordLast, Option.some_or] at isLast
    exact absurd (isWordLast.trans isLast.symm) last
  | cons c =>
    refine ⟨c, rfl, ?_⟩
    have mem : c ∈ name ++ [':'] := by simp [isText]
    obtain isWord | isColon := mem_append.mp mem
    · exact isSpace_of_isWordChar (areWords c isWord)
    · obtain rfl := mem_singleton.mp isColon
      rfl

/-- Where the check sees a word that opens a definition, with white space behind it, there is the
keyword. -/
theorem exists_keyword (scanned : scan source = .ok stream)
    (seen : ∀ piece ∈ pieces source, piece.IsSeen) (opened : ∀ piece ∈ pieces source, piece.IsOpen)
    (isOpening : keyword ∈ [Keyword.classKw, Keyword.defKw]) {front : List Char}
    (isText : scrub source.toList = front ++ (keyword.spelling.toList ++ back))
    (starts : startsWord front.getLast?) (spaced : back.head?.any isSpace) :
    ∃ first piece later token rest, pieces source = first ++ piece :: later ∧
      piece.token? = some token ∧ token.kind = .keyword keyword ∧
      back = rest ++ scrubbed later ∧ rest <:+ scrub piece.text := by
  have scans := scans_pieces scanned
  rw [← scans.text, scrub_pieces scans.cuts seen] at isText
  obtain ⟨isWord, last⟩ : isWord keyword.spelling ∧
      keyword.spelling.toList.getLast? ≠ some ':' := by
    simp only [mem_cons, not_mem_nil, or_false] at isOpening
    obtain rfl | rfl := isOpening
    all_goals exact ⟨rfl, nofun⟩
  obtain ⟨nonempty, areWords⟩ := isWord_iff.mp isWord
  obtain ⟨first, piece, later, start, rest, isPieces, isPiece, rfl, rfl⟩ :=
    standsIn_of_word scans.cuts seen nonempty areWords isText
  have startsHere : startsWord start.getLast? := by
    cases isLast : start.getLast? with
    | none => rfl
    | some => simpa [isLast] using starts
  have endsHere : endsWord rest := by
    cases rest with
    | nil => rfl
    | cons c =>
      have isSpace : isSpace c := by simpa using spaced
      cases isWord : isWordChar c with
      | false => simp [endsWord, isWord]
      | true => simp [isSpace_of_isWordChar isWord] at isSpace
  have mem : piece ∈ pieces source := by simp [isPieces]
  have stands : anywhere (wordHere keyword.spelling) none (scrub piece.text) := by
    rw [isPiece, append_assoc]
    apply anywhere_of_append
    simp [wordHere, startsHere, after?_eq_some.mpr rfl, endsHere]
  obtain ⟨token, isToken, isKeyword | isLabel⟩ := opened piece mem keyword isOpening stands
  · exact ⟨first, piece, later, token, rest, isPieces, isToken, isKeyword, rfl,
      ⟨start ++ keyword.spelling.toList, isPiece.symm⟩⟩
  · have formed := scans.cuts.formed piece mem
    have written := formed.written isToken (by simp [isLabel])
    obtain ⟨_, isName, areName⟩ := written.isLabel isLabel
    rw [isName, scrub_plain (isPlainText_label areName)] at isPiece
    obtain ⟨_, isHead, notSpace⟩ := not_isSpace_behind_label areName isPiece last nonempty
    simp [isHead, notSpace] at spaced

/-- A piece without a token is white space or starts with a backslash. -/
theorem isSpace_of_silent (formed : piece.Formed) (seen : piece.IsSeen)
    (silent : piece.token? = none) :
    (∀ c ∈ scrub piece.text, isSpace c) ∨ (scrub piece.text).head? = some '\\' := by
  cases formed with
  | word isToken => simp [silent] at isToken
  | blank isText =>
    rw [scrub_plain (isPlainText_blank isText)]
    simp only [mem_cons, not_mem_nil, or_false] at isText
    obtain isText | isText | isText | isText := isText
    · exact .inl (by simp [isText]; rfl)
    · exact .inl (by simp [isText]; rfl)
    · exact .inl (by simp [isText]; rfl)
    · exact .inr (by simp [isText])
  | comment isText isContent =>
    left
    intro c mem
    rw [isText] at mem
    obtain rfl := scrub_comment isContent c mem
    rfl
  | newline isText =>
    left
    rw [isText]
    intro c mem
    obtain rfl : c = '\n' := by simpa [scrub, scrubWith, noise?] using mem
    rfl
  | skipped isSkipped => simp [seen.shown] at isSkipped

/-- What follows the white space that pieces without tokens leave, unless a backslash follows. -/
theorem dropWhile_scrubbed {silent : List Piece} {back : List Char}
    (formed : ∀ piece ∈ silent, piece.Formed) (seen : ∀ piece ∈ silent, piece.IsSeen)
    (areSilent : ∀ piece ∈ silent, piece.token? = none) :
    (scrubbed silent ++ back).dropWhile isSpace = back.dropWhile isSpace ∨
      ((scrubbed silent ++ back).dropWhile isSpace).head? = some '\\' := by
  induction silent with
  | nil => exact .inl rfl
  | cons _ _ ih =>
    rw [forall_mem_cons] at formed seen areSilent
    rw [scrubbed_cons, append_assoc]
    obtain areSpaces | isBackslash := isSpace_of_silent formed.1 seen.1 areSilent.1
    · rw [dropWhile_append_of_pos areSpaces]
      exact ih formed.2 seen.2 areSilent.2
    · right
      obtain ⟨_, isTail⟩ := head?_eq_some_iff.mp isBackslash
      rw [isTail, cons_append, dropWhile_cons_of_neg (by decide)]
      rfl

/-- A name in front of the end of a word is that word, or the word with a mark. -/
theorem eq_or_marked_of_append (isName : IsNameText rest text)
    (ends : endsWord rest → endsWord others)
    (areWords : ∀ c ∈ word, isWordChar c) (stops : endsWord back)
    (isText : text ++ others = word ++ back) :
    text = word ∨ text = word ++ ['?'] ∨ text = word ++ ['!'] := by
  have takes {front next : List Char} (areFront : ∀ c ∈ front, isWordChar c)
      (isEnd : endsWord next) : (front ++ next).takeWhile isWordChar = front := by
    rw [takeWhile_append_of_pos areFront]
    cases next with
    | nil => simp
    | cons c => simp [show isWordChar c = false by simpa [endsWord] using isEnd]
  have isWord := takes areWords stops
  cases isName with
  | plain areText isEnd =>
    left
    rw [← isWord, ← isText, takes areText (ends isEnd)]
  | @marked run mark areRun isMark =>
    have isEnd : endsWord (mark :: others) := by obtain rfl | rfl := isMark <;> rfl
    have isRun : run = word := by
      rw [← isWord, ← isText, append_assoc, singleton_append, takes areRun isEnd]
    obtain rfl | rfl := isMark <;> simp [isRun]

/-- The keyword of a method that the check sees in front of the name of constructors is followed by
the token of that name, or of that name with a mark. -/
theorem exists_constructor_name (scanned : scan source = .ok stream)
    (seen : ∀ piece ∈ pieces source, piece.IsSeen)
    (isPieces : pieces source = first ++ piece :: later) (isBack : scrubbed later = back)
    (isSpaced : back.dropWhile isSpace = "initialize".toList ++ name) (ends : endsWord name)
    {rest : List Token} (isName : next.IsName)
    (isNext : later.filterMap Piece.token? = next :: rest) :
    next.value ∈ ["initialize", "initialize?", "initialize!"] := by
  have scans := scans_pieces scanned
  obtain ⟨silent, named, others, rfl, areSilent, isToken, -⟩ := filterMap_eq_cons_iff.mp isNext
  have cuts := scans.cuts
  rw [isPieces] at seen cuts
  have formed := cuts.formed
  have counts : next.kind ≠ .newline := by obtain isName | isName := isName <;> simp [isName]
  have isFormed : named.Formed := formed named (by simp)
  obtain ⟨_, isNameText, isValue⟩ :=
    (isFormed.written isToken counts).isNameText (isName.imp_right .inl)
  have isPlain := scrub_plain (isPlainText_of_isNameText isNameText)
  subst isBack
  rw [scrubbed_append, scrubbed_cons, isPlain] at isSpaced
  have skipped := @dropWhile_scrubbed silent (named.text ++ scrubbed others)
    (fun other mem => formed other (by simp [mem]))
    (fun other mem => seen other (by simp [mem])) areSilent
  have starts : (named.text ++ scrubbed others).dropWhile isSpace =
      named.text ++ scrubbed others := by
    obtain ⟨c, _, isTail⟩ := exists_cons_of_ne_nil (isFormed.written isToken counts).ne_nil
    have notSpace := not_isSpace_of_isNameText isNameText c (by simp [isTail])
    rw [isTail, cons_append, dropWhile_cons_of_neg (by simp [notSpace])]
  rw [isSpaced] at skipped
  obtain isText | isBackslash := skipped
  · rw [starts] at isText
    have isSplit : first ++ piece :: (silent ++ named :: others) =
        (first ++ piece :: silent) ++ named :: others := by simp
    rw [isSplit] at cuts
    obtain _ | ⟨-, follows, otherCuts⟩ := cuts.later
    have endsLater (isEnd : endsWord named.rest) : endsWord (scrubbed others) := by
      rw [← scrub_pieces otherCuts fun other mem => seen other (by simp [mem]), ← follows]
      exact endsWord_scrub isEnd
    have areWords : "initialize".toList.all isWordChar := rfl
    have found := eq_or_marked_of_append isNameText endsLater (all_eq_true.mp areWords) ends
      isText.symm
    rw [isValue]
    obtain isText | isText | isText := found <;> rw [isText] <;> decide
  · cases isBackslash

/-- The marks that a method's name can end with. -/
def nameMarks : List String :=
  ["?", "!", "=", "?=", "!="]

section

variable (accepted : checkSource source = []) (scanned : scan source = .ok stream)
  (covers : Covers stream.pending [program]) (seen : ∀ piece ∈ pieces source, piece.IsSeen)
  (opened : ∀ piece ∈ pieces source, piece.IsOpen)
include accepted scanned covers seen opened

theorem holds_class : ∃ node ∈ program.walk, node.kind = .classDef := by
  have scans := scans_pieces scanned
  obtain ⟨front, rest, isText, atStart⟩ := anywhere_eq_true (checkSource_eq_nil accepted).1
  obtain ⟨isStart, defines⟩ := Bool.and_eq_true_iff.mp atStart
  obtain ⟨_, isName, -⟩ := (Option.any_eq_true _ _).mp defines
  obtain ⟨back, isBack, isSpaced⟩ := Option.bind_eq_some_iff.mp isName
  rw [← takeWhile_append_dropWhile (p := isSpace) (l := rest),
    after?_eq_some.mp isBack, ← append_assoc] at isText
  have starts : startsWord (front ++ rest.takeWhile isSpace).getLast? := by
    rw [getLast?_append]
    cases isLast : (rest.takeWhile isSpace).getLast? with
    | some c =>
      have isSpace := all_eq_true.mp all_takeWhile c (mem_of_getLast? isLast)
      cases isWord : isWordChar c with
      | false => simp [startsWord, isWord]
      | true => simp [isSpace_of_isWordChar isWord] at isSpace
    | none =>
      cases previous : front.getLast? with
      | none => rfl
      | some c =>
        obtain rfl : c = '\n' := by simpa [previous] using isStart
        rfl
  have spaced : back.head?.any isSpace := by
    unfold afterSpaces? at isSpaced
    split at isSpaced
    · assumption
    · contradiction
  obtain ⟨_, _, _, token, -, isPieces, isToken, isClass, -⟩ :=
    exists_keyword scanned seen opened mem_cons_self isText starts spaced
  obtain ⟨_, isPending, -⟩ := scans.tokens
  have mem : token ∈ stream.pending := by simp [isPending, isPieces, isToken]
  obtain ⟨node, isNode, isClass⟩ := covers.classes token mem isClass
  exact ⟨node, (mem_notables.mp isNode).1, isClass⟩

theorem holds_constructor :
    ∃ node ∈ program.walk, ∃ mark ∈ "" :: nameMarks, node.DefinesMethod ("initialize" ++ mark) := by
  have scans := scans_pieces scanned
  obtain ⟨_, rest, isText, defines⟩ := anywhere_eq_true (checkSource_eq_nil accepted).2.1
  obtain ⟨starts, defines⟩ := Bool.and_eq_true_iff.mp defines
  rw [Option.or_none] at starts
  obtain ⟨_, isName, stops⟩ := (Option.any_eq_true _ _).mp defines
  obtain ⟨word, isWord, behind⟩ := Option.bind_eq_some_iff.mp isName
  obtain ⟨back, isBack, isSpaced⟩ := Option.bind_eq_some_iff.mp isWord
  rw [after?_eq_some.mp isBack] at isText
  obtain ⟨spaced, rfl⟩ : back.head?.any isSpace ∧ back.dropWhile isSpace = word := by
    simpa [afterSpaces?] using isSpaced
  have isOpening : Keyword.defKw ∈ [Keyword.classKw, Keyword.defKw] := by simp
  obtain ⟨first, piece, later, token, tail, isPieces, isToken, isDef, isBack, isTail⟩ :=
    exists_keyword scanned seen opened isOpening isText starts spaced
  have mem : piece ∈ pieces source := by simp [isPieces]
  have written := (scans.cuts.formed piece mem).written isToken (by simp [isDef])
  obtain ⟨-, isNameText, -⟩ := written.isNameText (.inr (.inr ⟨_, isDef⟩))
  have isEmpty : tail = [] := by
    cases tail with
    | nil => rfl
    | cons c =>
      rw [scrub_plain (isPlainText_of_isNameText isNameText)] at isTail
      have notSpace := not_isSpace_of_isNameText isNameText c (isTail.subset mem_cons_self)
      simp [isBack, notSpace] at spaced
  subst isEmpty
  obtain ⟨ends, isPending, areEnds⟩ := scans.tokens
  have isSplit : stream.pending = first.filterMap Piece.token? ++
      token :: (later.filterMap Piece.token? ++ ends) := by
    simp [isPending, isPieces, isToken]
  obtain ⟨next, _, isNext, isName, node, isNode, defines⟩ := covers.methods _ _ _ isSplit isDef
  have counts : next.kind ≠ .newline := by obtain isName | isName := isName <;> simp [isName]
  obtain ⟨rest, isLater⟩ : ∃ rest, later.filterMap Piece.token? = next :: rest := by
    cases isLater : later.filterMap Piece.token? with
    | nil =>
      rw [isLater, nil_append] at isNext
      exact absurd (areEnds next (by simp [isNext])) counts
    | cons _ rest =>
      rw [isLater, cons_append] at isNext
      exact ⟨rest, by rw [(List.cons.inj isNext).1]⟩
  have isValue := exists_constructor_name scanned seen isPieces isBack.symm
    (after?_eq_some.mp behind) stops isName isLater
  refine ⟨node, (mem_notables.mp isNode).1, ?_⟩
  simp only [mem_cons, not_mem_nil, or_false] at isValue
  obtain isValue | isValue | isValue := isValue <;> rw [isValue] at defines
  · obtain defines | defines := defines
    · exact ⟨"", by decide, defines⟩
    · exact ⟨"=", by decide, defines⟩
  · obtain defines | defines := defines
    · exact ⟨"?", by decide, defines⟩
    · exact ⟨"?=", by decide, defines⟩
  · obtain defines | defines := defines
    · exact ⟨"!", by decide, defines⟩
    · exact ⟨"!=", by decide, defines⟩

end

theorem forall_name_of_covers
    (covers : Covers stream.pending [program]) (areWords : names.all isWord)
    (mem : node ∈ program.walk) (isName : node.IsName)
    (absent : ∀ front token back, stream.pending = front ++ token :: back → token.IsName →
      (node.kind ≠ .methodCall → ¬EndsInDot front) → token.value ∉ names) :
    ∀ name ∈ names, node.payload ≠ .text name := by
  intro name isOne isPayload
  have isNotable : node.kind.isNotable := by
    obtain isKind | isKind | isKind := isName <;> simp [isKind]
  obtain ⟨front, token, back, isPending, isToken, isText, bare⟩ :=
    covers.names node (mem_notables.mpr ⟨mem, isNotable⟩) isName
  rw [isPayload] at isText
  obtain isText | isText := isText
  · obtain rfl := Payload.text.inj isText
    exact absent front token back isPending isToken bare isOne
  · -- A word does not end with the sign of setters.
    have isSign : '=' ∈ name.toList := by simp [Payload.text.inj isText]
    have isWord := (isWord_iff.mp (all_eq_true.mp areWords _ isOne)).2 _ isSign
    cases isWord

/-- If a source is accepted and read, and the check sees its pieces as the scanner does, then no
name in the program is that of a method that evaluates code, and no variable and no call without
receiver is named like a method that starts programs. If in addition the words that open definitions
are the keywords, and no method is named like a constructor with a mark, then there are a class and
a constructor. -/
theorem program_of_accepted {program : Node} (accepted : checkSource source = [])
    (parsed : parse source = .ok program) (seen : ∀ piece ∈ pieces source, piece.IsSeen) :
    (∀ node ∈ program.walk, node.IsName → ∀ name ∈ evaluators, node.payload ≠ .text name) ∧
      (∀ node ∈ program.walk, node.kind = .identifier ∨ node.kind = .call →
        ∀ name ∈ launchers, node.payload ≠ .text name) ∧
      ((∀ piece ∈ pieces source, piece.IsOpen) →
        (∀ node ∈ program.walk, ∀ mark ∈ nameMarks, ¬node.DefinesMethod ("initialize" ++ mark)) →
        (∃ node ∈ program.walk, node.kind = .classDef) ∧
          ∃ node ∈ program.walk, node.DefinesMethod "initialize") := by
  obtain ⟨stream, scanned, isProgram⟩ := exists_stream_of_parse parsed
  have covers := covers_of_scan scanned isProgram
  refine ⟨?_, ?_, ?_⟩
  · intro node member isName
    apply forall_name_of_covers covers areWords_evaluators member isName
    intro front token back isPending isToken _
    exact not_evaluator accepted scanned seen isPending isToken
  · intro node member isBare
    apply forall_name_of_covers covers areWords_launchers member (isBare.imp_right .inl)
    intro front token back isPending isToken bare
    refine not_launcher accepted scanned seen isPending isToken (bare ?_)
    obtain isKind | isKind := isBare <;> simp [isKind]
  · intro opened unmarked
    refine ⟨holds_class accepted scanned covers seen opened, ?_⟩
    obtain ⟨node, member, mark, isMark, defines⟩ :=
      holds_constructor accepted scanned covers seen opened
    obtain rfl | isMark := mem_cons.mp isMark
    · exact ⟨node, member, defines⟩
    · exact absurd defines (unmarked node member mark isMark)

/-! ### An accepted program, and one with a hidden call -/

instance (piece : Piece) : Decidable piece.IsSeen :=
  decidable_of_iff' _ (Piece.isSeen_iff piece)

instance (piece : Piece) : Decidable piece.IsOpen :=
  inferInstanceAs (Decidable (∀ keyword ∈ [Keyword.classKw, Keyword.defKw],
    anywhere (wordHere keyword.spelling) none (scrub piece.text) = true →
      ∃ token ∈ piece.token?, token.kind = .keyword keyword ∨ token.kind = .label))

instance (payload : Payload) (text : String) : Decidable (payload = .text text) :=
  decidable_of_iff (payload.text? = some text) (by cases payload <;> simp [Payload.text?])

instance (node : Node) (name : String) : Decidable (node.DefinesMethod name) :=
  match isName : node.methodName with
  | .ok payload => decidable_of_iff (node.kind = .methodDef ∧ payload = .text name)
      (by simp [Node.DefinesMethod, isName])
  | .error _ => isFalse (by simp [Node.DefinesMethod, isName])

/-- Whether the source is accepted and read, and the program passes a test. -/
def passes (source : String) (test : Node → Bool) : Bool :=
  (checkSource source).isEmpty &&
    match parse source with
    | .ok program => test program
    | .error _ => false

theorem exists_of_passes (isPassed : passes source test) :
    ∃ program, checkSource source = [] ∧ parse source = .ok program ∧ test program := by
  obtain ⟨accepted, isPassed⟩ := Bool.and_eq_true_iff.mp isPassed
  split at isPassed
  · rename_i program parsed
    exact ⟨program, isEmpty_iff.mp accepted, parsed, isPassed⟩
  · contradiction

/-- A text and a comment that hold forbidden words, and a call with a receiver. -/
def clerkSource : String :=
  "class Clerk\n" ++
  "  def initialize\n" ++
  "    @note = \"eval \\\" # \" # system\n" ++
  "    log.exec(2)\n" ++
  "  end\n" ++
  "end\n"

theorem clerk_passes :
    passes clerkSource (fun program => program.walk.all fun node =>
      nameMarks.all fun mark => !decide (node.DefinesMethod ("initialize" ++ mark))) := by
  decide +kernel

theorem clerk_seen :
    ((pieces clerkSource).all fun piece => decide (piece.IsSeen ∧ piece.IsOpen)) := by
  decide +kernel

theorem clerk_of_accepted :
    ∃ program, checkSource clerkSource = [] ∧ parse clerkSource = .ok program ∧
      (∀ node ∈ program.walk, node.IsName → ∀ name ∈ evaluators, node.payload ≠ .text name) ∧
      (∀ node ∈ program.walk, node.kind = .identifier ∨ node.kind = .call →
        ∀ name ∈ launchers, node.payload ≠ .text name) ∧
      (∃ node ∈ program.walk, node.kind = .classDef) ∧
      ∃ node ∈ program.walk, node.DefinesMethod "initialize" := by
  obtain ⟨program, accepted, parsed, unmarked⟩ := exists_of_passes clerk_passes
  have seen (piece : Piece) (member : piece ∈ pieces clerkSource) : piece.IsSeen ∧ piece.IsOpen :=
    of_decide_eq_true (all_eq_true.mp clerk_seen piece member)
  have holds := program_of_accepted accepted parsed fun piece member => (seen piece member).1
  refine ⟨program, accepted, parsed, holds.1, holds.2.1, holds.2.2 ?_ ?_⟩
  · exact fun piece member => (seen piece member).2
  · intro node member mark isMark
    simpa using all_eq_true.mp (all_eq_true.mp unmarked node member) mark isMark

/-- A comment over several lines that holds an apostrophe, and a comment with another. -/
def smugglerSource : String :=
  "class Smuggler\n" ++
  "  def initialize\n" ++
  "  end\n" ++
  "=begin\n" ++
  "don't\n" ++
  "=end\n" ++
  "  def run(x)\n" ++
  "    eval(x)\n" ++
  "  end\n" ++
  "# isn't\n" ++
  "end\n"

/-- The check takes what stands between the two apostrophes for a text. -/
theorem smuggler_evaluates :
    ∃ program, checkSource smugglerSource = [] ∧ parse smugglerSource = .ok program ∧
      ∃ node ∈ program.walk, node.kind = .call ∧ node.payload = .text "eval" := by
  have isPassed : passes smugglerSource (fun program => program.walk.any fun node =>
      decide (node.kind = .call ∧ node.payload = .text "eval")) = true := by
    decide +kernel
  obtain ⟨program, accepted, parsed, found⟩ := exists_of_passes isPassed
  obtain ⟨node, member, isCall⟩ := any_eq_true.mp found
  exact ⟨program, accepted, parsed, node, member, of_decide_eq_true isCall⟩

end ContractForge
