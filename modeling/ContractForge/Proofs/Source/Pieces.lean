import ContractForge.Source.Scan

/-!
# Pieces of a text

Scanning cuts a text into pieces: words, blanks, comments and line ends. Put together
again the pieces are the text, and the tokens of the pieces are the tokens of the text
up to the line end that closes it (`scans_pieces`). Every piece is what stands at its
place, given the tokens before it (`Cuts`).
-/

namespace ContractForge

open List

namespace Scan

variable {stream : TokenStream}

/-- The steps over an item beyond the first, given how many characters are left. -/
def Item.more (left : Nat) : Item → Nat
  | .blank more | .comment more => more
  | .newline => 0
  | .stop => left - 1
  | .word lexeme => lexeme.steps - 1

/-- Whether what follows an item is set apart from the token before. -/
def Item.setsApart (spaced : Bool) : Item → Bool
  | .blank _ => true
  | .comment _ => spaced
  | _ => false

/-- The token that an item adds to those before it. -/
def Item.token? (cursor : Cursor) (spaced : Bool) (previous : Option TokenKind) :
    Item → Option Token
  | .newline =>
    if endsLine previous then some ⟨.newline, "\n", cursor.line, cursor.column, false⟩ else none
  | .word lexeme => some ⟨lexeme.kind, lexeme.value, cursor.line, cursor.column, spaced⟩
  | _ => none

end Scan

/-- A stretch of a text that is recognised as one item, with what follows it. -/
structure Piece where
  item : Scan.Item
  text : List Char
  rest : List Char
  token? : Option Token

namespace Scan

def pieceAt (cursor : Cursor) (spaced : Bool) (previous : Option TokenKind) (item : Item) :
    Piece where
  item := item
  text := cursor.rest.take (item.more cursor.rest.length + 1)
  rest := cursor.rest.drop (item.more cursor.rest.length + 1)
  token? := item.token? cursor spaced previous

/-- The pieces from a place on, up to the first that is not recognised. The tokens already read
come newest first. -/
def piecesFrom (limit : Option Nat) (cursor : Cursor) (spaced : Bool) (done : List Token) :
    List Piece :=
  match found : cursor.rest with
  | [] => []
  | first :: rest =>
    have nonempty : cursor.rest ≠ [] := by simp [found]
    let previous := done.head?.map Token.kind
    match item limit cursor spaced previous first rest with
    | .error _ => []
    | .ok item =>
      let piece := pieceAt cursor spaced previous item
      piece :: piecesFrom limit (cursor.move (item.more cursor.rest.length + 1))
        (item.setsApart spaced) (piece.token?.toList ++ done)
termination_by cursor.rest.length
decreasing_by exact Cursor.length_rest_move_lt _ _ nonempty

variable {limit : Option Nat} {cursor : Cursor} {spaced : Bool} {done : List Token}

theorem piecesFrom_end (isEnd : cursor.rest = []) : piecesFrom limit cursor spaced done = [] := by
  rw [piecesFrom]
  split
  · rfl
  · simp_all

theorem piecesFrom_of_item {item : Item} (found : cursor.rest = first :: rest)
    (isItem : Scan.item limit cursor spaced (done.head?.map Token.kind) first rest = .ok item) :
    piecesFrom limit cursor spaced done =
      let piece := pieceAt cursor spaced (done.head?.map Token.kind) item
      piece :: piecesFrom limit (cursor.move (item.more cursor.rest.length + 1))
        (item.setsApart spaced) (piece.token?.toList ++ done) := by
  rw [piecesFrom]
  split
  · rename_i isEnd
    rw [found] at isEnd
    contradiction
  · rename_i isOther
    obtain ⟨rfl, rfl⟩ := List.cons.inj (found.symm.trans isOther)
    simp only [isItem]

/-- The piece is what is recognised at some place behind the given tokens. -/
def Recognises (limit : Option Nat) (before : List Token) (piece : Piece) : Prop :=
  ∃ cursor spaced first rest, cursor.rest = first :: rest ∧
    item limit cursor spaced (before.getLast?.map Token.kind) first rest = .ok piece.item ∧
    piece = pieceAt cursor spaced (before.getLast?.map Token.kind) piece.item

/-- The pieces follow one another, and each is recognised behind the tokens of those before it. -/
inductive Cuts (limit : Option Nat) : List Token → List Piece → Prop where
  | nil : Cuts limit before []
  | cons {later : List Piece}
      (recognises : Recognises limit before piece)
      (follows : piece.rest = later.flatMap Piece.text)
      (cuts : Cuts limit (before ++ piece.token?.toList) later) : Cuts limit before (piece :: later)

theorem Cuts.later {front later : List Piece} (cuts : Cuts limit before (front ++ later)) :
    Cuts limit (before ++ front.filterMap Piece.token?) later := by
  induction front generalizing before with
  | nil => simpa using cuts
  | cons piece _ ih =>
    obtain _ | ⟨-, -, cuts⟩ := cuts
    have later := ih cuts
    cases token : piece.token? <;> simpa [token] using later

/-- The tokens so far, and the line end if it counts. -/
theorem withNewline_eq (done : List Token) (cursor : Cursor) :
    withNewline done cursor.line cursor.column =
      (Item.newline.token? cursor spaced (done.head?.map Token.kind)).toList ++ done := by
  unfold withNewline Item.token?
  split <;> rfl

/-- The text is cut into pieces, and their tokens are those of the stream behind the tokens
before. A line end may close them. -/
structure Scans (limit : Option Nat) (text : List Char) (before : List Token) (pieces : List Piece)
    (stream : TokenStream) : Prop where
  text : pieces.flatMap Piece.text = text
  cuts : Cuts limit before pieces
  last : stream.last.kind = .endOfInput
  tokens : ∃ ends, stream.pending = before ++ pieces.filterMap Piece.token? ++ ends ∧
    ∀ token ∈ ends, token.kind = .newline

theorem Scans.finish (cursor : Cursor) (done : List Token) :
    Scans limit [] done.reverse [] (finish cursor done) where
  text := rfl
  cuts := .nil
  last := rfl
  tokens := by
    unfold Scan.finish withNewline
    split
    · exact ⟨[⟨.newline, "\n", cursor.line, cursor.column, false⟩], by simp, by simp⟩
    · exact ⟨[], by simp, by simp⟩

/-- One more piece at the front. -/
theorem Scans.step {item : Item} (found : cursor.rest = first :: rest)
    (isItem : Scan.item limit cursor spaced (done.head?.map Token.kind) first rest = .ok item)
    (scans : Scans limit (cursor.move (item.more cursor.rest.length + 1)).rest
      ((item.token? cursor spaced (done.head?.map Token.kind)).toList ++
        done).reverse later stream) :
    Scans limit cursor.rest done.reverse
      (pieceAt cursor spaced (done.head?.map Token.kind) item :: later) stream := by
  have isPrevious : done.reverse.getLast? = done.head? := getLast?_reverse
  have isBefore : ((item.token? cursor spaced (done.head?.map Token.kind)).toList ++ done).reverse =
      done.reverse ++ (item.token? cursor spaced (done.head?.map Token.kind)).toList := by
    cases item.token? cursor spaced (done.head?.map Token.kind) <;> simp
  rw [isBefore] at scans
  refine ⟨?_, .cons ⟨cursor, spaced, first, rest, found, ?_, ?_⟩ ?_ scans.cuts, scans.last, ?_⟩
  · rw [flatMap_cons, scans.text, Cursor.rest_move]
    exact take_append_drop _ _
  · rw [isPrevious]
    exact isItem
  · rw [isPrevious]
    rfl
  · rw [scans.text, Cursor.rest_move]
    rfl
  · obtain ⟨ends, isPending, areEnds⟩ := scans.tokens
    refine ⟨ends, isPending.trans ?_, areEnds⟩
    rw [filterMap_cons, pieceAt]
    cases item.token? cursor spaced (done.head?.map Token.kind) <;> simp

theorem scans_of_tokensFrom (scanned : tokensFrom limit cursor spaced done = .ok stream) :
    Scans limit cursor.rest done.reverse (piecesFrom limit cursor spaced done) stream := by
  fun_induction tokensFrom limit cursor spaced done with
  | case1 cursor _ done isEnd =>
    cases scanned
    rw [piecesFrom_end isEnd, isEnd]
    exact .finish cursor done
  | case2 => contradiction
  | case3 _ _ _ _ _ found _ _ isItem ih | case4 _ _ _ _ _ found _ _ isItem ih
  | case7 _ _ _ _ _ found _ _ isItem _ ih =>
    rw [piecesFrom_of_item found isItem]
    exact .step found isItem (ih scanned)
  | case5 _ _ _ _ _ found _ isNewline ih =>
    rw [piecesFrom_of_item found isNewline]
    rw [withNewline_eq] at ih scanned
    exact .step found isNewline (ih scanned)
  | case6 cursor _ done _ rest found nonempty isStop =>
    cases scanned
    have isEnd : (cursor.move (Item.stop.more cursor.rest.length + 1)).rest = [] := by
      rw [Cursor.rest_move, Item.more, Nat.sub_add_cancel (length_pos_iff.mpr nonempty)]
      exact drop_length
    rw [piecesFrom_of_item found isStop]
    dsimp only
    rw [piecesFrom_end isEnd]
    exact .step found isStop (isEnd ▸ .finish cursor done)

/-- Every token but a line end is that of a piece, behind the pieces of the tokens before it. -/
theorem Scans.exists_piece {text : List Char} {pieces : List Piece}
    (scans : Scans limit text [] pieces stream)
    (isPending : stream.pending = front ++ token :: back) (counts : token.kind ≠ .newline) :
    ∃ first piece later ends, pieces = first ++ piece :: later ∧ piece.token? = some token ∧
      first.filterMap Piece.token? = front ∧ back = later.filterMap Piece.token? ++ ends ∧
      ∀ token ∈ ends, token.kind = .newline := by
  obtain ⟨ends, isTokens, areEnds⟩ := scans.tokens
  rw [nil_append, isPending] at isTokens
  obtain ⟨between, _, isEnds⟩ | ⟨between, isSome, isBack⟩ :=
    append_eq_append_iff.mp isTokens.symm
  · exact absurd (areEnds token (by simp [isEnds])) counts
  · cases between with
    | nil =>
      rw [nil_append] at isBack
      exact absurd (areEnds token (by simp [← isBack])) counts
    | cons =>
      obtain ⟨rfl, rfl⟩ := List.cons.inj isBack
      obtain ⟨first, _, rfl, isFirst, isOthers⟩ := filterMap_eq_append_iff.mp isSome
      obtain ⟨silent, piece, later, rfl, areSilent, isToken, isLater⟩ :=
        filterMap_eq_cons_iff.mp isOthers
      refine ⟨first ++ silent, piece, later, ends, by simp, isToken, ?_,
        congrArg (· ++ ends) isLater.symm, areEnds⟩
      rw [filterMap_append, isFirst, filterMap_eq_nil_iff.mpr areSilent, append_nil]

end Scan

def pieces (source : String) : List Piece :=
  Scan.piecesFrom (some Text.digitLimit) { rest := source.toList } false []

theorem scans_pieces (scanned : scan source = .ok stream) :
    Scan.Scans (some Text.digitLimit) source.toList [] (pieces source) stream :=
  Scan.scans_of_tokensFrom scanned

end ContractForge
