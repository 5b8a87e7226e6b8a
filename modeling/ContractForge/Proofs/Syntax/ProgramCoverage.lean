import ContractForge.Proofs.Syntax.ExpressionCoverage

/-!
# Programs and the tokens they are read from

The productions for statements and definitions give back nodes that fit their roles
and cover the tokens that they take, at every depth that exceeds the number of tokens.
So a program that is read fits its role and covers all of its tokens (`reads_program`).
-/

namespace ContractForge.Parse

open Node List

variable {input : Input} {token : Token} {tokens : List Token} {hand nodes : List Node}
  {depth floor : Nat}

section

variable (shown : input.Shows token)
include shown

theorem mem_conditionalWords
    (isWord : token.kind = .keyword .ifKw ∨ token.kind = .keyword .unlessKw)
    (written : input.IsWritten) : token.value ∈ conditionalWords := by
  obtain isWord | isWord := isWord
  all_goals simp [(shown.written written).keyword isWord, Keyword.spelling, conditionalWords]

theorem mem_conditionLoopWords
    (isWord : token.kind = .keyword .whileKw ∨ token.kind = .keyword .untilKw)
    (written : input.IsWritten) : token.value ∈ conditionLoopWords := by
  obtain isWord | isWord := isWord
  all_goals simp [(shown.written written).keyword isWord, Keyword.spelling, conditionLoopWords]

end

section

variable {rules : Rules} (read : rules.Read input depth)

include read

/-! ### Statements -/

omit read in
theorem reads_endStatement (holds : Holds floor taken hand) :
    Reads input taken (fun tokens _ => Holds floor tokens hand) endStatement := by
  refine .test tells_atAny (fun _ _ _ => Reads.from ?_) (.test tells_atAny
    (fun _ _ _ => readsFrom_pure holds) (.current fun token _ => readsFrom_failAt _))
  rw [← bind_pure skipTerminators]
  exact .pass holds rfl fun _ holds => reads_pure holds

omit read in
/-- A word that may be left out. -/
theorem Reads.optional {α : Type} {next : Unit → Parse α}
    {property : List Token → α → Prop} (holds : Holds floor taken hand)
    (plain : (TokenKind.keyword word).isPlain)
    (second : ∀ tokens, Holds floor tokens hand → Reads input tokens property (next ())) :
    Reads input taken property ((do if ← atKeyword word then let _ ← Parse.advance) >>= next) := by
  refine Reads.bind (?_ : Reads input taken (fun tokens _ => Holds floor tokens hand) _)
    fun tokens _ => second tokens
  refine .test (tells_at? _) (fun found _ isWord => ?_) (reads_pure holds)
  exact .take holds isWord plain fun _ holds => reads_pure (holds.least (by omega))

omit read in
theorem pairUp_append (rest : List Node) (closed : (pairUp nodes).2 = none) :
    pairUp (nodes ++ rest) = ((pairUp nodes).1 ++ (pairUp rest).1, (pairUp rest).2) := by
  fun_induction pairUp nodes with
  | case1 _ _ _ _ _ split ih =>
    simp [pairUp, ih, split, closed]
  | case2 => contradiction
  | case3 => simp

/-- The nodes are conditions with their bodies, and with them the trees cover the tokens. -/
structure GetsBranches (input : Input) (floor : Nat) (hand : List Node) (tokens : List Token)
    (nodes : List Node) : Prop where
  nonempty : (pairUp nodes).1 ≠ []
  closed : (pairUp nodes).2 = none
  conditions : input.IsWritten → ∀ branch ∈ (pairUp nodes).1, branch.1.Fits .operand
  bodies : input.IsWritten → ∀ branch ∈ (pairUp nodes).1, branch.2.Fits .body
  holds : Holds floor tokens (hand ++ nodes)

theorem reads_branch (fits : input.tokens.length < floor + (depth + 1))
    (holds : Holds floor taken hand) :
    Reads input taken (fun tokens nodes => (pairUp nodes).1.length = 1 ∧
      GetsBranches input (floor + 1) hand tokens nodes) (branch rules) := by
  refine (reads_expression read fits holds).bind fun _ condition ⟨conditionFits, holds⟩ =>
    .optional holds rfl fun _ holds => ?_
  refine (read.body branchEnds (by omega) holds).bind fun _ body ⟨bodyFits, holds⟩ =>
    reads_pure ⟨rfl, ?_⟩
  exact ⟨by simp [pairUp], rfl, fun written => by simpa [pairUp] using conditionFits written,
    fun written => by simpa [pairUp] using bodyFits written, by simpa using holds⟩

omit read in
theorem GetsBranches.append (ofFirst : GetsBranches input floor hand tokens first)
    (ofSecond : GetsBranches input lower (hand ++ first) later second) :
    GetsBranches input lower hand later (first ++ second) := by
  have joined := pairUp_append second ofFirst.closed
  refine ⟨?_, ?_, ?_, ?_, by simpa using ofSecond.holds⟩
  · simp [joined, ofFirst.nonempty]
  · rw [joined]
    exact ofSecond.closed
  · rw [joined]
    exact fun written =>
      forall_mem_append.mpr ⟨ofFirst.conditions written, ofSecond.conditions written⟩
  · rw [joined]
    exact fun written => forall_mem_append.mpr ⟨ofFirst.bodies written, ofSecond.bodies written⟩

/-- A conditional with `unless` has one condition only. -/
theorem reads_conditional (shown : input.Shows keyword)
    (isWord : keyword.kind = .keyword .ifKw ∨ keyword.kind = .keyword .unlessKw) :
    ReadsNode input (depth + 1) 0 .statement (conditional rules keyword) := by
  have isConditional := mem_conditionalWords shown isWord
  have isUnless (written : input.IsWritten) (spelled : keyword.value = "unless") :
      keyword.kind = .keyword .unlessKw := by
    obtain isIf | isUnless := isWord
    · simp [(shown.written written).keyword isIf, Keyword.spelling] at spelled
    · exact isUnless
  intro floor _ hand fits holds
  -- What the branches before a last one have in common.
  let Collected (tokens : List Token) (nodes : List Node) : Prop :=
    (input.IsWritten → keyword.value = "unless" → (pairUp nodes).1.length = 1) ∧
      GetsBranches input (floor + 1) hand tokens nodes
  refine (reads_branch read fits holds).bind fun tokens first ⟨single, ofFirst⟩ => ?_
  refine Reads.bind (Reads.loop Collected ?_ ⟨fun _ _ => single, ofFirst⟩ :
    Reads input tokens Collected _) fun tokens branches ⟨single, ofBranches⟩ => ?_
  · rintro tokens branches ⟨single, ofBranches⟩
    have atLeast := ofBranches.holds.atLeast
    refine .test (tells_at? _) (fun word _ isElsif => ?_) (reads_pure ⟨single, ofBranches⟩)
    split
    · exact readsFrom_fail_bind
    · rename_i notUnless
      refine .take ofBranches.holds.exact isElsif rfl fun _ holds => ?_
      refine (reads_branch read (by omega) holds).bind fun _ next ⟨_, ofNext⟩ =>
        reads_pure ⟨⟨?_, ?_⟩, ofNext.holds.exceeds (by omega)⟩
      · intro written spelled
        simp [isUnless written spelled] at notUnless
      · exact ofBranches.append { ofNext with holds := ofNext.holds.least (by omega) }
  · have holds := ofBranches.holds
    refine Reads.bind (?_ : Reads input tokens (fun tokens parts => (input.IsWritten →
        (nodeAt keyword .conditional parts (.text keyword.value)).Fits .statement) ∧
          Holds floor tokens (hand ++ parts)) _) fun _ parts ⟨partsFit, holds⟩ => ?_
    · refine .test (tells_at? _) (fun word _ isElse => ?_)
        (reads_pure ⟨fun written => ?_, holds.least (by omega)⟩)
      · refine .take holds isElse rfl fun _ holds => ?_
        refine (read.body _ (by omega) holds).bind fun _ otherwise ⟨otherwiseFits, holds⟩ =>
          reads_pure ⟨fun written => ?_, holds.recast (by omega) (by simp)⟩
        have joined := pairUp_append [otherwise] ofBranches.closed
        refine .conditional (isConditional written) ?_ ?_ ?_ ?_ ?_
        · simp [joined, ofBranches.nonempty]
        · simpa [joined, pairUp] using single written
        · simpa [joined, pairUp] using ofBranches.conditions written
        · simpa [joined, pairUp] using ofBranches.bodies written
        · simpa [joined, pairUp] using otherwiseFits written
      · exact .conditional (isConditional written) ofBranches.nonempty (single written)
          (ofBranches.conditions written) (ofBranches.bodies written) (by simp [ofBranches.closed])
    · exact .demand holds rfl fun _ _ holds =>
        reads_pure ⟨partsFit, holds.recast (by omega) (by simp)⟩

theorem reads_conditionLoop (isWord : input.IsWritten → keyword.value ∈ conditionLoopWords) :
    ReadsNode input (depth + 1) 0 .statement (conditionLoop rules keyword) := by
  intro _ _ _ fits holds
  refine (reads_expression read fits holds).inLoopHead.bind
    fun _ condition ⟨conditionFits, holds⟩ => .optional holds rfl fun _ holds => ?_
  refine (read.body _ (by omega) holds).bind fun _ body ⟨bodyFits, holds⟩ => ?_
  exact .demand holds rfl fun _ _ holds =>
    reads_pure ⟨fun written => .conditionLoop (isWord written) (conditionFits written)
      (bodyFits written), holds.recast (by omega) (by simp)⟩

omit read in
theorem reads_loopVariables : ReadsNodes input depth 0 .identifier loopVariables := by
  intro floor _ hand _ holds
  refine .loop (GetsAll input .identifier floor hand) (fun _ names ⟨namesFit, holds⟩ => ?_)
    (getsAll_nil holds)
  refine .expect (by decide) fun name shown isName => .after silent_declare fun _ => ?_
  refine reads_comma (getsAll_concat namesFit ⟨fits_name shown isName, ?_⟩) holds.atLeast
  exact holds.exact.name (.inl isName) .identifier

theorem reads_sequenceLoop :
    ReadsNode input (depth + 1) 0 .statement (sequenceLoop rules keyword) := by
  intro _ _ _ fits holds
  refine (reads_loopVariables fits holds).bind fun _ names ⟨namesFit, holds⟩ =>
    .demand holds rfl fun _ _ holds => ?_
  refine (reads_expression read (by omega) holds).inLoopHead.bind
    fun _ subject ⟨subjectFits, holds⟩ => .optional holds rfl fun _ holds => ?_
  refine (read.body _ (by omega) holds).bind fun _ body ⟨bodyFits, holds⟩ => ?_
  refine .demand holds rfl fun _ _ holds =>
    reads_pure ⟨fun written => .sequenceLoop (subjectFits written) (.blockParams (namesFit written))
      (bodyFits written), ?_⟩
  exact holds.shuffle (by omega) fun node => by simp [or_left_comm]

theorem reads_returnStatement :
    ReadsNode input (depth + 1) 0 .statement (returnStatement rules keyword) := by
  intro _ _ _ fits holds
  refine .test tells_atAny
    (fun _ _ _ => readsFrom_pure ⟨fun _ => .returnNothing,
      holds.recast (Nat.le_refl _) (by simp)⟩) ?_
  exact (reads_expression read fits holds).bind fun _ value ⟨valueFits, holds⟩ =>
    reads_pure ⟨fun written => .returnFrom (valueFits written), holds.recast (by omega) (by simp)⟩

theorem readsFrom_plainStatement (shown : input.Shows token)
    (fits : input.tokens.length < floor + (depth + 1)) (holds : Holds floor taken hand) :
    ReadsFrom input token taken (Gets input .statement (floor + 1) hand)
      (plainStatement rules token) := by
  -- A keyword after which a production goes on.
  have opens {word : Keyword} {parser : Parse Node} (isWord : token.kind = .keyword word)
      (plain : (TokenKind.keyword word).isPlain)
      (ofParser : ReadsNode input (depth + 1) 0 .statement parser) :
      ReadsFrom input token taken (Gets input .statement (floor + 1) hand) (do
        let _ ← advance
        parser) :=
    .take holds isWord plain fun _ holds => ofParser (by omega) holds
  have alone {word : Keyword} {node : Node} (isWord : token.kind = .keyword word)
      (plain : (TokenKind.keyword word).isPlain) (nodeFits : node.Fits .statement)
      (isPlain : notables [node] = []) :
      ReadsFrom input token taken (Gets input .statement (floor + 1) hand) (do
        let _ ← advance
        return node) :=
    .take holds isWord plain fun _ holds =>
      reads_pure ⟨fun _ => nodeFits, holds.recast (Nat.le_refl _) (by simp [isPlain])⟩
  unfold plainStatement
  split
  case h_1 isIf => exact opens isIf rfl (reads_conditional read shown (.inl isIf))
  case h_2 isUnless => exact opens isUnless rfl (reads_conditional read shown (.inr isUnless))
  case h_3 isWhile =>
    exact opens isWhile rfl (reads_conditionLoop read (mem_conditionLoopWords shown (.inl isWhile)))
  case h_4 isUntil =>
    exact opens isUntil rfl (reads_conditionLoop read (mem_conditionLoopWords shown (.inr isUntil)))
  case h_5 isFor => exact opens isFor rfl (reads_sequenceLoop read)
  case h_6 isReturn => exact opens isReturn rfl (reads_returnStatement read)
  case h_7 isBreak => exact alone isBreak rfl .breakLoop (by simp)
  case h_8 isNext => exact alone isNext rfl .nextLoop (by simp)
  case h_9 =>
    exact ((reads_expressionStatement read fits holds).mono
      fun _ _ ⟨nodeFits, holds⟩ => ⟨fun written => .ofOperand (nodeFits written), holds⟩).from

/-- Modifiers make the statement before them their body. -/
theorem reads_withModifiers (start : Token) {statement : Node}
    (statementFits : input.IsWritten → statement.Fits .statement)
    (fits : input.tokens.length < floor + (depth + 1))
    (holds : Holds floor taken (hand ++ [statement])) :
    Reads input taken (Gets input .statement floor hand) (withModifiers rules start statement) := by
  refine .loop (Gets input .statement floor hand) (fun _ statement ⟨statementFits, holds⟩ => ?_)
    ⟨statementFits, holds⟩
  have atLeast := holds.atLeast
  refine .test tells_atAny (fun modifier shown isModifier => ?_)
    (reads_pure ⟨statementFits, holds⟩)
  have bodyFits (written : input.IsWritten) :
      (nodeAt modifier .body [statement] .absent).Fits .body :=
    .body (by simpa using statementFits written)
  have known : modifier.kind.isPlain := by
    revert isModifier
    generalize modifier.kind = kind
    revert kind
    decide
  refine .take holds.exact rfl known fun _ holds => ?_
  refine (reads_expression read (by omega) holds).bind fun _ condition ⟨conditionFits, holds⟩ =>
    reads_pure ⟨⟨fun written => ?_, ?_⟩, holds.exceeds (by omega)⟩
  · split
    · rename_i isConditional
      have isWord := mem_conditionalWords shown (by simpa using isConditional) written
      exact .conditional isWord (by simp [pairUp]) (by simp [pairUp])
        (by simpa [pairUp] using conditionFits written) (by simpa [pairUp] using bodyFits written)
        (by simp [pairUp])
    · have isLoop : modifier.kind = .keyword .whileKw ∨ modifier.kind = .keyword .untilKw := by
        simp only [modifiers] at isModifier
        simp_all
      exact .conditionLoop (mem_conditionLoopWords shown isLoop written) (conditionFits written)
        (bodyFits written)
  · split <;> exact holds.shuffle (by omega) fun node => by simp [or_comm]

/-- A statement fits its role and takes at least one token. -/
theorem reads_statement : ReadsNode input (depth + 1) 1 .statement (statement rules) := by
  intro _ _ _ fits holds
  refine .current fun token shown => ?_
  have governed :=
    (readsFrom_plainStatement read shown fits holds).bind fun _ plain ⟨plainFits, holds⟩ =>
      reads_withModifiers read token plainFits (by omega) holds
  split
  · split
    · exact readsFrom_failAt_bind _
    · exact governed
  · exact governed

/-! ### Methods -/

theorem reads_parameter : ReadsNode input (depth + 1) 1 .param (parameter rules) := by
  intro _ _ _ _ holds
  refine .current fun token _ => .guard fun _ => .guard fun _ => Reads.from ?_
  refine .expect (by decide) fun name shown isName => .after silent_declare fun _ => ?_
  have nameFits := fits_name shown isName
  have holds := holds.name (.inl isName) .identifier
  refine .test (tells_at? _) (fun sign _ isSign => ?_)
    (reads_pure ⟨fun written => @Fits.param _ _ _ none (nameFits written) (by simp),
      holds.recast (Nat.le_refl _) (by simp)⟩)
  refine .take holds isSign rfl fun _ holds => ?_
  refine (reads_ternary read (by omega) holds).bind fun _ value ⟨valueFits, holds⟩ =>
    reads_pure ⟨fun written => ?_, holds.recast (by omega) (by simp)⟩
  exact @Fits.param _ _ _ (some value) (nameFits written) (by simpa using valueFits written)

theorem reads_bareParameters : ReadsNodes input (depth + 1) 0 .param (bareParameters rules) := by
  intro floor _ hand _ holds
  refine .loop (GetsAll input .param floor hand) (fun _ params ⟨paramsFit, holds⟩ => ?_)
    (getsAll_nil holds)
  have atLeast := holds.atLeast
  exact (reads_parameter read (by omega) holds.exact).bind fun _ param gets =>
    reads_comma (getsAll_concat paramsFit gets) atLeast

theorem reads_methodParameters :
    ReadsNodes input (depth + 1) 0 .param (methodParameters rules) := by
  intro _ _ _ fits holds
  refine .test (tells_at? _) (fun opener _ isOpener => ?_) (.test (tells_at? _)
    (fun _ _ _ => (reads_bareParameters read fits holds).from) (reads_pure (getsAll_nil holds)))
  refine .take holds isOpener rfl fun _ holds =>
    .pass holds rfl fun _ holds => ?_
  refine (reads_listed (reads_parameter read) (by omega) holds).bind
    fun _ params ⟨paramsFit, holds⟩ => ?_
  exact .demand holds rfl fun _ _ holds =>
    reads_pure ⟨paramsFit, holds.least (by omega)⟩

omit read in
theorem tells_atSetterMark :
    Tells atSetterMark (fun token => token.kind = .mark .eq) (fun _ => True) := by
  intro state
  refine ⟨(state.front.kind == .mark .eq && !state.front.spaced) &&
    (state.pending.getD 1 state.last).kind == .mark .lparen, rfl, ?_⟩
  split <;> simp_all

omit read in
theorem notables_markers (markers : List Token) :
    notables (markers.map fun marker => leaf marker .marker) = [] := by
  induction markers with
  | nil => simp
  | cons _ _ ih => simpa using ih

/-- The name behind the keyword is that of the method, whatever markers stand before. -/
theorem reads_methodDefinition (areMarkers : ∀ marker ∈ markers, marker.value ∈ markerNames) :
    ReadsNode input (depth + 1) 1 .statement (methodDefinition rules markers) := by
  intro floor taken hand _ holds
  refine .expect (by decide) fun keyword _ isDef => ?_
  refine .test (tells_at? _) (fun _ _ _ => readsFrom_fail_bind) ?_
  refine .current fun nameToken shown => ?_
  split
  · exact readsFrom_fail_bind
  rename_i isName
  have isName : nameToken.IsName := by
    simpa [Token.IsName, Classical.or_iff_not_imp_left] using isName
  have notEnd : nameToken.kind ≠ .endOfInput := by
    obtain isName | isName := isName <;> simp [isName]
  have named (written : input.IsWritten) : nameToken.value ≠ "" :=
    isName.elim (shown.written written).identifier (shown.written written).constant
  refine .advance notEnd ?_
  refine Reads.bind (?_ : Reads input _ (fun tokens name =>
    (input.IsWritten → name ≠ "") ∧ Holds (floor + 1) tokens (hand ++
      [Covers.unfinishedMethod keyword nameToken name,
        nodeAt nameToken .identifier [] (.text name)])) _) fun _ name known =>
        .inFreshScope (.current fun paramsToken _ => Reads.from ?_)
  · have opened {more : List Token} {name : String}
        (isNamed : Covers.NamesMethod nameToken more name) :
        Holds (floor + 1) (taken ++ keyword :: more) (hand ++
          [Covers.unfinishedMethod keyword nameToken name,
            nodeAt nameToken .identifier [] (.text name)]) := by
      refine ⟨holds.covers.opensMethod isDef isName isNamed, ?_⟩
      have atLeast := holds.atLeast
      simp only [length_append, length_cons]
      omega
    refine .test tells_atSetterMark (fun mark _ isMark => ?_)
      (reads_pure ⟨named, by simpa using opened .plain⟩)
    exact .advance (by simp [isMark]) (reads_pure ⟨by simp, by simpa using opened (.setter isMark)⟩)
  · obtain ⟨named, holds⟩ := known
    refine (reads_methodParameters read (by omega) holds).bind fun _ params known => ?_
    obtain ⟨paramsFit, holds⟩ := known
    refine (read.body _ (by omega) holds).bind fun _ body known => ?_
    obtain ⟨bodyFits, holds⟩ := known
    refine .demand holds rfl fun _ _ holds => reads_pure
      ⟨fun written => ?_, ?_, holds.exceeds (by omega)⟩
    · refine .methodDef (.identifier (named written)) (.params (paramsFit written))
        (bodyFits written) ?_
      intro marker mem
      obtain ⟨word, isWord, rfl⟩ := mem_map.mp mem
      exact .marker (areMarkers word isWord)
    · refine holds.covers.define (Covers.unfinishedMethod keyword nameToken name) rfl (.inr rfl)
        (fun _ => rfl) fun node => ?_
      simp [notables_cons body (markers.map _), notables_markers, Covers.unfinishedMethod,
        or_left_comm]

/-! ### Classes and modules -/

omit read in
theorem reads_constantPath : ReadsNode input depth 1 .constant constantPath := by
  intro floor _ hand _ holds
  refine .expect (by decide) fun token shown isConstant => ?_
  let Named (tokens : List Token) (name : String) : Prop :=
    (input.IsWritten → name ≠ "") ∧ Holds (floor + 1) tokens hand
  refine Reads.bind (Reads.loop Named ?_
    ⟨fun written => (shown.written written).constant isConstant, holds.take isConstant rfl⟩ :
      Reads input _ Named _) fun _ name ⟨named, holds⟩ =>
      reads_pure ⟨fun written => .constant (named written),
        holds.covers.addLeaf rfl fun isName => ?_, holds.atLeast⟩
  · rintro tokens name ⟨named, holds⟩
    have atLeast := holds.atLeast
    refine .test (tells_at? _) (fun scope _ isScope => ?_) (reads_pure ⟨named, holds⟩)
    refine .take holds.exact isScope rfl fun _ holds =>
      .demand holds rfl fun inner _ holds => ?_
    exact reads_pure ⟨⟨by simp, holds.least (by omega)⟩, holds.exceeds (by omega)⟩
  · simp [IsName, nodeAt] at isName

/-- The declarations that markers stand before, if there are any. -/
def GetsMarked (input : Input) (floor : Nat) (hand : List Node) (tokens : List Token) :
    Option (List Node) → Prop
  | none => Holds floor tokens hand
  | some nodes => GetsAll input .statement (floor + 1) hand tokens nodes

theorem reads_markers? (fits : input.tokens.length < floor + (depth + 1))
    (holds : Holds floor taken hand) :
    Reads input taken (GetsMarked input floor hand) (markers? rules) := by
  rintro front shown state leads rfl
  have areMarkers : ∀ word ∈ state.pending.takeWhile isMarker,
      word.kind ∈ [TokenKind.identifier] ∧ word.value ∈ markerNames := by
    intro word mem
    have isWord := all_eq_true.mp all_takeWhile word mem
    simp_all [isMarker]
  show input.Accepts _ (StateT.run (if _ then _ else if _ then _ else _ : Parse _) state)
  generalize isWords : state.pending.takeWhile isMarker = words at areMarkers ⊢
  have isPending : state.pending = words ++ state.pending.drop words.length := by
    subst isWords
    exact (prefix_iff_eq_append.mp <| takeWhile_prefix isMarker).symm
  have notEnds : ∀ word ∈ words, word.kind ≠ .endOfInput := by
    intro word mem
    simp [mem_singleton.mp (areMarkers word mem).1]
  have atLeast := holds.atLeast
  have holds : Holds (floor + words.length) (taken ++ words) hand := by
    refine ⟨holds.covers.takeAll (fun word mem => (areMarkers word mem).1) (by decide), ?_⟩
    rw [length_append]
    omega
  split
  · have defined : Reads input (taken ++ words) (GetsMarked input floor hand)
        (do return some [← methodDefinition rules words]) := by
      refine (reads_methodDefinition read (fun word mem => (areMarkers word mem).2)
        (by omega) holds).bind fun _ method ⟨methodFits, holds⟩ => reads_pure ⟨?_, ?_⟩
      · simpa using methodFits
      · exact holds.least (by omega)
    exact defined.run (leads.take isPending notEnds)
  · split
    · rename_i isAlone
      obtain ⟨word, rfl⟩ : ∃ word, words = [word] := by
        simpa [length_eq_one_iff] using (Bool.and_eq_true_iff.mp isAlone).1
      have isFront : state.front = word := by rw [ParseState.front, isPending]; rfl
      have markerFits : (leaf state.front .marker).Fits .statement :=
        .ofMarker (.marker (isFront ▸ (areMarkers word (by simp)).2))
      exact ⟨_, leads.take isPending notEnds, fun _ => forall_mem_singleton.mpr markerFits,
        holds.recast (Nat.le_refl _) (by simp)⟩
    · exact ⟨taken, leads, ‹Holds floor taken hand›⟩

omit read in
theorem readsFrom_inclusions (isName : token.kind = .identifier)
    (fits : input.tokens.length < floor + depth) (holds : Holds floor taken hand) :
    ReadsFrom input token taken (GetsAll input .statement (floor + 1) hand) inclusions := by
  refine .take holds isName rfl fun _ holds => ?_
  refine .loop (GetsAll input .statement (floor + 1) hand)
    (fun tokens nodes ⟨nodesFit, holds⟩ => ?_)
    (getsAll_nil holds)
  have atLeast := holds.atLeast
  have fits : input.tokens.length < tokens.length + depth := by omega
  refine (reads_constantPath fits holds.exact).bind fun _ path ⟨pathFits, holds⟩ => ?_
  exact reads_comma (getsAll_concat nodesFit
    ⟨fun written => .inclusion (pathFits written), holds.recast (Nat.le_refl _) (by simp)⟩) atLeast

omit read in
theorem readsFrom_accessors (isWord : token.value ∈ accessorNames)
    (isName : token.kind = .identifier) (holds : Holds floor taken hand) :
    ReadsFrom input token taken (Gets input .statement (floor + 1) hand) accessors := by
  refine .take holds isName rfl fun tokens holds => ?_
  refine Reads.bind (Reads.loop (GetsAll input .symbol (floor + 1) hand) ?_ (getsAll_nil holds) :
    Reads input tokens (GetsAll input .symbol (floor + 1) hand) _)
    fun _ symbols ⟨symbolsFit, holds⟩ => reads_pure
      ⟨fun written => .accessor isWord (symbolsFit written), ?_⟩
  · rintro tokens symbols ⟨symbolsFit, holds⟩
    have atLeast := holds.atLeast
    exact .demand holds.exact rfl fun symbol _ holds => reads_comma
      (getsAll_concat symbolsFit ⟨fun _ => .symbol, holds.recast (Nat.le_refl _) (by simp)⟩) atLeast
  · exact holds.recast (Nat.le_refl _) (by simp)

theorem reads_classDefinition (fits : input.tokens.length < floor + (depth + 1))
    (holds : Holds floor taken (hand ++ [leaf keyword .classDef])) :
    Reads input taken (Gets input .statement floor hand) (classDefinition rules keyword) := by
  refine .test (tells_at? _) (fun _ _ _ => readsFrom_fail_bind) ?_
  refine fun _ _ => .ask (tells_at? _) (fun _ => Reads.from ?_) fun _ => readsFrom_fail_bind
  refine (reads_constantPath fits holds).bind fun tokens name ⟨nameFits, holds⟩ => ?_
  let Inherited (tokens : List Token) (found : List Node) : Prop :=
    ∃ parent : Option Node, found = parent.toList ∧
      (input.IsWritten → ∀ node ∈ parent, node.Fits .constant) ∧
      Holds (floor + 1) tokens (hand ++ [leaf keyword .classDef] ++ [name] ++ found)
  refine Reads.bind (?_ : Reads input tokens Inherited _)
    fun _ found ⟨parent, isParent, parentFits, holds⟩ => ?_
  · refine .test (tells_at? _) (fun sign _ isSign => ?_)
      (reads_pure ⟨none, rfl, by simp, by simpa using holds⟩)
    refine .take holds isSign rfl fun tokens holds => ?_
    have fits : input.tokens.length < floor + 1 + 1 + (depth + 1) := by omega
    refine (reads_constantPath fits holds).bind fun _ parent ⟨parentFits, holds⟩ => ?_
    exact reads_pure ⟨some parent, rfl, by simpa using parentFits, holds.least (by omega)⟩
  · refine (read.body _ (by omega) holds).inFreshScope.bind fun _ body ⟨bodyFits, holds⟩ => ?_
    subst isParent
    refine .demand holds rfl fun _ _ holds =>
      reads_pure
      ⟨fun written => .classDef (nameFits written) (parentFits written) (bodyFits written), ?_,
        (holds.least (by omega)).atLeast⟩
    refine holds.covers.define (leaf keyword .classDef) rfl (.inl rfl) nofun fun node => ?_
    simp [or_left_comm]

theorem reads_moduleDefinition (keyword : Token) :
    ReadsNode input (depth + 1) 0 .statement (moduleDefinition rules keyword) := by
  intro _ _ _ fits holds
  refine fun _ _ => .ask (tells_at? _) (fun _ => Reads.from ?_) fun _ => readsFrom_fail_bind
  refine (reads_constantPath fits holds).bind fun _ name ⟨nameFits, holds⟩ => ?_
  refine (read.body _ (by omega) holds).inFreshScope.bind fun _ body ⟨bodyFits, holds⟩ => ?_
  exact .demand holds rfl fun _ _ holds =>
    reads_pure ⟨fun written => .moduleDef (nameFits written) (bodyFits written),
      holds.recast (by omega) (by simp)⟩

/-- A member of a body takes at least one token, and may be several statements. -/
theorem reads_member : ReadsNodes input (depth + 1) 1 .statement (member rules) := by
  intro floor taken hand fits holds
  have alone {token : Token} {tokens : List Token} {parser : Parse Node}
      (ofParser : ReadsFrom input token tokens (Gets input .statement (floor + 1) hand) parser) :
      ReadsFrom input token tokens (GetsAll input .statement (floor + 1) hand)
        (do return [← parser]) :=
    ofParser.bind fun _ _ ⟨nodeFits, holds⟩ => reads_pure ⟨by simpa using nodeFits, holds⟩
  have other {token : Token} {tokens : List Token} (holds : Holds floor tokens hand) :
      ReadsFrom input token tokens (GetsAll input .statement (floor + 1) hand)
        (do return [← statement rules]) :=
    alone (reads_statement read fits holds).from
  refine .current fun token shown => ?_
  split
  · rename_i isClass
    have holds : Holds (floor + 1) (taken ++ [token]) (hand ++ [leaf token .classDef]) :=
      ⟨holds.covers.opensClass isClass, by simpa using holds.atLeast⟩
    exact .advance (by simp [isClass]) fun _ _ =>
      alone (reads_classDefinition read (by omega) holds).from
  · rename_i isModule
    exact .take holds isModule rfl fun _ holds _ _ =>
      alone (reads_moduleDefinition read token (by omega) holds).from
  · exact alone (reads_methodDefinition read (by simp) fits holds).from
  · rename_i isName
    refine .ask tells_isLocal (fun _ => other holds) fun _ => ?_
    rw [if_pos (by rfl)]
    split
    · refine (reads_markers? read fits holds).from.bind fun _ found marked => ?_
      cases found with
      | none => exact fun _ _ => other marked
      | some => exact reads_pure marked
    · refine .after silent_peek fun following => ?_
      split
      · exact readsFrom_inclusions isName fits holds
      · refine .after silent_peek fun following => ?_
        split
        · have isWord : token.value ∈ accessorNames := by simp_all
          exact alone (readsFrom_accessors isWord isName holds)
        · exact other holds
  · exact other holds

/-! ### Programs -/

omit read in
theorem tells_atImport :
    Tells atImport (fun token => token.kind = .identifier ∧ token.value ∈ importNames)
      (fun _ => True) := by
  intro state
  rw [atImport, run_current_bind]
  split
  · rename_i isImport
    have isWord : state.front.kind = .identifier ∧ state.front.value ∈ importNames := by
      simpa using isImport
    show ∃ answer, StateT.run (if (state.pending.getD 1 state.last).kind == .string then pure true
      else _) state = _ ∧ _
    split
    · exact ⟨true, rfl, isWord⟩
    · exact ⟨_, rfl, by split <;> trivial⟩
  · exact ⟨false, rfl, trivial⟩

omit read in
theorem readsFrom_importStatement (isWord : token.value ∈ importNames)
    (isName : token.kind = .identifier) (holds : Holds floor taken hand) :
    ReadsFrom input token taken (Gets input .importFile (floor + 1) hand) importStatement := by
  unfold importStatement
  refine .take holds isName rfl fun _ holds => ?_
  refine fun _ _ => .ask (tells_at? _) (fun isParen => ?_) fun _ => Reads.from ?_
  · refine .take holds isParen rfl fun _ holds =>
      .demand holds rfl fun path _ holds => ?_
    exact .demand holds rfl fun _ _ holds =>
      reads_pure ⟨fun _ => .importFile isWord, holds.recast (by omega) (by simp)⟩
  · exact .demand holds rfl fun path _ holds =>
      reads_pure ⟨fun _ => .importFile isWord, holds.recast (by omega) (by simp)⟩

theorem reads_topLevel : ReadsNodes input (depth + 1) 1 .part (topLevel rules) := by
  intro _ _ _ fits holds
  refine .test tells_atImport (fun word _ ⟨isName, isWord⟩ => ?_) ?_
  · exact (readsFrom_importStatement isWord isName holds).bind fun _ _ ⟨nodeFits, holds⟩ =>
      reads_pure ⟨fun written => by simpa using .ofImport (nodeFits written), holds⟩
  · exact (reads_member read fits holds).mono fun _ _ ⟨nodesFit, holds⟩ =>
      ⟨fun written node member => .ofStatement (nodesFit written node member), holds⟩

/-- A program fits its role and covers the tokens, which are all that there are before the end. -/
theorem reads_program (fits : input.tokens.length ≤ depth) :
    Reads input [] (fun tokens program => (input.IsWritten → program.Fits .program) ∧
      Covers tokens [program] ∧ input.Ends tokens) (program rules) := by
  refine .current fun start _ => Reads.from ?_
  refine .pass ⟨.nil, Nat.zero_le _⟩ (by decide) fun tokens holds => ?_
  refine Reads.bind (Reads.loop (GetsAll input .part 0 []) ?_ (getsAll_nil holds) :
    Reads input tokens (fun tokens nodes => GetsAll input .part 0 [] tokens nodes ∧
      input.Ends tokens) _)
    fun tokens nodes ⟨⟨nodesFit, holds⟩, atEnd⟩ => reads_pure
      ⟨fun written => .program (nodesFit written), holds.covers.recast (by simp), atEnd⟩
  rintro tokens nodes ⟨nodesFit, holds⟩
  refine .test (tells_at? _) (fun token _ isEnd =>
    readsFrom_end isEnd fun atEnd => ⟨⟨nodesFit, holds⟩, atEnd⟩) ?_
  refine (reads_topLevel read (by omega) holds.exact).bind fun _ next ⟨nextFit, holds⟩ =>
    (reads_endStatement holds).bind fun _ _ holds => reads_pure ⟨⟨?_, ?_⟩, holds.atLeast⟩
  · exact fun written => forall_mem_append.mpr ⟨nodesFit written, nextFit written⟩
  · exact holds.recast (Nat.zero_le _) (by simp)

end

theorem reads_body (ofMember : ReadsNodes input depth 1 .statement mem) (closers : List TokenKind) :
    ReadsNode input depth 0 .body (body mem closers) := by
  intro floor _ hand _ holds
  refine .current fun start _ => Reads.from (.pass holds rfl fun tokens holds => ?_)
  refine Reads.bind (Reads.loop (GetsAll input .statement floor hand) ?_ (getsAll_nil holds) :
    Reads input tokens (GetsAll input .statement floor hand) _)
    fun _ nodes ⟨nodesFit, holds⟩ =>
      reads_pure ⟨fun written => .body (nodesFit written), holds.recast (Nat.le_refl _) (by simp)⟩
  rintro tokens nodes ⟨nodesFit, holds⟩
  have atLeast := holds.atLeast
  refine .test tells_atAny (fun _ _ _ => readsFrom_pure ⟨nodesFit, holds⟩) ?_
  refine .test (tells_at? _) (fun _ _ _ => readsFrom_fail_bind) ?_
  refine (ofMember (by omega) holds.exact).bind fun _ next ⟨nextFit, holds⟩ =>
    (reads_endStatement holds).bind fun _ _ holds => reads_pure ⟨⟨?_, ?_⟩, holds.atLeast⟩
  · exact fun written => forall_mem_append.mpr ⟨nodesFit written, nextFit written⟩
  · exact holds.recast (by omega) (by simp)

/-- Productions that may start over as often as there are tokens never run out. -/
theorem read_rulesAt (input : Input) (depth : Nat) : (rulesAt depth).Read input depth := by
  induction depth with
  | zero =>
    have none {gain : Nat} {role : Role} {parser : Parse Node} :
        ReadsNode input 0 gain role parser := by
      intro _ _ _ _ holds _ _ _ leads
      have atLeast := holds.atLeast
      have atMost := leads.length_le
      omega
    exact ⟨none, none, none, none, none, none, fun _ => none⟩
  | succ _ ih =>
    exact
      { expression := reads_expression ih
        expressionStatement := reads_expressionStatement ih
        keywordNot := reads_keywordNot ih
        ternary := reads_ternary ih
        negation := reads_negation ih
        unary := reads_unary ih
        body := reads_body (reads_member ih) }

end ContractForge.Parse
