import ContractForge.Proofs.Syntax.Coverage

/-!
# Expressions and the tokens they are read from

Every production for expressions gives back a node that fits its role, a tree for the
tokens that it takes, and fails only with errors that the tokens account for. A
production that starts over has taken a token before, so a bound on the depth that
exceeds the number of tokens is never used up.
-/

namespace ContractForge.Parse

open Node

variable {input : Input} {hand : List Node} {depth floor : Nat} {operand : Parse Node}

/-! ### Lists of nodes -/

/-- A comma, after which a list goes on, or the end of the list. -/
theorem reads_comma (gets : GetsAll input role (count + 1) hand taken nodes)
    (atMost : floor ≤ count) :
    Reads input taken (Round.Grows (GetsAll input role floor hand)
      (GetsAll input role floor hand) count) (do
      if ← atMark .comma then
        let _ ← advance
        return .again nodes
      return .done nodes) := by
  obtain ⟨nodesFit, holds⟩ := gets
  refine .test (tells_at? _) (fun comma _ isComma => ?_)
    (reads_pure ⟨nodesFit, holds.least (by omega)⟩)
  exact .take holds isComma rfl fun _ holds =>
    reads_pure ⟨⟨nodesFit, holds.least (by omega)⟩, holds.exceeds (by omega)⟩

/-- Nodes between commas and line ends, up to a closing mark. -/
theorem reads_listed (ofElement : ReadsNode input depth 1 role element) :
    ReadsNodes input depth 0 role (loop (fun nodes => do
      if ← atMark closer then
        return .done nodes
      let node ← element
      let nodes := nodes ++ [node]
      skipNewlines
      if ← atMark .comma then
        let _ ← advance
        skipNewlines
        return .again nodes
      return .done nodes) ([] : List Node)) := by
  intro floor _ hand _ holds
  refine .loop (GetsAll input role floor hand) (fun _ nodes ⟨nodesFit, holds⟩ => ?_)
    (getsAll_nil holds)
  have atLeast := holds.atLeast
  refine .test (tells_at? _) (fun _ _ _ => readsFrom_pure ⟨nodesFit, holds⟩) ?_
  refine (ofElement (by omega) holds.exact).bind fun _ node gets => ?_
  obtain ⟨nodesFit, holds⟩ := getsAll_concat nodesFit gets
  refine .pass holds rfl fun _ holds => ?_
  refine .test (tells_at? _) (fun comma _ isComma => ?_)
    (reads_pure ⟨nodesFit, holds.least (by omega)⟩)
  refine .take holds isComma rfl fun _ holds => .pass holds rfl fun _ holds => ?_
  exact reads_pure ⟨⟨nodesFit, holds.least (by omega)⟩, holds.exceeds (by omega)⟩

/-! ### Arguments and blocks -/

theorem tells_atArgumentsEnd (parenthesized : Bool) :
    Tells (atArgumentsEnd parenthesized) (fun _ => True) (fun _ => True) := by
  intro _
  cases parenthesized with
  | false | true => exact ⟨_, rfl, by split <;> trivial⟩

theorem fits_name (shown : input.Shows token) (isName : token.kind = .identifier)
    (written : input.IsWritten) : (leaf token .identifier).Fits .identifier :=
  .identifier ((shown.written written).identifier isName)

theorem reads_blockParamList : ReadsNodes input depth 0 .identifier blockParamList := by
  intro floor _ hand _ holds
  refine .loop (GetsAll input .identifier floor hand) (fun _ names ⟨namesFit, holds⟩ => ?_)
    (getsAll_nil holds)
  refine .test (tells_at? _) (fun _ _ _ => readsFrom_pure ⟨namesFit, holds⟩) ?_
  refine .expect (by decide) fun name shown isName => .after silent_declare fun _ => ?_
  refine reads_comma (getsAll_concat namesFit ⟨fits_name shown isName, ?_⟩) holds.atLeast
  exact holds.exact.name (.inl isName) .identifier

theorem reads_blockParams : ReadsNodes input depth 0 .identifier blockParams := by
  intro floor _ _ fits holds
  refine .test (tells_at? _) (fun bar _ isBar => ?_) (reads_pure (getsAll_nil holds))
  refine .take holds isBar rfl fun tokens holds => ?_
  have fits : input.tokens.length < floor + 1 + depth := by omega
  refine (reads_blockParamList fits holds).bind fun _ names ⟨namesFit, holds⟩ => ?_
  exact .demand holds rfl fun _ _ holds =>
    reads_pure ⟨namesFit, holds.least (by omega)⟩

section

variable {rules : Rules} (read : rules.Read input depth) {kind : TokenKind}

include read

theorem reads_argument : ReadsNode input depth 1 .operand (argument rules) :=
  fun _ _ _ fits holds =>
    .test (tells_at? _) (fun _ _ _ => (read.keywordNot fits holds).from) (read.ternary fits holds)

theorem readsFrom_labelPair (isLabel : token.kind = .label)
    (fits : input.tokens.length < floor + 1 + depth) (holds : Holds floor taken hand) :
    ReadsFrom input token taken (Gets input .pair (floor + 1) hand) (labelPair rules) := by
  refine .take holds isLabel rfl fun _ holds => .pass holds rfl fun _ holds => ?_
  exact (reads_argument read fits holds).bind fun tokens value ⟨valueFits, holds⟩ =>
    reads_pure ⟨fun written => .pair (.ofSymbol .symbol) (valueFits written),
      holds.recast (by omega) (by simp)⟩

/-- Positional arguments and pairs that fit, and trees that cover the tokens with them. -/
def GetsArguments (input : Input) (floor : Nat) (hand : List Node) (tokens : List Token)
    (found : List Node × List Node) : Prop :=
  (input.IsWritten → ∀ value ∈ found.1, value.Fits .operand) ∧
    (input.IsWritten → ∀ pair ∈ found.2, pair.Fits .pair) ∧
    Holds floor tokens (hand ++ found.1 ++ found.2)

theorem reads_argumentList (parenthesized : Bool) :
    ReadsNodes input depth 0 .operand (argumentList rules parenthesized) := by
  intro floor taken hand fits holds
  refine .current fun start _ => Reads.from ?_
  refine Reads.bind (Reads.loop (GetsArguments input floor hand) ?_
    ⟨by simp, by simp, by simpa using holds⟩ : Reads input taken
      (GetsArguments input floor hand) _) ?_
  · rintro tokens ⟨_, pairs⟩ ⟨positionalFit, pairsFit, holds⟩
    have atLeast := holds.atLeast
    refine .test (tells_atArgumentsEnd _)
      (fun _ _ _ => readsFrom_pure ⟨positionalFit, pairsFit, holds⟩) ?_
    refine Reads.bind (?_ : Reads input tokens (GetsArguments input (tokens.length + 1) hand) _) ?_
    · refine .test (tells_at? _) (fun label _ isLabel => ?_) ?_
      · refine (readsFrom_labelPair read isLabel (by omega) holds.exact).bind
          fun _ pair ⟨pairFits, holds⟩ => ?_
        exact reads_pure ⟨positionalFit, fits_concat pairsFit pairFits,
          holds.recast (Nat.le_refl _) (by simp)⟩
      · refine (reads_argument read (by omega) holds.exact).bind
          fun _ value ⟨valueFits, holds⟩ => ?_
        refine .test (tells_at? _) (fun arrow _ isArrow => ?_)
          (reads_pure ⟨fits_concat positionalFit valueFits, pairsFit, ?_⟩)
        · refine .take holds isArrow rfl fun _ holds => ?_
          refine (reads_argument read (by omega) holds).bind fun _ target ⟨targetFits, holds⟩ => ?_
          exact reads_pure ⟨positionalFit, fits_concat pairsFit fun written =>
            .pair (valueFits written) (targetFits written),
            holds.recast (by omega) (by simp)⟩
        · exact holds.shuffle (Nat.le_refl _) fun node => by
            simp [notables_cons value pairs, or_comm]
    · rintro later ⟨_, _⟩ ⟨positionalFit, pairsFit, holds⟩
      refine .test (tells_at? _) (fun comma _ isComma => ?_)
        (reads_pure ⟨positionalFit, pairsFit, holds.least (by omega)⟩)
      refine .take holds isComma rfl fun _ holds =>
        .pass holds rfl fun _ holds => ?_
      exact reads_pure ⟨⟨positionalFit, pairsFit, holds.least (by omega)⟩, holds.exceeds (by omega)⟩
  · rintro tokens ⟨_, pairs⟩ ⟨positionalFit, pairsFit, holds⟩
    dsimp only
    split
    · rename_i isEmpty
      obtain rfl : pairs = [] := by simpa using isEmpty
      exact reads_pure ⟨positionalFit, by simpa using holds⟩
    · exact reads_pure ⟨fits_concat positionalFit fun written => .hash (pairsFit written),
        holds.recast (Nat.le_refl _) (by simp)⟩

theorem reads_callArguments : ReadsNodes input (depth + 1) 0 .operand (callArguments rules) := by
  intro _ _ _ _ holds
  refine .demand holds rfl fun _ _ holds => .pass holds rfl fun _ holds => ?_
  refine (reads_argumentList read true (by omega) holds).bind
    fun _ values ⟨valuesFit, holds⟩ => .pass holds rfl fun _ holds => ?_
  exact .demand holds rfl fun _ tokens holds =>
    reads_pure ⟨valuesFit, holds.least (by omega)⟩

/-- A block, if there is one, and trees that cover the tokens with it. -/
def GetsBlock (input : Input) (floor : Nat) (hand : List Node) (tokens : List Token)
    (found : Option Node) : Prop :=
  (∀ block ∈ found, block.kind = .block) ∧ (input.IsWritten → ∀ block ∈ found, block.Fits .block) ∧
    Holds floor tokens (hand ++ found.toList)

theorem reads_blockAfter (known : closer.isPlain) (fits : input.tokens.length < floor + 1 + depth)
    (holds : Holds (floor + 1) taken hand) : Reads input taken (GetsBlock input floor hand)
      (do return some (← blockAfter rules opener closer)) := by
  refine (Reads.outsideLoopHeads (.inInnerScope ?_)).bind fun _ _ gets => reads_pure gets
  refine (reads_blockParams fits holds).bind fun _ names ⟨namesFit, holds⟩ => ?_
  refine (read.body [closer] fits holds).bind fun _ body ⟨bodyFits, holds⟩ => ?_
  refine .demand holds known fun _ _ holds => reads_pure
    ⟨by simp [nodeAt], fun written => ?_, holds.recast (by omega) (by simp)⟩
  simpa using .block (.blockParams (namesFit written)) (bodyFits written)

theorem reads_block? (fits : input.tokens.length < floor + (depth + 1))
    (holds : Holds floor taken hand) :
    Reads input taken (GetsBlock input floor hand) (block? rules) := by
  refine .test tells_atBlockDo (fun opener _ isDo => ?_) (.test (tells_at? _)
    (fun opener _ isBrace => ?_) (reads_pure ⟨by simp, by simp, by simpa using holds⟩))
  · exact .take holds isDo rfl fun _ holds =>
      reads_blockAfter read rfl (by omega) holds
  · exact .take holds isBrace rfl fun _ holds =>
      reads_blockAfter read rfl (by omega) holds

/-- A call without receiver, whose name is among the trees as a variable. -/
theorem reads_callTail (named : input.IsWritten → name.value ≠ "")
    (argsFit : input.IsWritten → ∀ value ∈ args, value.Fits .operand)
    (fits : input.tokens.length < floor + (depth + 1))
    (holds : Holds floor taken (hand ++ [leaf name .identifier] ++ args)) :
    Reads input taken (Gets input .operand floor hand) (callTail rules name args none) := by
  refine (reads_block? read fits holds).bind fun _ block ⟨_, blockFits, holds⟩ => ?_
  have callFits (written : input.IsWritten) : (nodeAt name .call
      (nodeAt name .args args .absent :: block.toList) (.text name.value)).Fits .operand :=
    .call (named written) (.args (argsFit written)) (blockFits written)
  cases block <;> exact reads_pure ⟨callFits, holds.covers.call (.inl ⟨rfl, rfl⟩)
    fun node => by simp [or_left_comm], holds.atLeast⟩

/-- A call with a receiver, whose name is among the trees as that of a method. -/
theorem reads_methodCallTail (named : input.IsWritten → name.value ≠ "")
    (argsFit : input.IsWritten → ∀ value ∈ args, value.Fits .operand)
    (receiverFits : input.IsWritten → receiver.Fits .operand)
    (fits : input.tokens.length < floor + (depth + 1))
    (holds : Holds floor taken (hand ++ [receiver] ++ [leaf name .methodCall] ++ args)) :
    Reads input taken (Gets input .operand floor hand)
      (callTail rules name args (some receiver)) := by
  refine (reads_block? read fits holds).bind fun _ block ⟨isBlock, blockFits, holds⟩ => ?_
  have callFits (written : input.IsWritten) : (nodeAt name .methodCall
      (receiver :: nodeAt name .args args .absent :: block.toList)
      (.text name.value)).Fits .operand :=
    .methodCall (named written) (receiverFits written) (.args (argsFit written)) (blockFits written)
  cases block with
  | none =>
    exact reads_pure ⟨callFits, holds.covers.call (.inr ⟨rfl, rfl⟩)
      fun node => by simp [or_left_comm], holds.atLeast⟩
  | some block =>
    dsimp only
    split
    · -- An iteration is a loop, which does not name the method.
      have isWord : name.value ∈ blockLoops := by simp_all
      obtain rfl : args = [] := by simp_all
      have plain : (leaf name .methodCall).kind ≠ .classDef ∧
          (leaf name .methodCall).kind ≠ .methodDef := by simp [leaf, nodeAt]
      have isInner : notables [block] = notables block.children := by
        simp [notables_eq, isBlock block rfl]
      refine reads_pure ⟨fun written => ?_, holds.covers.forget plain fun node => ?_, holds.atLeast⟩
      · cases blockFits written block rfl with
        | block paramsFit bodyFits =>
          exact .iteration isWord (receiverFits written) paramsFit bodyFits
      · simp [notables_cons receiver block.children, isInner, or_left_comm]
    · exact reads_pure ⟨callFits, holds.covers.call (.inr ⟨rfl, rfl⟩)
        fun node => by simp [or_left_comm], holds.atLeast⟩

/-! ### Primary expressions -/

theorem reads_hashPair : ReadsNode input depth 1 .pair (hashPair rules) := by
  intro _ _ _ fits holds
  refine .test (tells_at? _)
    (fun label _ isLabel => readsFrom_labelPair read isLabel (by omega) holds) ?_
  refine (read.ternary fits holds).bind fun _ key ⟨keyFits, holds⟩ =>
    .pass holds rfl fun _ holds => ?_
  refine .demand holds rfl fun _ _ holds => .pass holds rfl fun _ holds => ?_
  exact (read.ternary (by omega) holds).bind fun _ value ⟨valueFits, holds⟩ =>
    reads_pure ⟨fun written => .pair (keyFits written) (valueFits written),
      holds.recast (by omega) (by simp)⟩

theorem reads_call {args : Parse (List Node)} (named : input.IsWritten → token.value ≠ "")
    (ofArgs :
      Reads input taken (GetsAll input .operand floor (hand ++ [leaf token .identifier])) args)
    (fits : input.tokens.length < floor + (depth + 1)) :
    Reads input taken (Gets input .operand floor hand) (do callTail rules token (← args) none) :=
  ofArgs.bind fun _ _ ⟨valuesFit, holds⟩ => reads_callTail read named valuesFit fits holds

/-- What a name that was read as a variable turns out to be. -/
theorem reads_identifierExpression (shown : input.Shows token) (isName : token.kind = .identifier)
    (fits : input.tokens.length < floor + depth)
    (holds : Holds floor taken (hand ++ [leaf token .identifier])) :
    Reads input taken (Gets input .operand floor hand) (identifierExpression rules token) := by
  have named (written : input.IsWritten) := (shown.written written).identifier isName
  have variableFits (written : input.IsWritten) : (leaf token .identifier).Fits .operand :=
    .ofIdentifier (fits_name shown isName written)
  refine .test (tells_atAttached _) (fun _ _ _ => Reads.from ?_) ?_
  · exact reads_call read named (reads_callArguments read (by omega) holds) (by omega)
  refine .test tells_isLocal (fun _ _ _ => readsFrom_pure ⟨variableFits, holds⟩) ?_
  refine .current fun following _ => ?_
  split
  · exact (reads_call read named (reads_argumentList read false fits holds) (by omega)).from
  · refine Reads.from (.test tells_atBlockDo (fun _ _ _ => Reads.from ?_)
      (reads_pure ⟨variableFits, holds⟩))
    exact reads_callTail read named (by simp) (by omega) (by simpa using holds)

theorem reads_constantExpression (shown : input.Shows token) (isName : token.kind = .constant)
    (fits : input.tokens.length < floor + depth)
    (holds : Holds floor taken (hand ++ [leaf token .identifier])) :
    Reads input taken (Gets input .operand floor hand) (constantExpression rules token) := by
  have named (written : input.IsWritten) := (shown.written written).constant isName
  refine .test (tells_atAttached _) (fun _ _ _ => Reads.from ?_)
    (reads_pure ⟨fun written => .ofConstant (.constant (named written)), ?_, holds.atLeast⟩)
  · exact reads_call read named (reads_callArguments read (by omega) holds) (by omega)
  · have plain : (leaf token .identifier).kind ≠ .classDef ∧
        (leaf token .identifier).kind ≠ .methodDef := by simp [leaf, nodeAt]
    have kept : Covers taken hand := holds.covers.forget plain fun node => by simp [or_comm]
    exact kept.addLeaf rfl fun isName => by simp [IsName, leaf, nodeAt] at isName

theorem reads_parenthesized : ReadsNode input depth 0 .operand (parenthesized rules opener) := by
  intro _ _ _ fits holds
  refine .pass holds rfl fun _ holds => .test (tells_at? _) (fun closer _ isCloser => ?_) ?_
  · exact .take holds isCloser rfl fun _ holds =>
      reads_pure ⟨fun _ => .literal, holds.recast (by omega) (by simp)⟩
  · refine (read.expressionStatement fits holds).bind fun _ node ⟨nodeFits, holds⟩ =>
      .pass holds rfl fun _ holds => ?_
    exact .demand holds rfl fun _ _ holds =>
      reads_pure ⟨nodeFits, holds.least (by omega)⟩

omit read in
/-- A number with too many digits is one of the tokens. -/
theorem reads_integerPayload (shown : token ∈ input.tokens) (isInteger : token.kind = .integer) :
    Reads input taken (fun tokens _ => tokens = taken) (integerPayload token) := by
  rintro front _ state leads -
  by_cases long : Text.exceeds state.digitLimit token.value.toList
  · have fails : (integerPayload token).run state =
        .error (.tooManyDigits (some token.value.toList.length)) := by
      show (if _ then throw _ >>= _ else _ : Parse Payload).run state = _
      rw [if_pos long]
      rfl
    rw [fails]
    exact ⟨token, shown, isInteger, leads.limit ▸ long⟩
  · have runs : (integerPayload token).run state =
        .ok (.integer (Text.digitsValue token.value.toList), state) := by
      show (if _ then throw _ >>= _ else _ : Parse Payload).run state = _
      rw [if_neg long]
      rfl
    rw [runs]
    exact ⟨taken, leads, rfl⟩

theorem reads_primary : ReadsNode input (depth + 1) 1 .operand (primary rules) := by
  intro floor taken hand _ holds
  refine .current fun token shown => ?_
  -- A word that is a leaf of its own.
  have alone {kind : TokenKind} {node : Node} (isKind : token.kind = kind)
      (known : kind.isPlain) (nodeFits : node.Fits .operand)
      (plain : notables [node] = []) :
      ReadsFrom input token taken (Gets input .operand (floor + 1) hand) (do
        let _ ← advance
        return node) :=
    .take holds isKind known fun _ holds =>
      reads_pure ⟨fun _ => nodeFits, holds.recast (Nat.le_refl _) (by simp [plain])⟩
  split
  case h_1 isInteger =>
    refine .take holds isInteger rfl fun _ holds => ?_
    refine (reads_integerPayload (shown.mem (by simp [isInteger])) isInteger).bind
      fun _ payload same => ?_
    subst same
    exact reads_pure ⟨fun _ => .literal, holds.recast (Nat.le_refl _) (by simp)⟩
  case h_2 isFloat =>
    refine .take holds isFloat rfl fun _ holds => ?_
    split
    · exact reads_pure ⟨fun _ => .literal, holds.recast (Nat.le_refl _) (by simp)⟩
    · rename_i unread
      have mem := shown.mem (by simp [isFloat])
      exact fun _ _ _ _ _ => ⟨token, mem, isFloat, rfl, unread⟩
  case h_3 isString => exact alone isString rfl .literal (by simp)
  case h_4 isText => exact alone isText rfl .interpolated (by simp)
  case h_5 isSymbol => exact alone isSymbol rfl (.ofSymbol .symbol) (by simp)
  case h_6 isTrue => exact alone isTrue rfl .literal (by simp)
  case h_7 isFalse => exact alone isFalse rfl .literal (by simp)
  case h_8 isNil => exact alone isNil rfl .literal (by simp)
  case h_9 isSelf => exact alone isSelf rfl .selfRef (by simp)
  case h_10 isField => exact alone isField rfl .ivar (by simp)
  case h_11 isConstant =>
    exact .advance (by simp [isConstant]) (reads_constantExpression read shown isConstant
      (by omega) (holds.name (.inr isConstant) .identifier))
  case h_12 isName =>
    exact .advance (by simp [isName]) (reads_identifierExpression read shown isName (by omega)
      (holds.name (.inl isName) .identifier))
  case h_13 isParen =>
    exact .take holds isParen rfl fun _ holds =>
      reads_parenthesized read (by omega) holds
  case h_14 isBracket =>
    refine .take holds isBracket rfl fun _ holds =>
      .pass holds rfl fun _ holds => ?_
    refine (reads_listed (reads_argument read) (by omega) holds).bind
      fun _ elements ⟨elementsFit, holds⟩ => .demand holds rfl fun _ _ holds => ?_
    exact reads_pure ⟨fun written => .array (elementsFit written),
      holds.recast (by omega) (by simp)⟩
  case h_15 isBrace =>
    refine .take holds isBrace rfl fun _ holds =>
      .pass holds rfl fun _ holds => ?_
    refine (reads_listed (reads_hashPair read) (by omega) holds).bind
      fun _ pairs ⟨pairsFit, holds⟩ => .demand holds rfl fun _ _ holds => ?_
    exact reads_pure ⟨fun written => .hash (pairsFit written), holds.recast (by omega) (by simp)⟩
  case h_16 =>
    split
    all_goals exact readsFrom_failAt _
  case h_17 => exact readsFrom_failAt _
  case h_18 => exact readsFrom_failAt _

/-! ### Postfix expressions -/

/-- A call behind a dot, given trees for the receiver and what is before it. -/
theorem reads_dottedCall (receiverFits : input.IsWritten → receiver.Fits .operand)
    (isDot : dot.kind = .mark .dot) (fits : input.tokens.length < floor + 1 + (depth + 1))
    (holds : Holds floor taken (hand ++ [receiver])) :
    Reads input (taken ++ [dot]) (Gets input .operand (floor + 1) hand)
      (dottedCall rules receiver) := by
  refine .skip (by decide) fun skipped areSkipped => .current fun name shown => ?_
  split
  · exact readsFrom_fail_bind
  · rename_i isName
    have isName : name.IsName := by
      simpa [Token.IsName, Classical.or_iff_not_imp_left] using isName
    have notEnd : name.kind ≠ .endOfInput := by
      obtain isName | isName := isName <;> simp [isName]
    have named (written : input.IsWritten) : name.value ≠ "" :=
      isName.elim (shown.written written).identifier (shown.written written).constant
    have holds : Holds (floor + 1) (taken ++ [dot] ++ skipped ++ [name])
        (hand ++ [receiver] ++ [leaf name .methodCall]) := by
      refine ⟨holds.covers.dotted isDot areSkipped isName, ?_⟩
      have atLeast := holds.atLeast
      simp only [List.length_append, List.length_singleton]
      omega
    refine .advance notEnd ?_
    refine Reads.bind (?_ : Reads input _ (GetsAll input .operand (floor + 1)
      (hand ++ [receiver] ++ [leaf name .methodCall])) _) fun _ values ⟨valuesFit, holds⟩ =>
        reads_methodCallTail read named valuesFit receiverFits fits holds
    exact .test (tells_atAttached _) (fun _ _ _ => (reads_callArguments read fits holds).from)
      (reads_pure (getsAll_nil holds))

theorem reads_indexing (baseFits : input.IsWritten → base.Fits .operand)
    (fits : input.tokens.length < floor + depth) (holds : Holds floor taken (hand ++ [base])) :
    Reads input taken (Gets input .operand floor hand) (indexing rules opener base) := by
  refine .pass holds rfl fun _ holds => ?_
  refine (read.expression fits holds).bind fun _ index ⟨indexFits, holds⟩ =>
    .pass holds rfl fun _ holds => ?_
  refine .test (tells_at? _) (fun _ _ _ => readsFrom_fail_bind) ?_
  exact .demand holds rfl fun _ _ holds =>
    reads_pure ⟨fun written => .index (baseFits written) (indexFits written),
      holds.recast (by omega) (by simp)⟩

omit read in
theorem reads_scopedConstant (isConstant : outer.kind = .constant)
    (holds : Holds floor taken (hand ++ [outer])) :
    Reads input taken (Gets input .operand (floor + 1) hand) (scopedConstant outer) := by
  refine .demand holds rfl fun name tokens holds => reads_pure
    ⟨fun _ => .ofConstant ?_, ?_, holds.atLeast⟩
  · obtain ⟨_, payload, _, _, _⟩ := outer
    subst isConstant
    have named : payload.spliced ++ "::" ++ name.value ≠ "" := by simp
    exact .constant named
  · have isNotable : outer.kind.isNotable := by rw [isConstant]; rfl
    have isLeaf : outer.children = [] := holds.covers.constants outer
      (by simp [notables_eq, -Kind.isNotable, isNotable]) isConstant
    have plain : outer.kind ≠ .classDef ∧ outer.kind ≠ .methodDef := by simp [isConstant]
    have kept : Covers tokens hand := holds.covers.forget plain fun node => by
      simp [notables_eq outer, -Kind.isNotable, isNotable, isLeaf, or_comm]
    exact kept.addLeaf rfl fun isName => by simp [IsName, isConstant] at isName

theorem reads_postfixed : ReadsNode input (depth + 1) 1 .operand (postfixed rules) := by
  intro floor taken hand fits holds
  refine (reads_primary read fits holds).bind fun _ start gets => ?_
  refine .loop (Gets input .operand (floor + 1) hand)
    (fun tokens expression ⟨expressionFits, holds⟩ => ?_)
    gets
  have atLeast := holds.atLeast
  -- Every round takes a token first, and goes on with what it makes of the expression.
  have goesOn {parser : Parse Node} {taken : List Token}
      (ofParser : Reads input taken (Gets input .operand (tokens.length + 1) hand) parser) :
      Reads input taken (Round.Grows (Gets input .operand (floor + 1) hand)
        (Gets input .operand (floor + 1) hand)
        tokens.length) (do return .again (← parser)) :=
    ofParser.bind fun _ node ⟨nodeFits, holds⟩ =>
      reads_pure ⟨⟨nodeFits, holds.least (by omega)⟩, holds.atLeast⟩
  refine .test (tells_at? _) (fun dot _ isDot => ?_) ?_
  · exact .advance (by simp [isDot])
      (goesOn (reads_dottedCall read expressionFits isDot (by omega) holds.exact))
  refine .test (tells_atAttached _) (fun bracket _ isBracket => ?_) ?_
  · exact .take holds.exact isBracket rfl fun _ holds =>
      goesOn (reads_indexing read expressionFits (by omega) holds)
  refine fun scope _ => .ask (tells_at? _) (fun isScope => ?_)
    fun _ => readsFrom_pure ⟨expressionFits, holds⟩
  split
  · rename_i isConstant
    exact .take holds.exact isScope rfl fun _ holds => goesOn
      ((reads_scopedConstant (by simpa using isConstant) holds).mono
        fun _ _ ⟨nodeFits, holds⟩ => ⟨nodeFits, holds.least (by omega)⟩)
  · exact readsFrom_pure ⟨expressionFits, holds⟩

/-! ### Operators -/

theorem reads_unary : ReadsNode input (depth + 1) 1 .operand (unary rules) := by
  intro _ _ _ fits holds
  refine .test tells_atAny (fun sign shown isSign => ?_) (reads_postfixed read fits holds)
  have known : ∃ mark, sign.kind = .mark mark ∧ (mark = .bang ∨ mark = .tilde) := by
    obtain isBang | isTilde : sign.kind = .mark .bang ∨ sign.kind = .mark .tilde := by
      simpa using isSign
    · exact ⟨_, isBang, .inl rfl⟩
    · exact ⟨_, isTilde, .inr rfl⟩
  obtain ⟨mark, isMark, known⟩ := known
  have isOperator (written : input.IsWritten) : sign.value ∈ unarySpellings := by
    rw [(shown.written written).mark isMark]
    obtain rfl | rfl := known <;> decide
  refine .take holds isMark (by obtain rfl | rfl := known <;> decide) fun _ holds => ?_
  exact (read.unary (by omega) holds).bind fun _ operand ⟨operandFits, holds⟩ =>
    reads_pure ⟨fun written => .unary (isOperator written) (operandFits written),
      holds.recast (by omega) (by simp)⟩

theorem reads_exponentiation : ReadsNode input (depth + 1) 1 .operand (exponentiation rules) := by
  intro _ _ _ fits holds
  refine (reads_unary read fits holds).bind fun _ left ⟨leftFits, holds⟩ => ?_
  refine .test (tells_at? _) (fun sign _ isSign => ?_) (reads_pure ⟨leftFits, holds⟩)
  refine .take holds isSign rfl fun _ holds => ?_
  exact (read.negation (by omega) holds).bind fun _ right ⟨rightFits, holds⟩ =>
    reads_pure ⟨fun written => .binary (by decide) (leftFits written) (rightFits written),
      holds.recast (by omega) (by simp)⟩

theorem reads_negation : ReadsNode input (depth + 1) 1 .operand (negation rules) := by
  intro _ _ _ fits holds
  refine .test (tells_at? _) (fun sign _ isSign => ?_) (reads_exponentiation read fits holds)
  refine .take holds isSign rfl fun _ holds => ?_
  exact (read.negation (by omega) holds).bind fun _ operand ⟨operandFits, holds⟩ =>
    reads_pure ⟨fun written => .unary (by decide) (operandFits written),
      holds.recast (by omega) (by simp)⟩

omit read in
theorem reads_binaryLevel (areOperators : ∀ sign ∈ operators, sign.spelling ∈ binarySpellings ∧
      (TokenKind.mark sign).isPlain) (ofOperand : ReadsNode input depth 1 .operand operand) :
    ReadsNode input depth 1 .operand (binaryLevel operand operators) := by
  intro floor _ hand fits holds
  refine (ofOperand fits holds).bind fun _ start gets => ?_
  refine .loop (Gets input .operand (floor + 1) hand) (fun _ left ⟨leftFits, holds⟩ => ?_) gets
  have atLeast := holds.atLeast
  refine .current fun token shown => ?_
  split
  · rename_i sign isSign
    split
    · rename_i isMember
      obtain ⟨isOperator, plain⟩ := areOperators sign (by simpa using isMember)
      have isOperator (written : input.IsWritten) : token.value ∈ binarySpellings :=
        (shown.written written).mark isSign ▸ isOperator
      refine .take holds.exact isSign plain fun _ holds =>
        .pass holds rfl fun _ holds => ?_
      refine (ofOperand (by omega) holds).bind fun _ right ⟨rightFits, holds⟩ => ?_
      exact reads_pure ⟨⟨fun written => .binary (isOperator written) (leftFits written)
        (rightFits written), holds.recast (by omega) (by simp)⟩, holds.exceeds (by omega)⟩
    · exact readsFrom_pure ⟨leftFits, holds⟩
  · exact readsFrom_pure ⟨leftFits, holds⟩

theorem reads_infixExpression : ReadsNode input (depth + 1) 1 .operand (infixExpression rules) := by
  have areOperators : ∀ operators ∈ operatorLevels, ∀ sign ∈ operators,
      sign.spelling ∈ binarySpellings ∧ (TokenKind.mark sign).isPlain := by decide
  refine List.foldlRecOn (motive := ReadsNode input (depth + 1) 1 .operand) operatorLevels
    binaryLevel (reads_negation read) ?_
  intro _ ofOperand operators mem
  exact reads_binaryLevel (areOperators operators mem) ofOperand

theorem reads_ternary : ReadsNode input (depth + 1) 1 .operand (ternary rules) := by
  intro _ _ _ fits holds
  refine (reads_infixExpression read fits holds).bind fun _ condition ⟨conditionFits, holds⟩ => ?_
  refine .test (tells_at? _) (fun sign _ isSign => ?_) (reads_pure ⟨conditionFits, holds⟩)
  refine .take holds isSign rfl fun _ holds => .pass holds rfl fun _ holds => ?_
  refine (read.ternary (by omega) holds).bind fun _ yes ⟨yesFits, holds⟩ =>
    .pass holds rfl fun _ holds => .demand holds rfl fun _ _ holds =>
      .pass holds rfl fun _ holds => ?_
  exact (read.ternary (by omega) holds).bind fun _ no ⟨noFits, holds⟩ =>
    reads_pure ⟨fun written => .ternary (conditionFits written) (yesFits written) (noFits written),
      holds.recast (by omega) (by simp)⟩

theorem reads_keywordNot : ReadsNode input (depth + 1) 1 .operand (keywordNot rules) := by
  intro _ _ _ fits holds
  refine .test (tells_at? _) (fun word _ isWord => ?_) (reads_ternary read fits holds)
  refine .take holds isWord rfl fun _ holds => ?_
  exact (read.keywordNot (by omega) holds).bind fun _ operand ⟨operandFits, holds⟩ =>
    reads_pure ⟨fun written => .unary (by decide) (operandFits written),
      holds.recast (by omega) (by simp)⟩

theorem reads_expression : ReadsNode input (depth + 1) 1 .operand (expression rules) := by
  intro floor _ hand fits holds
  refine (reads_keywordNot read fits holds).bind fun _ start gets => ?_
  refine .loop (Gets input .operand (floor + 1) hand) (fun _ left ⟨leftFits, holds⟩ => ?_) gets
  have atLeast := holds.atLeast
  refine .current fun word shown => ?_
  split
  · rename_i isWord
    have known : word.kind.isPlain := by
      obtain isAnd | isOr : word.kind = .keyword .andKw ∨ word.kind = .keyword .orKw := by
        simpa using isWord
      · rw [isAnd]; rfl
      · rw [isOr]; rfl
    refine .take holds.exact rfl known fun _ holds => .pass holds rfl fun _ holds => ?_
    refine (reads_keywordNot read (by omega) holds).bind fun _ right ⟨rightFits, holds⟩ => ?_
    refine reads_pure ⟨⟨fun written => .binary ?_ (leftFits written) (rightFits written),
      holds.recast (by omega) (by simp)⟩, holds.exceeds (by omega)⟩
    split <;> decide
  · exact readsFrom_pure ⟨leftFits, holds⟩

omit read in
theorem assignmentOperator?_mem (isOperator : assignmentOperator? kind = some op) :
    op ∈ assignmentOperators ∧ kind.isPlain := by
  unfold assignmentOperator? at isOperator
  split at isOperator <;> cases isOperator <;> decide

omit read in
theorem reads_checkTarget (start : Token) :
    Reads input taken (fun tokens _ => target.isAssignable ∧ tokens = taken)
      (checkTarget start target) := by
  unfold checkTarget
  intro _ _
  split
  case h_5 isCall =>
    split
    · exact readsFrom_failAt _
    · rename_i isEmpty
      refine readsFrom_pure ⟨?_, rfl⟩
      simpa [isAssignable, isCall] using isEmpty
  case h_6 => exact readsFrom_failAt _
  all_goals
    rename_i isKind
    exact readsFrom_pure ⟨by simp [isAssignable, isKind], rfl⟩

theorem reads_expressionStatement :
    ReadsNode input (depth + 1) 1 .operand (expressionStatement rules) := by
  intro floor _ hand fits holds
  refine .current fun start _ => Reads.from ?_
  refine (reads_expression read fits holds).bind fun _ target ⟨targetFits, holds⟩ =>
    .current fun token shown => ?_
  split
  · exact readsFrom_pure ⟨targetFits, holds⟩
  · rename_i op isOperator
    obtain ⟨isAssignment, known⟩ := assignmentOperator?_mem isOperator
    refine .take holds rfl known fun _ holds => (reads_checkTarget start).bind
      fun later _ ⟨assignable, same⟩ => ?_
    subst same
    have assigned : Reads input later (Gets input .operand (floor + 1) hand) (do
        skipNewlines
        let value ← rules.expressionStatement
        return nodeAt start .assignment [target, value] (.text op)) := by
      refine .pass holds rfl fun _ holds => ?_
      refine (read.expressionStatement (by omega) holds).bind
        fun _ value ⟨valueFits, holds⟩ =>
          reads_pure ⟨fun written => ?_, holds.recast (by omega) (by simp)⟩
      exact .assignment isAssignment assignable (targetFits written) (valueFits written)
    split
    · exact .after silent_declare fun _ => assigned
    · exact assigned

end

end ContractForge.Parse
