import ContractForge.Proofs.Lowering.MethodScope

/-!
# Values at the ends of branches

The last statement of a method returns its value, and so does the end of every branch if
it is a conditional with a branch for every case. Whether there is a value to return is
decided where the last statement begins: a literal has one, and so has a variable that is
known there. A variable that is declared in the branch itself is not known there, and
its value is not returned (`branches_return`).
-/

namespace ContractForge

open Lower Node List

/-- Lowering the parts of a conditional comes to one of its bodies: behind the conditions up to its
own, and the bodies before it. -/
inductive ComesToBody : Bool → List Node → Nat → Node → Context → Context → Prop where
  | here (ofCondition : Gives (if negated then negation condition else expression condition) before
      text ending) : ComesToBody negated (condition :: body :: rest) 0 body before ending
  | later (ofCondition : Gives (if negated then negation condition else expression condition) before
      text middle) (ofFirst : Gives (inBlock (statements first.children)) middle lowered passed)
      (comes : ComesToBody false rest index body passed ending) :
      ComesToBody negated (condition :: first :: rest) (index + 1) body before ending
  | otherwise : ComesToBody negated [body] 0 body before before

/-- Lowering a statement comes to a tail position of it: inside a branch, behind the statements of
the branch in front of the last. -/
inductive ComesTo : List Nat → Node → Context → Context → Prop where
  | here (ofLine : Gives (noteLine node.line) before () ending) : ComesTo [] node before ending
  | inside (ofLine : Gives (noteLine node.line) before () middle)
      (toBody : ComesToBody (node.payload.isText "unless") node.children index body middle entered)
      (isBody : body.children = front ++ [last])
      (ofFront : Gives (statements front) entered former start)
      (comes : ComesTo path last start ending) :
      ComesTo (index :: path) node before ending

variable {front : List Node} {node last tail returned : Node} {name : String}
  {before after context : Context} {lowered former latter branch : List Statement} {path : List Nat}

/-! ### Tails and branches -/

def bodiesAmong : List Node → List Node
  | _ :: body :: rest => body :: bodiesAmong rest
  | [body] => [body]
  | [] => []

/-- The node at a tail position of a statement: the statement itself or, in a conditional that has a
branch for every case, a tail position of the last statement of a branch. -/
def tailAt : List Nat → Node → Option Node
  | [], node => some node
  | index :: path, node =>
    if node.kind = .conditional ∧ node.children.length % 2 = 1 then do
      let body ← (bodiesAmong node.children)[index]?
      tailAt path (← body.children.getLast?)
    else none

/-- The branch of the last of several statements that belongs to a tail position. -/
def branchAt : List Nat → List Statement → Option (List Statement)
  | [], lowered => some lowered
  | index :: path, lowered =>
    match lowered.getLast? with
    | some (.conditional branches otherwise) => do
      branchAt path (← (branches.map Prod.snd ++ otherwise.toList)[index]?)
    | _ => none

/-- A literal, a field or a variable. -/
structure Node.IsLeaf (node : Node) : Prop where
  kind : node.kind = .literal ∨ node.kind = .ivar ∨ node.kind = .identifier
  isText : node.kind ≠ .literal → ∃ name, node.payload = .text name

/-- The branch ends with the value that the leaf has where lowering comes to it. It is returned if
it is one to return by what is known in the context. The parent's constructor, which may be called
`super`, is not meant. -/
def EndsIn (context : Context) (leaf : Node) (first : Context) (branch : List Statement) : Prop :=
  ∃ returns, returnsValue context leaf = .ok returns ∧
    ((leaf.payload = .text "super" → returns = true ∨ (first.local? leaf.payload).isSome) →
      ∃ text after, Gives (expression leaf) first text after ∧
        branch.getLast? = some (if returns then .returnValue (some text) else .expression text))

theorem branchAt_append
    {leaf : Node} (found : branchAt path latter = some branch)
    (ends : EndsIn context leaf first branch) :
    ∃ whole, branchAt path (former ++ latter) = some whole ∧ EndsIn context leaf first whole := by
  cases path with
  | nil =>
    cases found
    obtain ⟨returns, answer, ends⟩ := ends
    refine ⟨former ++ latter, rfl, returns, answer, fun named => ?_⟩
    obtain ⟨text, after, gives, isLast⟩ := ends named
    refine ⟨text, after, gives, ?_⟩
    rw [getLast?_append, isLast, Option.some_or]
  | cons =>
    refine ⟨branch, ?_, ends⟩
    unfold branchAt at found ⊢
    cases isLast : latter.getLast? with
    | none =>
      rw [isLast] at found
      contradiction
    | some =>
      rw [isLast] at found
      rw [getLast?_append, isLast, Option.some_or]
      exact found

/-! ### Leaves -/

namespace Node.IsLeaf

variable {node returned : Node} (leaf : node.IsLeaf)

include leaf

theorem returning_eq (context : Context) :
    returning context node = (do
      if ← returnsValue context node then
        return ⟨.returnFrom, .absent, node.line, node.column, [node]⟩
      return node) := by
  obtain ⟨kind, _, _, _, _⟩ := node
  obtain rfl | rfl | rfl := leaf.kind <;> rfl

theorem statement_eq :
    statement node = (do
      noteLine node.line
      expressionStatement node) := by
  obtain ⟨kind, _, _, _, _⟩ := node
  obtain rfl | rfl | rfl := leaf.kind <;> rfl

theorem unspelled?_eq (context : Context) : unspelled? context node = .ok none := by
  obtain ⟨kind, _, _, _, _⟩ := node
  obtain rfl | rfl | rfl := leaf.kind
  · rfl
  all_goals
    obtain ⟨_, rfl⟩ := leaf.isText (by simp)
    rfl

theorem gives_returnStatement {lowered : Statement}
    (gives : Gives (returnStatement (some node)) before lowered after) :
    ∃ text middle, Gives (expression node) before text middle ∧
      lowered = .returnValue (some text) := by
  obtain ⟨text, middle, ofText, gives⟩ := gives.ofBind
  obtain ⟨_, _, -, gives⟩ := gives.ofBind
  refine ⟨text, middle, ofText, ?_⟩
  have shown (start : Context) {found : Bool} {ending : Context}
      (asked : Gives (hasText node) start found ending) : found := by
    obtain ⟨_, _, ofPayload, gives⟩ := asked.ofBind
    obtain ⟨isNone, -⟩ := gives_infer_iff.mp ofPayload
    rw [leaf.unspelled?_eq] at isNone
    cases isNone
    exact gives.ofPure.1
  have closes {start ending : Context} (gives : Gives (do
      return .returnValue (if ← hasText node then some text else none)) start lowered ending) :
      lowered = .returnValue (some text) := by
    obtain ⟨_, _, asked, gives⟩ := gives.ofBind
    rw [gives.ofPure.1, shown start asked]
    rfl
  split at gives
  all_goals exact closes gives

theorem endsIn (isReturned : returning context node = .ok returned)
    (gives : Gives (statement returned) before lowered after) :
    ∃ first, ComesTo [] returned before first ∧ EndsIn context node first lowered := by
  rw [leaf.returning_eq] at isReturned
  obtain ⟨returns, answer, isReturned⟩ := ok_of_bind isReturned
  cases returns with
  | true =>
    cases isReturned
    obtain ⟨⟨⟩, first, ofLine, gives⟩ := gives.ofBind
    obtain ⟨_, _, ofReturn, gives⟩ := gives.ofBind
    obtain ⟨text, middle, ofText, rfl⟩ := leaf.gives_returnStatement ofReturn
    rw [gives.ofPure.1]
    exact ⟨first, .here ofLine, true, answer, fun _ => ⟨text, middle, ofText, rfl⟩⟩
  | false =>
    cases isReturned
    rw [leaf.statement_eq] at gives
    obtain ⟨⟨⟩, first, ofLine, gives⟩ := gives.ofBind
    obtain ⟨_, found, asked, lowers⟩ := gives.ofBind
    obtain ⟨rfl, rfl⟩ := gives_get_iff.mp asked
    refine ⟨found, .here ofLine, false, answer, fun named => ?_⟩
    have isNamed : (node.kind == .identifier && node.payload.isText "super" &&
        (found.local? node.payload).isNone && found.method.method == "initialize") = false := by
      by_cases isSuper : node.payload = .text "super"
      · obtain known | known := named isSuper
        · contradiction
        · simp [Option.isNone_eq_false_iff.mpr known]
      · have other : node.payload.isText "super" = false := by
          revert isSuper
          cases node.payload <;> simp [Payload.isText, Payload.text?]
        simp [other]
    rw [isNamed] at lowers
    obtain ⟨text, third, ofText, lowers⟩ := lowers.ofBind
    rw [lowers.ofPure.1]
    exact ⟨text, third, ofText, rfl⟩

end Node.IsLeaf

/-! ### Conditionals -/

theorem exists_of_statements_append {former latter : List Node}
    (gives : Gives (statements (former ++ latter)) before lowered after) :
    ∃ first second middle, lowered = first ++ second ∧
      Gives (statements former) before first middle ∧
        Gives (statements latter) middle second after := by
  induction former generalizing before lowered with
  | nil =>
    refine ⟨[], lowered, before, rfl, ?_, gives⟩
    exact gives_pure
  | cons _ _ ih =>
    obtain ⟨first, _, ofNode, gives⟩ := gives.ofBind
    obtain ⟨_, ofOthers, rfl⟩ := gives.ofReturn
    obtain ⟨firstOthers, second, middle, rfl, ofRest, ofLatter⟩ := ih ofOthers
    refine ⟨first ++ firstOthers, second, middle, (append_assoc _ _ _).symm, ?_, ofLatter⟩
    exact ofNode.bind (ofRest.bind gives_pure)

theorem gives_statements_singleton (gives : Gives (statements [node]) before lowered after) :
    Gives (statement node) before lowered after := by
  obtain ⟨_, _, _, gives⟩ := gives.ofBind
  obtain ⟨_, _, ofOthers, gives⟩ := gives.ofBind
  obtain ⟨rfl, rfl⟩ := ofOthers.ofPure
  obtain ⟨rfl, rfl⟩ := gives.ofPure
  rwa [append_nil]

/-- Only the last of several statements is made to return its value. -/
theorem exists_of_returningLast
    (isLast : nodes.getLast? = some last) (returned : returningLast context nodes = .ok result) :
    ∃ front changed, result = front ++ [changed] ∧ returning context last = .ok changed := by
  induction nodes generalizing result with
  | nil => contradiction
  | cons first rest ih =>
    cases rest with
    | nil =>
      cases isLast
      obtain ⟨changed, isChanged, isResult⟩ := ok_of_bind returned
      cases isResult
      exact ⟨[], changed, rfl, isChanged⟩
    | cons =>
      obtain ⟨_, areChanged, isResult⟩ := ok_of_bind returned
      cases isResult
      obtain ⟨front, changed, rfl, isChanged⟩ := ih isLast areChanged
      exact ⟨first :: front, changed, rfl, isChanged⟩

/-- Each branch comes from the body in its place, made to return its value. -/
theorem exists_of_conditionals {changed : List Node} {negated : Bool}
    (areChanged : returningBranches context nodes = .ok changed)
    {branches : List (String × List Statement)} {otherwise : Option (List Statement)}
    (gives : Gives (conditionals negated changed) before (branches, otherwise) after) {index : Nat}
    {body : Node} (isBody : (bodiesAmong nodes)[index]? = some body) :
    ∃ changedBody branch start ending, returningBody context body = .ok changedBody ∧
      ComesToBody negated changed index changedBody before start ∧
      Gives (statements changedBody.children) start branch ending ∧
      (branches.map Prod.snd ++ otherwise.toList)[index]? = some branch := by
  fun_induction bodiesAmong nodes generalizing changed negated before branches index with
  | case1 condition first _ ih =>
    obtain ⟨changedFirst, ofFirst, areChanged⟩ := ok_of_bind areChanged
    obtain ⟨others, ofOthers, isResult⟩ := ok_of_bind areChanged
    cases isResult
    obtain ⟨_, _, _, _, children⟩ := changedFirst
    unfold conditionals at gives
    obtain ⟨start, text, ofCondition, gives⟩ : ∃ (start : Context) (text : String),
        Gives (if negated then negation condition else expression condition) before text start ∧
        Gives (do
          let lowered ← inBlock (statements children)
          let rest ← conditionals false others
          return ((text, lowered) :: rest.1, rest.2)) start (branches, otherwise) after := by
      cases negated
      all_goals
        obtain ⟨text, first, ofCondition, gives⟩ := gives.ofBind
        exact ⟨first, text, ofCondition, gives⟩
    obtain ⟨lowered, _, ofBody, gives⟩ := gives.ofBind
    obtain ⟨⟨_, _⟩, _, ofRest, gives⟩ := gives.ofBind
    obtain ⟨isResult, rfl⟩ := gives.ofPure
    cases isResult
    obtain ⟨ending, inside, -⟩ := ofBody.ofBlock
    cases index with
    | zero =>
      cases isBody
      exact ⟨_, lowered, start, ending, ofFirst, .here ofCondition, inside, rfl⟩
    | succ =>
      obtain ⟨_, branch, start, ending, isChanged, comes, later⟩ := ih ofOthers ofRest isBody
      exact ⟨_, branch, start, ending, isChanged, .later ofCondition ofBody comes, later⟩
  | case2 =>
    obtain ⟨changedBody, ofBody, isResult⟩ := ok_of_bind areChanged
    cases isResult
    obtain ⟨_, _, _, _, _⟩ := changedBody
    obtain ⟨lowered, inBody, isResult⟩ := gives.ofReturn
    cases isResult
    obtain ⟨ending, inside, -⟩ := inBody.ofBlock
    cases index with
    | zero =>
      cases isBody
      exact ⟨_, lowered, before, ending, ofBody, .otherwise, inside, rfl⟩
    | succ => contradiction
  | case3 => contradiction

/-- Every tail position of a statement that is made to return its value ends its branch. -/
theorem exists_branchAt (isTail : tailAt path node = some tail)
    (leaf : tail.IsLeaf) (isReturned : returning context node = .ok returned)
    (gives : Gives (statement returned) before lowered after) :
    ∃ first branch, ComesTo path returned before first ∧ branchAt path lowered = some branch ∧
      EndsIn context tail first branch := by
  induction path generalizing node returned before after lowered with
  | nil =>
    cases isTail
    obtain ⟨first, comes, ends⟩ := leaf.endsIn isReturned gives
    exact ⟨first, lowered, comes, rfl, ends⟩
  | cons _ _ ih =>
    obtain ⟨_, _, _, _, children⟩ := node
    rw [tailAt] at isTail
    split at isTail
    · rename_i isConditional
      obtain ⟨rfl, isOdd⟩ := isConditional
      obtain ⟨body, isBody, isTail⟩ := Option.bind_eq_some_iff.mp isTail
      obtain ⟨last, isLast, isTail⟩ := Option.bind_eq_some_iff.mp isTail
      have notEven : ¬ (children.length % 2 == 0) := by
        simp [isOdd]
      unfold returning at isReturned
      rw [if_neg notEven] at isReturned
      obtain ⟨_, areBranches, isResult⟩ := ok_of_bind isReturned
      cases isResult
      obtain ⟨⟨⟩, _, ofLine, gives⟩ := gives.ofBind
      obtain ⟨⟨_, _⟩, _, ofBranches, gives⟩ := gives.ofBind
      rw [gives.ofPure.1]
      obtain ⟨changed, _, _, _, isChanged, toBody, ofBody, isBranch⟩ :=
        exists_of_conditionals areBranches ofBranches isBody
      obtain ⟨front, changedLast, childrenAre, lastChanged⟩ :
          ∃ front changedLast, changed.children = front ++ [changedLast] ∧
            returning context last = .ok changedLast := by
        obtain ⟨_, _, _, _, statements⟩ := body
        cases statements with
        | nil => contradiction
        | cons =>
          obtain ⟨_, areChanged, isResult⟩ := ok_of_bind isChanged
          cases isResult
          exact exists_of_returningLast isLast areChanged
      rw [childrenAre] at ofBody
      obtain ⟨former, latter, _, rfl, ofFront, ofLast⟩ := exists_of_statements_append ofBody
      obtain ⟨first, _, comes, isInner, ends⟩ :=
        ih isTail lastChanged (gives_statements_singleton ofLast)
      obtain ⟨whole, isWhole, ends⟩ := branchAt_append isInner ends
      exact ⟨first, whole, .inside ofLine toBody childrenAre ofFront comes,
        Option.bind_eq_some_iff.mpr ⟨former ++ latter, isBranch, isWhole⟩, ends⟩
    · contradiction

/-! ### What is known before the last statement -/

theorem grows_statement (named : node.WellNamed)
    (gives : Gives (statement node) before lowered after) : before.names.Grows after.names := by
  rw [← erase_annotate] at gives
  obtain ⟨_, gives, -⟩ := gives_map_iff.mp gives
  exact (tracks_annotate node named _ _ _ gives).grows

theorem grows_statements (named : AllNamed nodes)
    (gives : Gives (statements nodes) before lowered after) : before.names.Grows after.names := by
  rw [← erase_annotateAll] at gives
  obtain ⟨_, gives, -⟩ := gives_map_iff.mp gives
  exact (tracks_annotateAll nodes named _ _ _ gives).grows

theorem known_of_assignment (named : node.WellNamed)
    (assigns : assignedName? node = .ok (some (.text name)))
    (gives : Gives (statement node) before lowered after) :
    (after.names.locals.get? (.text name)).isSome := by
  by_cases known : (before.names.locals.get? (.text name)).isSome
  · exact (grows_statement named gives).known _ known
  obtain ⟨kind, payload, _, _, _⟩ := node
  unfold assignedName? at assigns
  split at assigns
  · cases assigns
  rename_i isAssignment
  obtain rfl : kind = .assignment := by simpa using isAssignment
  obtain ⟨target, isTarget, isName⟩ := ok_of_bind assigns
  have isFirst := childAt_eq_ok isTarget
  split at isName
  · rename_i isIdentifier
    have payload_eq : target.payload = .text name := Option.some.inj (Except.ok.inj isName)
    obtain ⟨⟨⟩, first, ofLine, gives⟩ := gives.ofBind
    rw [← (reports_noteLine _).keeps _ _ _ ofLine] at known
    dsimp only at gives
    split at gives
    · rename_i other _ _
      obtain rfl : other = target := by simpa using isFirst
      unfold assignment at gives
      obtain ⟨_, _, got, gives⟩ := gives.notRejected.2.ofBind
      rw [(gives_get_iff.mp got).1, (gives_get_iff.mp got).2, payload_eq] at gives
      have isNew : isNewLocal first other := by
        rw [isNewLocal, payload_eq, isIdentifier, Bool.true_and]
        exact Option.isNone_iff_eq_none.mpr (Option.not_isSome_iff_eq_none.mp known)
      rw [if_pos isNew] at gives
      exact (declaredBy_declaration gives).grows.2
    · exact absurd gives not_gives_throw
  · cases isName

/-! ### Methods -/

/-- The value of the leaf is known: of a literal and a field the type, and of a name the variable.
-/
def Node.IsKnownIn (context : Context) (leaf : Node) : Prop :=
  match leaf.kind with
  | .literal => leaf.payload.literalType.isSome
  | .ivar => (context.fieldType? leaf.payload).isSome
  | _ => (context.local? leaf.payload).isSome

theorem Node.IsLeaf.returnsValue_of_isKnownIn (isLeaf : leaf.IsLeaf) (typed : context.names.Typed)
    (isKnown : leaf.IsKnownIn context) : returnsValue context leaf = .ok true := by
  obtain ⟨kind, payload, _, _, _⟩ := leaf
  obtain rfl | rfl | rfl := isLeaf.kind
  · cases payload with
    | absent | real => contradiction
    | integer | boolean => rfl
    | text =>
      exact congrArg Except.ok isKnown
  · have isField : ∃ type, context.contract.stateVars.named? payload.safe = some (some type) := by
      obtain ⟨type, isType⟩ := Option.isSome_iff_exists.mp isKnown
      exact ⟨type, Option.join_eq_some_iff.mp isType⟩
    obtain ⟨_, isField⟩ := isField
    simp only [returnsValue, inferType, isField]
    rfl
  · obtain ⟨name, rfl⟩ := isLeaf.isText (by simp)
    obtain ⟨found, isFound⟩ := Option.isSome_iff_exists.mp isKnown
    have hasType := typed (.text name) found isFound
    simp only [returnsValue, inferType, nameType, isFound]
    exact congrArg Except.ok hasType

/-- The last statement of a method is made to return its value, by what is known before it. -/
theorem exists_of_methodStatements
    (gives : Gives (methodStatements [] true place (front ++ [last])) before lowered after) :
    ∃ former latter start returned, lowered = former ++ latter ∧
      Gives (statements front) before former start ∧ returning start last = .ok returned ∧
      Gives (statement returned) start latter after := by
  induction front generalizing place before lowered with
  | nil =>
    obtain ⟨returned, first, asked, made⟩ := gives.ofBind
    obtain ⟨isReturned, rfl⟩ := gives_infer_iff.mp asked
    obtain ⟨latter, _, ofReturned, made⟩ := made.ofBind
    obtain ⟨_, _, ofNone, made⟩ := made.ofBind
    obtain ⟨rfl, rfl⟩ := ofNone.ofPure
    obtain ⟨rfl, rfl⟩ := made.ofPure
    refine ⟨[], latter, first, returned, append_nil _, ?_, isReturned, ofReturned⟩
    exact gives_pure
  | cons _ rest ih =>
    rw [cons_append, methodStatements] at gives
    have notLast : ((rest ++ [last]).isEmpty && true) = false := by simp
    rw [notLast] at gives
    obtain ⟨first, _, ofNode, gives⟩ := gives.ofBind
    obtain ⟨_, ofOthers, rfl⟩ := gives.ofReturn
    obtain ⟨former, latter, start, returned, rfl, ofRest, isReturned, ofLast⟩ := ih ofOthers
    refine ⟨first ++ former, latter, start, returned, (append_assoc _ _ _).symm, ?_, isReturned,
      ofLast⟩
    exact ofNode.bind (ofRest.bind gives_pure)

/-- What is assigned among the statements is known after them. -/
theorem known_of_assigned (named : AllNamed nodes)
    (gives : Gives (statements nodes) before lowered after) (mem : node ∈ nodes)
    (assigns : assignedName? node = .ok (some (.text name))) :
    (after.names.locals.get? (.text name)).isSome := by
  obtain ⟨_, _, rfl⟩ := append_of_mem mem
  obtain ⟨nodeNamed, latterNamed⟩ := allNamed_cons.mp (allNamed_append.mp named).2
  obtain ⟨-, _, _, -, -, ofRest⟩ := exists_of_statements_append gives
  rw [← singleton_append] at ofRest
  obtain ⟨_, _, _, -, ofNode, ofLatter⟩ := exists_of_statements_append ofRest
  have known := known_of_assignment nodeNamed assigns (gives_statements_singleton ofNode)
  exact (grows_statements latterNamed ofLatter).known _ known

/-- Every tail position of the method ends its branch, if it is a literal, a field or a variable.
Its value is returned if it is known where the last statement begins, as parameters are and
variables that are assigned before. -/
def ReturnsAtEnds (entry : MethodEntry) (before : Context) (function : Function)
    (front : List Node) (last : Node) : Prop :=
  ∃ given entered start former returned,
    Gives (enterBody entry) before (given, function.parameters, front ++ [last]) entered ∧
    Gives (statements front) entered former start ∧ returning start last = .ok returned ∧
    (∀ name, (∃ parameter ∈ parameterMentions given function.parameters,
        parameter.source = .text name) ∨
      (∃ node ∈ front, assignedName? node = .ok (some (.text name))) →
        (start.local? (.text name)).isSome) ∧
    ∀ path tail, tailAt path last = some tail → tail.IsLeaf →
      (tail.IsKnownIn start → returnsValue start tail = .ok true) ∧
      ∃ first branch, ComesTo path returned start first ∧
        branchAt path function.body = some branch ∧ EndsIn start tail first branch

/-- The branches of a method return their values, as far as they are known before the last statement
of the method. -/
theorem branches_return {source : String} {program : Node} (read : parse source = .ok program)
    {entry : MethodEntry} (inProgram : entry.node ∈ program.walk)
    (isMethod : entry.node.kind = .methodDef) (noConstructor : entry.name ≠ "initialize")
    (noSetter : Text.endsWith entry.name "=" = false) {before after : Context} {function : Function}
    (lowered : Gives (lowerMethod entry []) before function after) {body last : Node}
    {front : List Node} (isBody : entry.node.methodBody = .ok body)
    (children_eq : body.children = front ++ [last]) :
    ReturnsAtEnds entry before function front last := by
  have isMethod : entry.node.IsMethod := ⟨isMethod, exists_fits_of_parse read inProgram⟩
  obtain ⟨given, otherBody, statements, entered, ending, isOther, entering, ofStatements,
    isFunctionBody⟩ := exists_methodSteps lowered
  cases isBody.symm.trans isOther
  have returnsLast : (!(entry.name == "initialize") && !Text.endsWith entry.name "=") = true := by
    simp [noConstructor, noSetter]
  rw [returnsLast, children_eq] at ofStatements
  rw [children_eq] at entering
  obtain ⟨knows, -, childrenFit⟩ := knowsParameters_enterBody isMethod entering
  have frontNamed : AllNamed front := fun node member =>
    (childrenFit node (mem_append_left _ member)).wellNamed
  obtain ⟨former, latter, start, returned, rfl, ofFront, isReturned, ofLast⟩ :=
    exists_of_methodStatements ofStatements
  have grows := grows_statements frontNamed ofFront
  refine ⟨given, entered, start, former, returned, entering, ofFront, isReturned,
    fun name isKnown => ?_, fun path tail isTail leaf => ⟨fun known => ?_, ?_⟩⟩
  · rcases isKnown with ⟨parameter, member, isName⟩ | ⟨node, member, assigns⟩
    · exact grows.known (.text name) (isName ▸ knows.areKnown parameter member)
    · exact known_of_assigned frontNamed ofFront member assigns
  · exact leaf.returnsValue_of_isKnownIn (grows.typed knows.typed) known
  · obtain ⟨first, inner, comes, isInner, ends⟩ := exists_branchAt isTail leaf isReturned ofLast
    rw [isFunctionBody, ← append_assoc]
    obtain ⟨branch, isBranch, ends⟩ := branchAt_append isInner ends
    exact ⟨first, branch, comes, isBranch, ends⟩

/-! ### A value that is dropped -/

/-- Whether the method consists of a conditional whose first branch ends with a name, which the
function only evaluates. -/
def MethodEntry.drops (entry : MethodEntry) (name : String) : Bool :=
  match entry.node.methodBody, (lowerMethod entry []).result? {} with
  | .ok ⟨_, _, _, _, [last]⟩, some (function, _) =>
    match tailAt [0] last, (branchAt [0] function.body).bind List.getLast? with
    | some ⟨.identifier, .text tail, _, _, _⟩, some (.expression text) =>
      tail == name && text == name
    | _, _ => false
  | _, _ => false

theorem exists_of_drops (drops : entry.drops name) :
    ∃ body last tail function after branch, entry.node.methodBody = .ok body ∧
      body.children = [] ++ [last] ∧ Gives (lowerMethod entry []) {} function after ∧
      tailAt [0] last = some tail ∧ tail.kind = .identifier ∧ tail.payload = .text name ∧
      branchAt [0] function.body = some branch ∧ branch.getLast? = some (.expression name) := by
  unfold MethodEntry.drops at drops
  split at drops
  · rename_i last function after isBody lowered
    split at drops
    · rename_i tailName _ _ _ text isTail isLast
      obtain ⟨rfl, rfl⟩ : tailName = name ∧ text = name := by simpa using drops
      obtain ⟨branch, isBranch, isLast⟩ := Option.bind_eq_some_iff.mp isLast
      exact ⟨_, last, _, function, after, branch, isBody, rfl,
        gives_of_result? lowered, isTail, rfl,
        rfl, isBranch, isLast⟩
    · contradiction
  · contradiction

/-- A method that sets a variable in a branch, and has the variable for the value of the branch. -/
def pickSource : String :=
  "class Picker\n" ++
  "  def pick(amount)\n" ++
  "    if amount > 1\n" ++
  "      half = 5\n" ++
  "      half\n" ++
  "    else\n" ++
  "      amount\n" ++
  "    end\n" ++
  "  end\n" ++
  "end\n"

theorem pick_drops :
    ((methodsIn pickSource).any fun node => (⟨"pick", node, none, []⟩ : MethodEntry).drops "half") =
      true := by
  decide +kernel

theorem pick_branches_return :
    ∃ node ∈ methodsIn pickSource, ∃ last function after,
      Gives (lowerMethod ⟨"pick", node, none, []⟩ []) {} function after ∧
      ReturnsAtEnds ⟨"pick", node, none, []⟩ {} function [] last := by
  obtain ⟨node, member, drops⟩ := any_eq_true.mp pick_drops
  obtain ⟨program, read, inProgram, isMethod⟩ := exists_of_mem_methodsIn member
  obtain ⟨body, last, tail, function, after, branch, isBody, children_eq, lowered, -⟩ :=
    exists_of_drops drops
  have noConstructor : "pick" ≠ "initialize" := by decide
  have noSetter : Text.endsWith "pick" "=" = false := by decide
  exact ⟨node, member, last, function, after, lowered,
    branches_return read inProgram isMethod noConstructor noSetter lowered isBody children_eq⟩

/-- The value of the first branch is not returned. -/
theorem pick_drops_half :
    ∃ node ∈ methodsIn pickSource, ∃ body last tail function after branch,
      node.methodBody = .ok body ∧ body.children = [] ++ [last] ∧
      Gives (lowerMethod ⟨"pick", node, none, []⟩ []) {} function after ∧
      tailAt [0] last = some tail ∧ tail.kind = .identifier ∧ tail.payload = .text "half" ∧
      branchAt [0] function.body = some branch ∧
      branch.getLast? = some (.expression "half") := by
  obtain ⟨node, member, drops⟩ := any_eq_true.mp pick_drops
  obtain ⟨body, last, tail, function, after, branch, dropped⟩ := exists_of_drops drops
  exact ⟨node, member, body, last, tail, function, after, branch, dropped⟩

end ContractForge
