import ContractForge.Lowering.Statement
import ContractForge.Proofs.Lowering.Step

/-!
# Blocks of calls

A call with a block has no value. As a statement, the block of `loop` is lowered, and a call
that prints is reported with its block. Checks, emissions, failures and calls of the parent's
constructor do not look at their blocks: they come to the same without them
(`block_kept_or_ignored`).
-/

namespace ContractForge

open Lower List

variable {α : Type} {context : Context} {children : List Node} {node block : Node}

def IsRejected (result : Except LowerError α) : Prop :=
  ∃ reason place, result = .error (.rejected reason place)

/-- What a call comes to is a rejection, a report that it was skipped, or a loop whose body is what
the statements of the block are lowered to. -/
def KeepsBlock (block : Node) (log : DiagnosticLog)
    (result : Except LowerError (List Statement) × Context) : Prop :=
  IsRejected result.1 ∨
    (∃ diagnostic, diagnostic.code = "W002" ∧ result.2.log = log.add diagnostic) ∨
    ∃ params body, block.children = [params, body] ∧ ∃ head lowered before,
      Gives (inBlock (statements body.children)) before lowered result.2 ∧
        result.1 = .ok [.loop head lowered []]

/-- The computation failed because the tree is malformed. -/
def IsMalformed (result : Except LowerError α) : Prop :=
  ∃ defect, result = .error (.malformed defect)

theorem isText_iff {payload : Payload} {text : String} :
    payload.isText text ↔ payload = .text text := by
  cases payload <;> simp [Payload.isText, Payload.text?]

/-- The statement does not look at the block of the call. -/
def IgnoresBlock (node : Node) (context : Context) : Prop :=
  node.kind = .call ∧ (node.payload = .text "require" ∨ node.payload = .text "emit" ∨
    node.payload = .text "raise" ∨
      node.payload = .text "super" ∧ context.method.method = "initialize")

def Node.withoutBlock (node : Node) : Node :=
  { node with children := node.children.filter fun child => child.kind != .block }

theorem callArgs_withoutBlock (node : Node) : node.withoutBlock.callArgs = node.callArgs := by
  have sameArgs : node.withoutBlock.child? .args = node.child? .args := by
    simp only [Node.child?, Node.withoutBlock, find?_filter]
    congr 1
    funext child
    cases child.kind <;> rfl
  rw [Node.callArgs, sameArgs, Node.callArgs]

theorem rejects_expression (isCall : node.kind = .call ∨ node.kind = .methodCall)
    (hasBlock : node.callBlock? = some block) (context : Context) :
    IsRejected (outcome (expression node) context).1 := by
  obtain ⟨kind, payload, line, column, children⟩ := node
  obtain rfl | rfl : kind = .call ∨ kind = .methodCall := isCall
  · unfold expression
    simp only [hasBlock]
    exact ⟨_, _, rfl⟩
  · cases children with
    | nil => simp [Node.callBlock?, Node.child?] at hasBlock
    | cons =>
      unfold expression
      simp only [hasBlock]
      exact ⟨_, _, rfl⟩

theorem rejects_expressionStatement (isCall : node.kind = .call ∨ node.kind = .methodCall)
    (hasBlock : node.callBlock? = some block) (context : Context) :
    IsRejected (outcome (expressionStatement node) context).1 := by
  obtain ⟨reason, place, isRejected⟩ := rejects_expression isCall hasBlock context
  have noName : (node.kind == .identifier) = false := by
    obtain isKind | isKind := isCall <;> simp [isKind]
  refine ⟨reason, place, ?_⟩
  unfold expressionStatement
  simp only [noName, Bool.false_and, Bool.false_eq_true, if_false]
  show (outcome (expression node >>= _) context).1 = _
  rw [outcome_bind]
  split
  · rename_i gives
    rw [gives] at isRejected
    contradiction
  · rename_i fails
    rw [fails] at isRejected
    cases isRejected
    rfl

/-- The block among the parts of a call is lowered if it has two parts. -/
theorem loopBlock_eq (found : children.find? (fun child => child.kind == .block) = some block) :
    (∃ params body, block.children = [params, body] ∧
        loopBlock children = some <$> inBlock (statements body.children)) ∨
      loopBlock children = throw (.malformed .partCount) := by
  induction children with
  | nil => contradiction
  | cons first _ ih =>
    obtain ⟨kind, _, _, _, parts⟩ := first
    by_cases isBlock : kind = .block
    · subst isBlock
      cases found
      unfold loopBlock
      split
      · contradiction
      · rename_i isFirst
        cases isFirst
        exact .inl ⟨_, _, rfl, rfl⟩
      · exact .inr rfl
      · rename_i noBlock isFirst
        cases isFirst
        exact absurd rfl (noBlock _ _ _ _)
    · rw [loopBlock]
      · exact ih (by simpa [isBlock] using found)
      all_goals simp_all

/-- A call is lowered where its line is noted. -/
theorem outcome_call (context : Context) :
    ∃ noted, noted.log = context.log ∧ noted.method.method = context.method.method ∧
      ∀ node : Node, node.kind = .call → node.line = line → outcome (statement node) context =
        outcome (callStatement node (loopBlock node.children)) noted := by
  have isNoted : ∃ noted, outcome (noteLine line) context = (.ok (), noted) ∧
      noted.log = context.log ∧ noted.method.method = context.method.method := by
    cases line <;> exact ⟨_, rfl, rfl, rfl⟩
  obtain ⟨noted, isNoted, sameLog, sameMethod⟩ := isNoted
  refine ⟨noted, sameLog, sameMethod, ?_⟩
  rintro ⟨_, _, _, _, _⟩ isKind rfl
  cases isKind
  unfold statement
  rw [outcome_bind, isNoted]

theorem ignores_block (ignores : IgnoresBlock node context) :
    outcome (statement node) context = outcome (statement node.withoutBlock) context := by
  obtain ⟨noted, -, sameMethod, isOutcome⟩ := outcome_call context
  obtain ⟨isKind, isName⟩ := ignores
  rw [isOutcome node isKind rfl, isOutcome node.withoutBlock isKind rfl, callStatement,
    callStatement, callArgs_withoutBlock]
  obtain isName | isName | isName | ⟨isName, isConstructor⟩ := isName
  case inr.inr.inr =>
    have isConstructor : (noted.method.method == "initialize") = true := by
      simp [sameMethod, isConstructor]
    simp only [Node.withoutBlock, isName]
    show outcome (if (noted.method.method == "initialize") = true then _ else _) noted =
      outcome (if (noted.method.method == "initialize") = true then _ else _) noted
    rw [if_pos isConstructor, if_pos isConstructor]
  all_goals
    simp only [Node.withoutBlock, isName]
    rfl

theorem keeps_block (isKind : node.kind = .call) (hasBlock : node.callBlock? = some block)
    (looks : ¬IgnoresBlock node context) :
    KeepsBlock block context.log (outcome (statement node) context) ∨
      IsMalformed (outcome (statement node) context).1 := by
  obtain ⟨noted, sameLog, sameMethod, isOutcome⟩ := outcome_call context
  simp only [IgnoresBlock, isKind, true_and, not_or, not_and, ← sameMethod] at looks
  obtain ⟨noRequire, noEmit, noRaise, noSuper⟩ := looks
  rw [isOutcome node isKind rfl, callStatement]
  simp only [isText_iff, noRequire, noEmit, noRaise, if_false]
  split
  · exact .inl (.inr (.inl ⟨.statementSkipped node.payload.spliced "console output" node.line, rfl,
      by rw [← sameLog]; rfl⟩))
  split
  · obtain ⟨params, body, isBody, isLoop⟩ | isLoop := loopBlock_eq hasBlock
    · rw [isLoop, map_eq_pure_bind, bind_assoc, outcome_bind]
      split
      · rename_i gives
        exact .inl (.inr (.inr ⟨params, body, isBody, _, _, noted, gives, rfl⟩))
      · rename_i error _ _
        cases error with
        | rejected => exact .inl (.inl ⟨_, _, rfl⟩)
        | malformed => exact .inr ⟨_, rfl⟩
    · rw [isLoop]
      exact .inr ⟨_, rfl⟩
  · have noConstructor :
        (node.payload.isText "super" && noted.method.method == "initialize") = false := by
      simpa [isText_iff] using noSuper
    show KeepsBlock block _ (outcome (if _ then _ else _) noted) ∨
      IsMalformed (outcome (if _ then _ else _) noted).1
    rw [noConstructor]
    exact .inl (.inl (rejects_expressionStatement (.inl isKind) hasBlock noted))

/-- A call with a block is no expression. As a statement, it comes to the same without its block if
it does not look at it; otherwise the block is kept, unless the tree is malformed. -/
theorem block_kept_or_ignored (node : Node) (isCall : node.kind = .call ∨ node.kind = .methodCall)
    (hasBlock : node.callBlock? = some block) (context : Context) :
    IsRejected (outcome (expression node) context).1 ∧
      (IgnoresBlock node context →
        outcome (statement node) context = outcome (statement node.withoutBlock) context) ∧
      (¬IgnoresBlock node context →
        KeepsBlock block context.log (outcome (statement node) context) ∨
          IsMalformed (outcome (statement node) context).1) := by
  refine ⟨rejects_expression isCall hasBlock context, fun ignores => ignores_block ignores,
    fun looks => ?_⟩
  obtain isKind | isKind := isCall
  · exact keeps_block isKind hasBlock looks
  · have rejects := rejects_expressionStatement (.inr isKind) hasBlock
    obtain ⟨kind, payload, line, column, children⟩ := node
    cases isKind
    left
    left
    cases line with
    | none => exact rejects context
    | some line => exact rejects (context.atLine line)

/-- The block `do @x = 1 end`. -/
def assigningBlock : Node :=
  let leaf (kind : Kind) (payload : Payload) : Node := ⟨kind, payload, none, none, []⟩
  let assigned := ⟨.assignment, .text "=", none, none,
    [leaf .ivar (.text "x"), leaf .literal (.integer 1)]⟩
  let body := ⟨.body, .absent, none, none, [assigned]⟩
  ⟨.block, .absent, none, none, [leaf .blockParams .absent, body]⟩

/-- A call with the argument `true` and a block. -/
def callWithBlock (name : String) : Node :=
  let args := ⟨.args, .absent, none, none, [⟨.literal, .boolean true, none, none, []⟩]⟩
  ⟨.call, .text name, none, none, [args, assigningBlock]⟩

theorem loop_keepsBlock :
    ¬IgnoresBlock (callWithBlock "loop") {} ∧
      (KeepsBlock assigningBlock {} (outcome (statement (callWithBlock "loop")) {}) ∨
        IsMalformed (outcome (statement (callWithBlock "loop")) {}).1) := by
  have looks : ¬IgnoresBlock (callWithBlock "loop") {} := by simp [IgnoresBlock, callWithBlock]
  exact ⟨looks, (block_kept_or_ignored (callWithBlock "loop") (.inl rfl) rfl {}).2.2 looks⟩

/-- The block of a check is lost without a trace. -/
theorem require_not_keepsBlock :
    ¬KeepsBlock assigningBlock {} (outcome (statement (callWithBlock "require")) {}) := by
  have isOutcome : outcome (statement (callWithBlock "require")) {} =
      (.ok [.require "true" none], {}) := rfl
  rw [isOutcome]
  rintro (⟨_, _, isError⟩ | ⟨_, -, isLog⟩ | ⟨_, _, -, _, _, _, -, isLoop⟩)
  · contradiction
  · simp [DiagnosticLog.add] at isLog
  · simp at isLoop

end ContractForge
