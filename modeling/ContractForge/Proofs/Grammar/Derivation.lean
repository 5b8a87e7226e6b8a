/-!
# The grammar of expressions

Expressions of the generated language are read by how tightly their operators
bind. `Derives` is the grammar: it says which tokens stand for which tree, and
how tightly the tree binds. `parse` reads tokens with a stack of unfinished
expressions. It finds every tree that the grammar derives
(`parse_of_derives`), so the grammar derives at most one (`Derives.unique`).
-/

namespace ContractForge.Grammar

open List

variable {level bound : Nat}

/-! ### Tokens and trees -/

/-- A piece of the text of an expression. -/
inductive Token where
  /-- A name, a number or a truth value. -/
  | word (text : String)
  /-- The access to a member, with its point. -/
  | member (name : String)
  /-- The text without characters. -/
  | emptyText
  /-- An operator, a bracket or a comma. -/
  | symbol (text : String)
deriving DecidableEq, Repr

/-- An expression by its operators. -/
inductive Tree where
  | word (text : String)
  | emptyText
  | unary (operator : String) (operand : Tree)
  | binary (operator : String) (left right : Tree)
  | ternary (condition whenTrue whenFalse : Tree)
  | index (base index : Tree)
  | member (base : Tree) (name : String)
  | call (function : Tree) (arguments : List Tree)

def unaryOperators : List String :=
  ["-", "!", "~"]

/-- The binary operators from those that bind loosest to those that bind tightest. -/
def binaryOperators : List (List String) :=
  [["||"], ["&&"], ["==", "!="], ["<", ">", "<=", ">="], ["|"], ["^"], ["&"], ["<<", ">>"],
   ["+", "-"], ["*", "/", "%"], ["**"]]

/-- How tightly a binary operator binds. -/
def level? (operator : String) : Option Nat :=
  (binaryOperators.findIdx? fun operators => operators.contains operator).map (· + 1)

def ternaryLevel : Nat := 0
def powerLevel : Nat := 11
def unaryLevel : Nat := 12
def primaryLevel : Nat := 13

/-- The tokens stand for the tree, which binds as tightly as the level says. Powers, unary
operators and conditional expressions group to the right, all other operators to the left. -/
inductive Derives : Nat → List Token → Tree → Prop where
  | word (text : String) : Derives primaryLevel [.word text] (.word text)
  | emptyText : Derives primaryLevel [.emptyText] .emptyText
  | enclosed {level : Nat} {tokens : List Token} (inner : Derives level tokens tree) :
      Derives primaryLevel (.symbol "(" :: tokens ++ [.symbol ")"]) tree
  | index {level : Nat} {tokens : List Token} (subject : Derives primaryLevel baseTokens base)
      (inner : Derives level tokens tree) :
      Derives primaryLevel (baseTokens ++ .symbol "[" :: tokens ++ [.symbol "]"]) (.index base tree)
  | member {tokens : List Token} (subject : Derives primaryLevel tokens tree) (name : String) :
      Derives primaryLevel (tokens ++ [.member name]) (.member tree name)
  | call {level : Nat} {tokens : List Token} (called : Derives primaryLevel functionTokens function)
      (inner : Derives level tokens tree) :
      Derives primaryLevel (functionTokens ++ .symbol "(" :: tokens ++ [.symbol ")"])
        (.call function [tree])
  | callTwo (called : Derives primaryLevel functionTokens function)
      (firstInner : Derives firstLevel firstTokens first)
      (secondInner : Derives secondLevel secondTokens second) :
      Derives primaryLevel (functionTokens ++ .symbol "(" :: firstTokens ++ .symbol "," ::
        secondTokens ++ [.symbol ")"]) (.call function [first, second])
  | unary {level : Nat} {tokens : List Token} (known : operator ∈ unaryOperators)
      (operand : Derives level tokens tree) (binds : unaryLevel ≤ level) :
      Derives unaryLevel (.symbol operator :: tokens) (.unary operator tree)
  | power (base : Derives leftLevel leftTokens left) (leftBinds : powerLevel < leftLevel)
      (exponent : Derives rightLevel rightTokens right) (rightBinds : powerLevel ≤ rightLevel) :
      Derives powerLevel (leftTokens ++ .symbol "**" :: rightTokens) (.binary "**" left right)
  | binary {level : Nat} (known : level? operator = some level) (notPower : level < powerLevel)
      (leftSide : Derives leftLevel leftTokens left) (leftBinds : level ≤ leftLevel)
      (rightSide : Derives rightLevel rightTokens right) (rightBinds : level < rightLevel) :
      Derives level (leftTokens ++ .symbol operator :: rightTokens) (.binary operator left right)
  | ternary (asked : Derives conditionLevel conditionTokens condition)
      (conditionBinds : ternaryLevel < conditionLevel)
      (positive : Derives trueLevel trueTokens whenTrue)
      (negative : Derives falseLevel falseTokens whenFalse) :
      Derives ternaryLevel (conditionTokens ++ .symbol "?" :: trueTokens ++ .symbol ":" ::
        falseTokens) (.ternary condition whenTrue whenFalse)

/-! ### Reading tokens -/

variable {tree : Tree}

/-- An expression that waits for its last part. -/
inductive Frame where
  | unary (operator : String)
  | binary (operator : String) (left : Tree)
  | trueBranch (condition : Tree)
  | falseBranch (condition whenTrue : Tree)
  | enclosed
  | index (base : Tree)
  | call (function : Tree) (arguments : List Tree)

namespace Frame

/-- How tightly an expression binds that ends with its last part. The others end with a token of
their own. -/
def level? : Frame → Option Nat
  | unary _ => some unaryLevel
  | binary operator _ => Grammar.level? operator
  | falseBranch _ _ => some ternaryLevel
  | trueBranch _ | enclosed | index _ | call _ _ => none

/-- The expression with its last part. -/
def complete (tree : Tree) : Frame → Tree
  | unary operator => .unary operator tree
  | binary operator left => .binary operator left tree
  | falseBranch condition whenTrue => .ternary condition whenTrue tree
  | trueBranch _ | enclosed | index _ | call _ _ => tree

end Frame

/-- Unfinished expressions, the innermost first, and the expression read last, unless one is
expected. -/
structure State where
  stack : List Frame
  tree : Option Tree

variable {state : State}

/-- Complete the unfinished expressions that bind at least as tightly as the bound. -/
def reduce (bound : Nat) : List Frame → Tree → List Frame × Tree
  | [], tree => ([], tree)
  | frame :: stack, tree =>
    if frame.level?.any (bound ≤ ·) then reduce bound stack (frame.complete tree)
    else (frame :: stack, tree)

/-- The level from which on an operator completes what stands before it. Where operators group to
the right, those of the same level stay unfinished. -/
def rise (level : Nat) : Nat :=
  if level = ternaryLevel ∨ level = powerLevel ∨ level = unaryLevel then level + 1 else level

/-- Read a symbol where an expression is expected. -/
def start (stack : List Frame) (text : String) : Option State :=
  if text = "(" then some ⟨.enclosed :: stack, none⟩
  else if text ∈ unaryOperators then some ⟨.unary text :: stack, none⟩
  else none

/-- Read a symbol behind an expression that is no binary operator. -/
def proceed (stack : List Frame) (tree : Tree) : String → Option State
  | "[" => some ⟨.index tree :: stack, none⟩
  | "(" => some ⟨.call tree [] :: stack, none⟩
  | "?" =>
    let (stack, tree) := reduce (rise ternaryLevel) stack tree
    some ⟨.trueBranch tree :: stack, none⟩
  | ":" =>
    match reduce ternaryLevel stack tree with
    | (.trueBranch condition :: stack, tree) => some ⟨.falseBranch condition tree :: stack, none⟩
    | _ => none
  | "]" =>
    match reduce ternaryLevel stack tree with
    | (.index base :: stack, tree) => some ⟨stack, some (.index base tree)⟩
    | _ => none
  | "," =>
    match reduce ternaryLevel stack tree with
    | (.call function arguments :: stack, tree) =>
      some ⟨.call function (arguments ++ [tree]) :: stack, none⟩
    | _ => none
  | ")" =>
    match reduce ternaryLevel stack tree with
    | (.enclosed :: stack, tree) => some ⟨stack, some tree⟩
    | (.call function arguments :: stack, tree) =>
      some ⟨stack, some (.call function (arguments ++ [tree]))⟩
    | _ => none
  | _ => none

/-- Read a symbol behind an expression. -/
def extend (stack : List Frame) (tree : Tree) (text : String) : Option State :=
  match level? text with
  | some level =>
    let (stack, tree) := reduce (rise level) stack tree
    some ⟨.binary text tree :: stack, none⟩
  | none => proceed stack tree text

def step (state : State) (token : Token) : Option State :=
  match state.tree, token with
  | none, .word text => some ⟨state.stack, some (.word text)⟩
  | none, .emptyText => some ⟨state.stack, some .emptyText⟩
  | none, .symbol text => start state.stack text
  | none, .member _ => none
  | some tree, .member name => some ⟨state.stack, some (.member tree name)⟩
  | some tree, .symbol text => extend state.stack tree text
  | some _, .word _ | some _, .emptyText => none

/-- Read tokens one after another. -/
def run (state : State) (tokens : List Token) : Option State :=
  tokens.foldlM step state

def parse (tokens : List Token) : Option Tree := do
  let state ← run ⟨[], none⟩ tokens
  match reduce ternaryLevel state.stack (← state.tree) with
  | ([], tree) => return tree
  | _ => none

/-! ### Completing unfinished expressions -/

variable {tokens : List Token} {level : Nat} {tree : Tree} {text : String}

/-- Run through tokens of which the first part leads to a known state. -/
theorem run_of_run (first : run state front = some middle) (second : run middle back = some final) :
    run state (front ++ back) = some final := by
  exact foldlM_append.trans (Option.bind_eq_some_iff.mpr ⟨middle, first, second⟩)

theorem run_of_step (first : step state token = some middle)
    (second : run middle tokens = some final) : run state (token :: tokens) = some final := by
  exact foldlM_cons.trans (Option.bind_eq_some_iff.mpr ⟨middle, first, second⟩)

theorem step_symbol (read : state.tree = some tree) (other : level? text = none) :
    step state (.symbol text) = proceed state.stack tree text := by
  simp [step, read, extend, other]

theorem le_rise (level : Nat) : level ≤ rise level := by
  unfold rise
  split
  · exact Nat.le_succ level
  · exact Nat.le_refl level

/-- Operators that group to the right are admitted behind one of their own level. -/
theorem lt_rise (right : own < rise own) (binds : own ≤ level) : own < rise level := by
  rcases Nat.eq_or_lt_of_le binds with rfl | tighter
  · exact right
  · exact Nat.lt_of_lt_of_le tighter (le_rise level)

theorem rise_of_lt (positive : 0 < level) (notPower : level < powerLevel) : rise level = level := by
  rw [rise, if_neg]
  simp only [ternaryLevel, powerLevel, unaryLevel] at notPower ⊢
  omega

/-- The expression that unfinished ones become, the innermost first. -/
def completeAll (frames : List Frame) (tree : Tree) : Tree :=
  frames.foldl Frame.complete tree

/-- All of the unfinished expressions bind at least as tightly as the level. -/
def Tight (level : Nat) (frames : List Frame) : Prop :=
  ∀ frame ∈ frames, ∃ own, frame.level? = some own ∧ level ≤ own

/-- The innermost unfinished expression binds more loosely than the bound. -/
def Admits (bound : Nat) (stack : List Frame) : Prop :=
  ∀ frame ∈ stack.head?, ∀ own ∈ frame.level?, own < bound

theorem reduce_append (tight : Tight level pending) (bounded : bound ≤ level) (tree : Tree) :
    reduce bound (pending ++ stack) tree = reduce bound stack (completeAll pending tree) := by
  induction pending generalizing tree with
  | nil => rfl
  | cons frame _ ih =>
    obtain ⟨_, ownLevel, _⟩ := tight frame mem_cons_self
    have completes : frame.level?.any (bound ≤ ·) := by
      simp [ownLevel]
      omega
    rw [cons_append, reduce, if_pos completes]
    exact ih (fun other mem => tight other (mem_cons_of_mem _ mem)) _

theorem reduce_of_admits (admits : Admits bound stack) (tree : Tree) :
    reduce bound stack tree = (stack, tree) := by
  cases stack with
  | nil => rfl
  | cons frame =>
    have stays : ¬ frame.level?.any (bound ≤ ·) := by
      cases own : frame.level? with
      | none => simp
      | some level =>
        have loose := admits frame rfl level own
        simp
        omega
    rw [reduce, if_neg stays]

/-! ### Every derivation is found -/

theorem level?_le (known : level? op = some level) : level ≤ powerLevel := by
  obtain ⟨_, found, rfl⟩ := Option.map_eq_some_iff.mp known
  have bounded := (findIdx?_eq_some_iff_getElem.mp found).1
  exact bounded

theorem level?_pos (known : level? op = some level) : 0 < level := by
  obtain ⟨place, -, rfl⟩ := Option.map_eq_some_iff.mp known
  exact Nat.succ_pos place

/-- Powers bind more tightly than all other binary operators. -/
theorem level?_lt (known : level? op = some level) (other : op ≠ "**") : level < powerLevel := by
  obtain ⟨place, found, rfl⟩ := Option.map_eq_some_iff.mp known
  obtain ⟨inside, contains, -⟩ := findIdx?_eq_some_iff_getElem.mp found
  have bounded : place < 11 := inside
  have notLast : place ≠ 10 := by
    rintro rfl
    exact other (by simpa [binaryOperators] using contains)
  simp only [powerLevel]
  omega

theorem Frame.level?_lt {frame : Frame} (own : frame.level? = some level) :
    level < primaryLevel := by
  cases frame with
  | unary | falseBranch =>
    cases own
    decide
  | binary _ _ =>
    have bounded := level?_le own
    simp only [powerLevel, primaryLevel] at bounded ⊢
    omega
  | trueBranch _ | enclosed | index _ | call _ _ => contradiction

/-- Nothing binds more tightly than a primary expression. -/
theorem Derives.level_le (derivation : Derives level tokens tree) : level ≤ primaryLevel := by
  cases derivation with
  | binary _ notPower => exact Nat.le_trans (Nat.le_of_lt notPower) (by decide)
  | _ => decide

/-- Reading the tokens behind a stack that admits them leaves unfinished expressions that bind
tightly enough and that would be completed to the tree. -/
def Reaches (level : Nat) (tokens : List Token) (tree : Tree) : Prop :=
  ∀ stack, Admits (rise level) stack →
    ∃ pending last, run ⟨stack, none⟩ tokens = some ⟨pending ++ stack, some last⟩ ∧
      Tight level pending ∧ completeAll pending last = tree

/-- A primary expression is finished when it has been read. -/
theorem Reaches.primary (reaches : Reaches primaryLevel tokens tree) (stack : List Frame) :
    run ⟨stack, none⟩ tokens = some ⟨stack, some tree⟩ := by
  have admits : Admits (rise primaryLevel) stack :=
    fun frame _ own ownLevel => Frame.level?_lt ownLevel
  obtain ⟨pending, _, runs, tight, completes⟩ := reaches stack admits
  cases pending with
  | nil =>
    cases completes
    exact runs
  | cons frame =>
    obtain ⟨_, ownLevel, _⟩ := tight frame mem_cons_self
    have loose := Frame.level?_lt ownLevel
    omega

/-- Behind a frame that ends with a token of its own, the tree is completed up to the frame. -/
theorem Reaches.inner
    (reaches : Reaches level tokens tree) (frame : Frame) (barrier : frame.level? = none)
    (stack : List Frame) :
    ∃ pending last, run ⟨frame :: stack, none⟩ tokens =
        some ⟨pending ++ frame :: stack, some last⟩ ∧
      reduce ternaryLevel (pending ++ frame :: stack) last = (frame :: stack, tree) := by
  have admits (bound : Nat) : Admits bound (frame :: stack) := by
    intro _ isTop _ ownLevel
    cases isTop
    rw [barrier] at ownLevel
    contradiction
  obtain ⟨pending, last, runs, tight, completes⟩ := reaches (frame :: stack) (admits _)
  refine ⟨pending, last, runs, ?_⟩
  have bounded : ternaryLevel ≤ level := Nat.zero_le level
  rw [reduce_append tight bounded, completes, reduce_of_admits (admits _)]

theorem Reaches.enclosed (reaches : Reaches level tokens tree) :
    Reaches primaryLevel (.symbol "(" :: tokens ++ [.symbol ")"]) tree := by
  intro stack _
  obtain ⟨_, _, runs, reduced⟩ := reaches.inner .enclosed rfl stack
  refine ⟨[], tree, ?_, by simp [Tight], rfl⟩
  refine run_of_run (run_of_step rfl runs) (run_of_step ((step_symbol rfl rfl).trans ?_) rfl)
  simp only [proceed, reduced, nil_append]

theorem Reaches.index
    (subject : Reaches primaryLevel baseTokens base) (reaches : Reaches level tokens tree) :
    Reaches primaryLevel (baseTokens ++ .symbol "[" :: tokens ++ [.symbol "]"])
      (.index base tree) := by
  intro stack _
  obtain ⟨_, _, runs, reduced⟩ := reaches.inner (.index base) rfl stack
  refine ⟨[], .index base tree, ?_, by simp [Tight], rfl⟩
  refine run_of_run (run_of_run (subject.primary stack) (run_of_step rfl runs))
    (run_of_step ((step_symbol rfl rfl).trans ?_) rfl)
  simp only [proceed, reduced, nil_append]

theorem Reaches.member (subject : Reaches primaryLevel tokens tree) (name : String) :
    Reaches primaryLevel (tokens ++ [.member name]) (.member tree name) := by
  intro stack _
  refine ⟨[], .member tree name, ?_, by simp [Tight], rfl⟩
  exact run_of_run (subject.primary stack) rfl

theorem Reaches.call
    (called : Reaches primaryLevel functionTokens function) (reaches : Reaches level tokens tree) :
    Reaches primaryLevel (functionTokens ++ .symbol "(" :: tokens ++ [.symbol ")"])
      (.call function [tree]) := by
  intro stack _
  obtain ⟨_, _, runs, reduced⟩ := reaches.inner (.call function []) rfl stack
  refine ⟨[], .call function [tree], ?_, by simp [Tight], rfl⟩
  refine run_of_run (run_of_run (called.primary stack) (run_of_step rfl runs))
    (run_of_step ((step_symbol rfl rfl).trans ?_) rfl)
  simp only [proceed, reduced, nil_append]

theorem Reaches.callTwo {function first second : Tree}
    (called : Reaches primaryLevel functionTokens function)
    (firstReaches : Reaches firstLevel firstTokens first)
    (secondReaches : Reaches secondLevel secondTokens second) :
    Reaches primaryLevel
      (functionTokens ++ .symbol "(" :: firstTokens ++ .symbol "," :: secondTokens ++
        [.symbol ")"]) (.call function [first, second]) := by
  intro stack _
  obtain ⟨pending, last, runs, reduced⟩ := firstReaches.inner (.call function []) rfl stack
  obtain ⟨_, _, runsOn, reducedOn⟩ :=
    secondReaches.inner (.call function [first]) rfl stack
  refine ⟨[], .call function [first, second], ?_, by simp [Tight], rfl⟩
  have comma : step ⟨pending ++ .call function [] :: stack, some last⟩ (.symbol ",") =
      some ⟨.call function [first] :: stack, none⟩ := by
    refine (step_symbol rfl rfl).trans ?_
    simp only [proceed, reduced, nil_append]
  refine run_of_run (run_of_run (run_of_run (called.primary stack) (run_of_step rfl runs))
    (run_of_step comma runsOn)) (run_of_step ((step_symbol rfl rfl).trans ?_) rfl)
  simp only [proceed, reducedOn, nil_append, cons_append]

/-- Behind a frame that ends with its last part, the frame is completed with the tree. -/
theorem Reaches.last (reaches : Reaches level tokens tree) (frame : Frame)
    (ownLevel : frame.level? = some own) (binds : own ≤ level) (admitted : own < rise level) :
    ∃ pending last, run ⟨frame :: stack, none⟩ tokens = some ⟨pending ++ stack, some last⟩ ∧
      Tight own pending ∧ completeAll pending last = frame.complete tree := by
  have admits : Admits (rise level) (frame :: stack) := by
    intro _ isTop _ isTopLevel
    cases isTop
    rw [ownLevel] at isTopLevel
    cases isTopLevel
    exact admitted
  obtain ⟨pending, last, runs, tight, completes⟩ := reaches _ admits
  refine ⟨pending ++ [frame], last, ?_, ?_, ?_⟩
  · rw [append_assoc]
    exact runs
  · intro other mem
    rcases mem_append.mp mem with inner | outer
    · obtain ⟨otherLevel, isLevel, tighter⟩ := tight other inner
      exact ⟨otherLevel, isLevel, Nat.le_trans binds tighter⟩
    · rw [mem_singleton.mp outer]
      exact ⟨own, ownLevel, Nat.le_refl _⟩
  · rw [completeAll, foldl_append]
    exact congrArg frame.complete completes

/-- An operator behind the tokens completes the tree and nothing before it. -/
theorem Reaches.first (reaches : Reaches level tokens tree) (bounded : bound ≤ level)
    (admits : Admits bound stack) :
    ∃ pending last, run ⟨stack, none⟩ tokens = some ⟨pending ++ stack, some last⟩ ∧
      reduce bound (pending ++ stack) last = (stack, tree) := by
  have admitted : Admits (rise level) stack := fun frame isTop own ownLevel =>
    Nat.lt_of_lt_of_le (admits frame isTop own ownLevel) (Nat.le_trans bounded (le_rise level))
  obtain ⟨pending, last, runs, tight, completes⟩ := reaches stack admitted
  refine ⟨pending, last, runs, ?_⟩
  rw [reduce_append tight bounded, completes, reduce_of_admits admits]

theorem Reaches.unary (reaches : Reaches level tokens tree) (known : op ∈ unaryOperators)
    (binds : unaryLevel ≤ level) : Reaches unaryLevel (.symbol op :: tokens) (.unary op tree) := by
  intro stack _
  obtain ⟨pending, last, runs, tight, completes⟩ :=
    reaches.last (.unary op) rfl binds (lt_rise (by decide) binds)
  have opens : step ⟨stack, none⟩ (.symbol op) = some ⟨.unary op :: stack, none⟩ := by
    have other : op ≠ "(" := by
      rintro rfl
      contradiction
    simp [step, start, known, other]
  exact ⟨pending, last, run_of_step opens runs, tight, completes⟩

theorem Reaches.binary {level leftLevel rightLevel : Nat}
    {leftTokens rightTokens : List Token} {left right : Tree}
    (leftReaches : Reaches leftLevel leftTokens left) (known : level? op = some level)
    (leftBinds : rise level ≤ leftLevel) (rightReaches : Reaches rightLevel rightTokens right)
    (rightBinds : level ≤ rightLevel) (rightAdmitted : level < rise rightLevel) :
    Reaches level (leftTokens ++ .symbol op :: rightTokens) (.binary op left right) := by
  intro stack admits
  obtain ⟨before, first, runsLeft, reduced⟩ := leftReaches.first leftBinds admits
  obtain ⟨pending, last, runsRight, tight, completes⟩ :=
    rightReaches.last (.binary op left) known rightBinds rightAdmitted
  refine ⟨pending, last, ?_, tight, completes⟩
  have operates : step ⟨before ++ stack, some first⟩ (.symbol op) =
      some ⟨.binary op left :: stack, none⟩ := by
    simp only [step, extend, known, reduced]
  exact run_of_run runsLeft (run_of_step operates runsRight)

theorem Reaches.ternary (asked : Reaches conditionLevel conditionTokens condition)
    (conditionBinds : ternaryLevel < conditionLevel)
    (positive : Reaches trueLevel trueTokens whenTrue)
    (negative : Reaches falseLevel falseTokens whenFalse) :
    Reaches ternaryLevel
      (conditionTokens ++ .symbol "?" :: trueTokens ++ .symbol ":" :: falseTokens)
      (.ternary condition whenTrue whenFalse) := by
  intro stack admits
  obtain ⟨before, first, runsCondition, reduced⟩ := asked.first conditionBinds admits
  obtain ⟨middle, second, runsTrue, reducedTrue⟩ := positive.inner (.trueBranch condition) rfl stack
  obtain ⟨pending, last, runsFalse, tight, completes⟩ :=
    negative.last (.falseBranch condition whenTrue) rfl (Nat.zero_le _)
      (lt_rise (by decide) (Nat.zero_le _))
  refine ⟨pending, last, ?_, tight, completes⟩
  have question : step ⟨before ++ stack, some first⟩ (.symbol "?") =
      some ⟨.trueBranch condition :: stack, none⟩ := by
    have reduced : reduce (rise ternaryLevel) (before ++ stack) first = (stack, condition) :=
      reduced
    refine (step_symbol rfl rfl).trans ?_
    simp only [proceed, reduced]
  have colon : step ⟨middle ++ .trueBranch condition :: stack, some second⟩ (.symbol ":") =
      some ⟨.falseBranch condition whenTrue :: stack, none⟩ := by
    refine (step_symbol rfl rfl).trans ?_
    simp only [proceed, reducedTrue]
  exact run_of_run (run_of_run runsCondition (run_of_step question runsTrue))
    (run_of_step colon runsFalse)

/-- Reading the tokens of a derivation completes its tree. -/
theorem reaches_of_derives (derivation : Derives level tokens tree) :
    Reaches level tokens tree := by
  induction derivation with
  | word text => exact fun stack _ => ⟨[], .word text, rfl, by simp [Tight], rfl⟩
  | emptyText => exact fun stack _ => ⟨[], .emptyText, rfl, by simp [Tight], rfl⟩
  | enclosed _ inner => exact inner.enclosed
  | index _ _ subject inner => exact subject.index inner
  | member _ name subject => exact subject.member name
  | call _ _ called inner => exact called.call inner
  | callTwo _ _ _ called first second => exact called.callTwo first second
  | unary known _ binds operand => exact operand.unary known binds
  | power _ leftBinds _ rightBinds base exponent =>
    exact base.binary rfl leftBinds exponent rightBinds (lt_rise (by decide) rightBinds)
  | binary known notPower _ leftBinds _ rightBinds leftSide rightSide =>
    have risen := rise_of_lt (level?_pos known) notPower
    exact leftSide.binary known (Nat.le_trans (Nat.le_of_eq risen) leftBinds) rightSide
      (Nat.le_of_lt rightBinds) (Nat.lt_of_lt_of_le rightBinds (le_rise _))
  | ternary _ conditionBinds _ _ asked positive negative =>
    exact asked.ternary conditionBinds positive negative

theorem parse_of_derives (derivation : Derives level tokens tree) : parse tokens = some tree := by
  have admits (bound : Nat) : Admits bound [] := by
    rintro frame ⟨⟩
  obtain ⟨pending, last, runs, reduced⟩ :=
    (reaches_of_derives derivation).first (Nat.zero_le level) (admits 0)
  rw [append_nil] at runs reduced
  have reduced : reduce ternaryLevel pending last = ([], tree) := reduced
  simp [parse, runs, reduced]

/-- Tokens stand for at most one tree. -/
theorem Derives.unique (derivation : Derives level tokens tree)
    (another : Derives otherLevel tokens other) : other = tree := by
  have same := (parse_of_derives another).symm.trans (parse_of_derives derivation)
  exact Option.some.inj same

end ContractForge.Grammar
