import ContractForge.Proofs.Lowering.SafeContract

/-!
# Contracts that are lowered one after the other

A new contract starts with nothing known but the history of those before it, and no step
looks at the history. So the contracts of a program are those that its classes and modules
come to on their own, in their order, and so are the diagnostics; the first class that
fails on its own is the one whose failure ends the program (`lowerProgram_alone`).
-/

namespace ContractForge

open Lower List

variable {node : Node} {α β : Type} {empty log : DiagnosticLog} {front nodes back : List Node}
  {contracts : List Contract} {entries own : List Diagnostic}

/-! ### Contracts on their own -/

/-- Nothing that was known before is known when a class is lowered. -/
theorem outcome_lowerClass_of_named (named : node.className? = some (.text name)) :
    outcome (lowerClass node) context =
      outcome (lowerClass node) { log := context.log, isUnwritable := context.isUnwritable } := by
  unfold lowerClass
  rw [named]
  rfl

def Node.IsContract (node : Node) : Prop :=
  node.kind = .classDef ∨ node.kind = .moduleDef

theorem className?_of_fits (fits : node.Fits role) (isContract : node.IsContract) :
    ∃ name, node.className? = some (.text name) := by
  have isNamed (path : Node) (others : List Node) (isChildren : node.children = path :: others)
      (isConstant : path.Fits .constant) : ∃ name, node.className? = some (.text name) := by
    cases isConstant with
    | @constant name _ _ named =>
      simp [Node.className?, isChildren, Payload.isGiven, named]
  have parts := fits.parts
  obtain isClass | isModule := isContract
  · rw [Node.Parts, isClass] at parts
    obtain ⟨path, _, _, isChildren, isConstant, -⟩ := parts
    exact isNamed path _ isChildren isConstant
  · rw [Node.Parts, isModule] at parts
    obtain ⟨path, _, isChildren, isConstant, -⟩ := parts
    exact isNamed path _ isChildren isConstant

theorem repeats_lowerClass (fits : node.Fits .part) (isContract : node.IsContract)
    (log : DiagnosticLog) : Repeats (lowerClass node) { log } :=
  (safe_lowerClass fits isContract { log } steady_of_log).1

/-- A class comes to what it comes to on its own, behind the history. -/
theorem outcome_lowerClass (fits : node.Fits .part) (isContract : node.IsContract)
    (context : Context) :
    outcome (lowerClass node) context =
      ((outcome (lowerClass node) { log := context.log.clear }).1,
        (outcome (lowerClass node) { log := context.log.clear }).2.following
          ⟨context.log.entries, context.isUnwritable⟩) := by
  obtain ⟨_, named⟩ := className?_of_fits fits isContract
  rw [outcome_lowerClass_of_named named, ← (repeats_lowerClass fits isContract _).same]
  simp [Context.following, DiagnosticLog.clear]

/-- The contracts and diagnostics that the nodes at the top of a program come to on their own, each
with an empty log: one contract for each class and module, with its diagnostics, and a warning for
each node that is skipped. -/
inductive LoweredAlone (empty : DiagnosticLog) :
    List Node → List Contract → List Diagnostic → Prop where
  | nil : LoweredAlone empty [] [] []
  | contract {node : Node} {rest : List Node} {contract : Contract} {contracts : List Contract}
      {entries later : List Diagnostic} (isContract : node.IsContract)
      (lowered : (lowerProgram [node]).runWith empty = (.ok [contract], { empty with entries }))
      (others : LoweredAlone empty rest contracts later) :
      LoweredAlone empty (node :: rest) (contract :: contracts) (entries ++ later)
  | required {node : Node} {rest : List Node} {contracts : List Contract} {later : List Diagnostic}
      (isImport : node.kind = .importFile) (others : LoweredAlone empty rest contracts later) :
      LoweredAlone empty (node :: rest) contracts later
  | skipped {node : Node} {rest : List Node} {contracts : List Contract} {later : List Diagnostic}
      (noContract : ¬node.IsContract) (noImport : node.kind ≠ .importFile)
      (others : LoweredAlone empty rest contracts later) :
      LoweredAlone empty (node :: rest) contracts
        ((empty.add (.statementSkipped node.kind.name
          "only classes, modules and requires are allowed at top level" node.line)).entries ++
          later)

theorem lowerProgram_contract (isContract : node.IsContract) :
    lowerProgram (node :: rest) = do
      let contract ← lowerClass node
      return contract :: (← lowerProgram rest) := by
  have isKind : (node.kind == .classDef || node.kind == .moduleDef) := by
    simpa [Node.IsContract] using isContract
  rw [lowerProgram, if_pos isKind]

theorem lowerProgram_other (noContract : ¬node.IsContract) :
    lowerProgram (node :: rest) =
      if node.kind != .importFile then do
        report (.statementSkipped node.kind.name
          "only classes, modules and requires are allowed at top level" node.line)
        lowerProgram rest
      else lowerProgram rest := by
  have notKind : ¬(node.kind == .classDef || node.kind == .moduleDef) := by
    simpa [Node.IsContract] using noContract
  rw [lowerProgram, if_neg notKind]

theorem outcome_map (change : α → β) :
    outcome (change <$> step) context =
      ((outcome step context).1.map change, (outcome step context).2) := by
  rw [← bind_pure_comp, outcome_bind]
  obtain ⟨result, -⟩ := outcome step context
  cases result <;> rfl

theorem runWith_singleton (isContract : node.IsContract) (log : DiagnosticLog) :
    (lowerProgram [node]).runWith log =
      ((outcome (lowerClass node) { log }).1.map fun contract => [contract],
        (outcome (lowerClass node) { log }).2.log) := by
  have unfolded : (lowerProgram [node]).runWith log =
      ((outcome (lowerProgram [node]) { log }).1, (outcome (lowerProgram [node]) { log }).2.log) :=
    rfl
  rw [unfolded, lowerProgram_contract isContract, outcome_bind]
  obtain ⟨result, -⟩ := outcome (lowerClass node) { log }
  cases result <;> rfl

/-- Nodes that can be lowered on their own, with others behind them: what they come to stands in
front of what the others come to. -/
theorem LoweredAlone.outcome_append
    (alone : LoweredAlone empty front contracts entries) (fit : ∀ node ∈ front, node.Fits .part)
    (back : List Node) {context : Context} (isEmpty : context.log.clear = empty) :
    ∃ middle, middle.log = { context.log with entries := context.log.entries ++ entries } ∧
      outcome (lowerProgram (front ++ back)) context =
        outcome ((contracts ++ ·) <$> lowerProgram back) middle := by
  induction alone generalizing context with
  | nil => exact ⟨context, by simp, by simp⟩
  | @contract node rest contract contracts entries later isContract lowered others
      ih =>
      obtain ⟨nodeFits, restFit⟩ := forall_mem_cons.mp fit
      rw [runWith_singleton isContract] at lowered
      have ofClass := outcome_lowerClass nodeFits isContract context
      rw [isEmpty] at ofClass
      generalize outcome (lowerClass node) { log := empty } = fresh at lowered ofClass
      obtain ⟨result, ending⟩ := fresh
      cases result with
      | error => simp [Except.map] at lowered
      | ok value =>
        obtain ⟨rfl, isLog⟩ : value = contract ∧ ending.log = { empty with entries } := by
          simpa [Except.map] using lowered
        obtain ⟨middle, isMiddle, isOutcome⟩ := @ih restFit
          (ending.following ⟨context.log.entries, context.isUnwritable⟩)
          (by simp [Context.following, isLog, ← isEmpty, DiagnosticLog.clear])
        refine ⟨middle, ?_, ?_⟩
        · simp [isMiddle, Context.following, isLog, ← isEmpty, DiagnosticLog.clear]
        · rw [cons_append, lowerProgram_contract isContract, outcome_bind, ofClass]
          dsimp only
          rw [bind_pure_comp, outcome_map, isOutcome, ← outcome_map, Functor.map_map]
          rfl
  | @required node rest contracts later isImport others ih =>
    have noContract : ¬node.IsContract := by simp [Node.IsContract, isImport]
    obtain ⟨middle, isLog, isOutcome⟩ :=
      ih (forall_mem_cons.mp fit).2 isEmpty
    refine ⟨middle, isLog, ?_⟩
    rw [cons_append, lowerProgram_other noContract, if_neg (by simp [isImport]), isOutcome]
  | @skipped node rest contracts later noContract noImport others ih =>
    obtain ⟨middle, isLog, isOutcome⟩ := @ih (forall_mem_cons.mp fit).2
      { context with log := context.log.add (.statementSkipped node.kind.name
        "only classes, modules and requires are allowed at top level" node.line) }
      (by simp [← isEmpty, DiagnosticLog.add, DiagnosticLog.clear])
    refine ⟨middle, ?_, ?_⟩
    · simp [isLog, ← isEmpty, DiagnosticLog.add, DiagnosticLog.clear]
    · rw [cons_append, lowerProgram_other noContract, if_pos (by simp [noImport])]
      exact isOutcome

/-- On its own, a node at the top of a program fails, or it comes to contracts and diagnostics that
stand in front of those of the nodes behind it. -/
theorem fails_or_prepends (empty : DiagnosticLog) (fits : node.Fits .part) :
    (node.IsContract ∧ ∃ error own, (lowerProgram [node]).runWith empty =
        (.error error, { empty with entries := own })) ∨
      ∃ first own, ∀ rest contracts later, LoweredAlone empty rest contracts later →
        LoweredAlone empty (node :: rest) (first ++ contracts) (own ++ later) := by
  by_cases isContract : node.IsContract
  · have isRun := runWith_singleton isContract empty
    have sameLog := (repeats_lowerClass fits isContract empty).log
    generalize outcome (lowerClass node) { log := empty } = fresh at isRun sameLog
    obtain ⟨result, ending⟩ := fresh
    have isLog : ending.log = { empty with entries := ending.log.entries } := by
      simp only [DiagnosticLog.clear, DiagnosticLog.mk.injEq, true_and] at sameLog
      rw [← sameLog.1, ← sameLog.2]
    rw [isLog] at isRun
    cases result with
    | error error => exact .inl ⟨isContract, error, _, isRun⟩
    | ok contract => exact .inr ⟨[contract], _, fun _ _ _ others =>
        .contract isContract isRun others⟩
  · by_cases isImport : node.kind = .importFile
    · exact .inr ⟨[], [], fun _ _ _ others => .required isImport others⟩
    · exact .inr ⟨[], _, fun _ _ _ others => .skipped isContract isImport others⟩

/-- Either all nodes can be lowered on their own, or there is a first class that cannot. -/
theorem loweredAlone_or_fails (empty : DiagnosticLog) (fit : ∀ node ∈ nodes, node.Fits .part) :
    (∃ contracts entries, LoweredAlone empty nodes contracts entries) ∨
      ∃ front node back contracts entries error own, nodes = front ++ node :: back ∧
        LoweredAlone empty front contracts entries ∧ node.IsContract ∧
        (lowerProgram [node]).runWith empty = (.error error, { empty with entries := own }) := by
  induction nodes with
  | nil => exact .inl ⟨[], [], .nil⟩
  | cons node rest ih =>
    obtain ⟨nodeFits, restFit⟩ := forall_mem_cons.mp fit
    obtain ⟨isContract, error, own, fails⟩ | ⟨_, own, prepends⟩ :=
      fails_or_prepends empty nodeFits
    · exact .inr ⟨[], node, rest, [], [], error, own, rfl, .nil, isContract, fails⟩
    · obtain ⟨_, _, alone⟩ |
        ⟨front, failing, back, _, _, error, others, rfl, alone, fails⟩ :=
        ih restFit
      · exact .inl ⟨_, _, prepends _ _ _ alone⟩
      · exact .inr ⟨node :: front, failing, back, _, _, error, others, rfl, prepends _ _ _ alone,
          fails⟩

/-! ### Programs -/

theorem runWith_eq (log : DiagnosticLog) :
    step.runWith log = ((outcome step { log }).1, (outcome step { log }).2.log) :=
  rfl

/-- What a program comes to if all its nodes can be lowered on their own. -/
theorem LoweredAlone.runWith (alone : LoweredAlone log.clear nodes contracts entries)
    (fit : ∀ node ∈ nodes, node.Fits .part) :
    (lowerProgram nodes).runWith log =
      (.ok contracts, { log with entries := log.entries ++ entries }) := by
  have isStart : ({ log } : Context).log.clear = log.clear := rfl
  obtain ⟨middle, isLog, isOutcome⟩ := alone.outcome_append fit [] isStart
  have isEnd : outcome (lowerProgram []) middle = (.ok [], middle) := rfl
  rw [append_nil, outcome_map, isEnd] at isOutcome
  rw [runWith_eq, isOutcome, ← isLog]
  simp [Except.map]

/-- What a program comes to if one of its classes fails on its own, and all before it do not. -/
theorem LoweredAlone.runWith_fails
    (alone : LoweredAlone log.clear front contracts entries) (isContract : node.IsContract)
    (fit : ∀ other ∈ front ++ node :: back, other.Fits .part)
    (fails : (lowerProgram [node]).runWith log.clear =
      (.error error, { log with entries := own })) :
    (lowerProgram (front ++ node :: back)).runWith log =
      (.error error, { log with entries := log.entries ++ entries ++ own }) := by
  have isStart : ({ log } : Context).log.clear = log.clear := rfl
  obtain ⟨middle, isLog, isOutcome⟩ := alone.outcome_append
    (fun other mem => fit other (by simp [mem])) (node :: back) isStart
  have ofClass := outcome_lowerClass (fit node (by simp)) isContract middle
  have sameEmpty : middle.log.clear = log.clear := by rw [isLog]; rfl
  rw [runWith_singleton isContract] at fails
  rw [sameEmpty] at ofClass
  generalize outcome (lowerClass node) { log := log.clear } = fresh at fails ofClass
  obtain ⟨result, ending⟩ := fresh
  cases result with
  | ok => simp [Except.map] at fails
  | error other =>
    obtain ⟨rfl, isEnding⟩ : other = error ∧ ending.log = { log with entries := own } := by
      simpa [Except.map] using fails
    rw [runWith_eq, isOutcome, outcome_map, lowerProgram_contract isContract, outcome_bind, ofClass]
    simp [Except.map, Context.following, isEnding, isLog]

/-- A program that was read is lowered exactly if all of its nodes can be lowered on their own; then
its contracts and diagnostics are theirs, in the order of the source. It fails exactly if a class or
module fails on its own, with the failure of the first that does and the diagnostics up to it. -/
theorem lowerProgram_alone {limit : Option Nat} {source : String} {program : Node}
    (read : parseWithin limit source = .ok program) (log : DiagnosticLog) :
    (∀ contracts ending, (lowerProgram program.children).runWith log = (.ok contracts, ending) ↔
      ∃ entries, LoweredAlone log.clear program.children contracts entries ∧
        ending = { log with entries := log.entries ++ entries }) ∧
    ∀ error ending, (lowerProgram program.children).runWith log = (.error error, ending) ↔
      ∃ front node back contracts entries own, program.children = front ++ node :: back ∧
        LoweredAlone log.clear front contracts entries ∧ node.IsContract ∧
        (lowerProgram [node]).runWith log.clear = (.error error, { log with entries := own }) ∧
        ending = { log with entries := log.entries ++ entries ++ own } := by
  have fit : ∀ node ∈ program.children, node.Fits .part := by
    have reads := readsAs_parseWithin limit source
    rw [read] at reads
    cases reads with
    | program childrenFit => exact childrenFit
  have cases := loweredAlone_or_fails log.clear fit
  generalize program.children = nodes at fit cases
  constructor
  · intro contracts ending
    constructor
    · intro isRun
      obtain ⟨others, entries, alone⟩ |
        ⟨front, node, back, others, entries, error, own, rfl, alone, isContract, fails⟩ := cases
      · rw [alone.runWith fit] at isRun
        cases isRun
        exact ⟨entries, alone, rfl⟩
      · rw [alone.runWith_fails isContract fit fails] at isRun
        cases isRun
    · rintro ⟨entries, alone, rfl⟩
      exact alone.runWith fit
  · intro error ending
    constructor
    · intro isRun
      obtain ⟨others, entries, alone⟩ |
        ⟨front, node, back, others, entries, first, own, rfl, alone, isContract, fails⟩ := cases
      · rw [alone.runWith fit] at isRun
        cases isRun
      · rw [alone.runWith_fails isContract fit fails] at isRun
        cases isRun
        exact ⟨front, node, back, others, entries, own, rfl, alone, isContract, fails, rfl⟩
    · rintro ⟨front, node, back, others, entries, own, rfl, alone, isContract, fails, rfl⟩
      exact alone.runWith_fails isContract fit fails

/-- A class and a module with methods of one name, a file that is required, and a statement that is
skipped. -/
def treasurySource : String :=
  "require 'shared'\n" ++
  "class Vault\n" ++
  "  def cap\n" ++
  "    @limit\n" ++
  "  end\n" ++
  "end\n" ++
  "cap = 2\n" ++
  "module Limits\n" ++
  "  def cap\n" ++
  "    limit\n" ++
  "  end\n" ++
  "end\n"

/-- Whether the source is read and lowered to so many contracts, with so many diagnostics. -/
def lowersTo (source : String) (contracts diagnostics : Nat) : Bool :=
  match parseWithin (some Text.digitLimit) source with
  | .ok program =>
    match (lowerProgram program.children).runWith {} with
    | (.ok found, log) => found.length == contracts && log.entries.length == diagnostics
    | (.error _, _) => false
  | .error _ => false

theorem lowerProgram_treasury :
    ∃ program contracts entries,
      parseWithin (some Text.digitLimit) treasurySource = .ok program ∧
      (lowerProgram program.children).runWith {} = (.ok contracts, { entries }) ∧
      contracts.length = 2 ∧ entries.length = 3 ∧
      LoweredAlone {} program.children contracts entries := by
  have lowers : lowersTo treasurySource 2 3 = true := by decide +kernel
  unfold lowersTo at lowers
  split at lowers
  · rename_i program read
    split at lowers
    · rename_i contracts ending isRun
      obtain ⟨entries, alone, rfl⟩ := ((lowerProgram_alone read {}).1 contracts ending).mp isRun
      obtain ⟨two, three⟩ : contracts.length = 2 ∧ entries.length = 3 := by simpa using lowers
      exact ⟨program, contracts, entries, read, isRun, two, three, alone⟩
    · contradiction
  · contradiction

end ContractForge
