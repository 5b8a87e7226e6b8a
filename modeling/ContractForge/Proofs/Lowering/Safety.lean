import ContractForge.Proofs.Lowering.Naming
import ContractForge.Proofs.Lowering.Reporting
import ContractForge.Proofs.Syntax.WellNamed

/-!
# Steps that do not break

A step of lowering can fail in two ways: it rejects the program, or it meets a tree
that breaks the rules of its kinds. A step is safe if the second never happens. What
has to be known for that about the context is that the names to be written out are texts
and that the fields whose types are looked up have types (`Context.Steady`); safe steps
keep it so. Questions that are asked about a tree have to be answered (`Answers`).

The diagnostics of earlier contracts, and whether something in them cannot be written
out, stay in the context while the next contract is lowered. No safe step looks at them
(`Repeats`).
-/

namespace ContractForge

open List

variable {payload : Payload} {condition : Prop} {α β : Type} {values : List α}

theorem Payload.IsText.spelled (isText : payload.IsText) : ∃ text, payload.spelled = .ok text := by
  obtain ⟨text, rfl⟩ := isText
  exact ⟨text, rfl⟩

theorem Payload.eq_of_asText {text : String} (isText : payload.asText = .ok text) :
    payload = .text text := by
  cases payload with
  | text =>
    cases isText
    rfl
  | _ => contradiction

theorem Payload.IsText.asText (isText : payload.IsText) : ∃ text, payload.asText = .ok text := by
  obtain ⟨text, rfl⟩ := isText
  exact ⟨text, rfl⟩

/-! ### Questions -/

def Answers (property : α → Prop) (answer : Except Malformed α) : Prop :=
  ∃ value, answer = .ok value ∧ property value

theorem Answers.holds
    (answers : Answers property answer) (isOk : answer = .ok value) : property value := by
  obtain ⟨_, isFound, holds⟩ := answers
  cases isFound.symm.trans isOk
  exact holds

abbrev Answered (answer : Except Malformed α) : Prop :=
  Answers (fun _ => True) answer

section

variable {property : β → Prop}

theorem answers_pure (holds : property value) :
    Answers property (pure value : Except Malformed β) :=
  ⟨value, rfl, holds⟩

theorem answered_pure : Answered (pure value : Except Malformed β) :=
  answers_pure trivial

theorem Answers.bind {next : α → Except Malformed β} (first : Answers intermediate question)
    (second : ∀ value, intermediate value → Answers property (next value)) :
    Answers property (question >>= next) := by
  obtain ⟨value, rfl, holds⟩ := first
  exact second value holds

theorem Answers.ends {change : α → β} (first : Answers intermediate question) :
    Answers (fun _ => True) (question >>= fun value => pure (change value)) :=
  first.bind fun _ _ => answered_pure

theorem Answers.mono
    (answers : Answers stronger answer) (weaker : ∀ value, stronger value → property value) :
    Answers property answer := by
  obtain ⟨value, isOk, holds⟩ := answers
  exact ⟨value, isOk, weaker value holds⟩

theorem Answers.answered (answers : Answers property answer) : Answered answer :=
  answers.mono fun _ _ => trivial

theorem answers_ite {condition : Prop} [Decidable condition] {yes no : Except Malformed β}
    (ofYes : Answers property yes) (ofNo : Answers property no) :
    Answers property (if condition then yes else no) := by
  split
  · exact ofYes
  · exact ofNo

theorem composes_answers : Composes Answers :=
  ⟨answers_pure, Answers.bind⟩

theorem answered_mapM
    (ofQuestion : ∀ value ∈ values, Answered (question value)) : Answered (values.mapM question) :=
  (composes_answers.mapM ofQuestion).answered

theorem answered_filterMapM {values : List α}
    (ofQuestion : ∀ value ∈ values, Answered (question value)) :
    Answered (values.filterMapM question) := by
  have anyResult := composes_answers.filterMapM fun value mem =>
    (ofQuestion value mem).mono fun _ _ _ _ => trivial
  exact anyResult.answered

end

theorem answers_childAt {node child : Node} {place : Nat} {property : Node → Prop}
    (found : node.children[place]? = some child) (holds : property child) :
    Answers property (node.childAt place) :=
  ⟨child, by rw [Node.childAt, found], holds⟩

theorem answers_spelled (isText : payload.IsText) : Answered payload.spelled := by
  obtain ⟨text, isOk⟩ := isText.spelled
  exact ⟨text, isOk, trivial⟩

theorem answers_asText (isText : payload.IsText) : Answered payload.asText := by
  obtain ⟨text, isOk⟩ := isText.asText
  exact ⟨text, isOk, trivial⟩

/-! ### Contexts -/

/-- All names to be written out are texts, and the fields with the given names have types. -/
structure Context.Steady (labels : List Payload) (context : Context) : Prop where
  parameters : ∀ name ∈ context.method.parameters, name.IsText
  baseArguments : ∀ names ∈ context.method.baseArguments, ∀ name ∈ names, name.IsText
  writable : context.isUnwritable = false
  typed : ∀ label ∈ labels, ∃ type, context.fieldType? label = some type

/-! ### Steps -/

namespace Lower

/-- After any history the step comes to the same, and leaves the history before what it adds. All
that it changes about the log is the entries. -/
structure Repeats (step : Lower α) (context : Context) : Prop where
  same : ∀ history, outcome step (context.following history) =
    ((outcome step context).1, (outcome step context).2.following history)
  log : (outcome step context).2.log.clear = context.log.clear

/-- In a context with the first property, the step gives a value with the second one, or it
rejects the program; and so it does after any history. -/
def Settles (before : Context → Prop) (step : Lower α) (after : α → Context → Prop) : Prop :=
  ∀ context, before context → Repeats step context ∧ match outcome step context with
    | (.ok value, ending) => after value ending
    | (.error (.rejected _ _), _) => True
    | (.error (.malformed _), _) => False

section

variable {before : Context → Prop} {after : β → Context → Prop}

theorem settles_pure (holds : ∀ context, before context → after value context) :
    Settles before (pure value) after :=
  fun context known => ⟨⟨fun _ => rfl, rfl⟩, holds context known⟩

theorem Settles.bind {next : α → Lower β} (first : Settles before step between)
    (second : ∀ value, Settles (between value) (next value) after) :
    Settles before (step >>= next) after := by
  intro context holds
  obtain ⟨repeats, ofStep⟩ := first context holds
  split at ofStep
  · rename_i value middle gives
    obtain ⟨repeatsNext, ofNext⟩ := second value middle ofStep
    have isOutcome : outcome (step >>= next) context = outcome (next value) middle := by
      rw [outcome_bind, gives]
    rw [isOutcome]
    refine ⟨⟨fun history => ?_, ?_⟩, ofNext⟩
    · rw [isOutcome, outcome_bind, repeats.same, gives]
      exact repeatsNext.same history
    · rw [isOutcome, repeatsNext.log, ← repeats.log, gives]
  · rename_i reason place middle rejects
    have isOutcome : outcome (step >>= next) context =
        (.error (.rejected reason place), middle) := by
      rw [outcome_bind, rejects]
    rw [isOutcome]
    refine ⟨⟨fun history => ?_, ?_⟩, trivial⟩
    · rw [isOutcome, outcome_bind, repeats.same, rejects]
    · rw [isOutcome, ← repeats.log, rejects]
  · contradiction

theorem Settles.mono
    (settles : Settles weaker step stronger) (ofBefore : ∀ context, before context → weaker context)
    (ofAfter : ∀ value context, stronger value context → after value context) :
    Settles before step after := by
  intro context holds
  obtain ⟨repeats, ofStep⟩ := settles context (ofBefore context holds)
  refine ⟨repeats, ?_⟩
  split at ofStep
  · exact ofAfter _ _ ofStep
  · trivial
  · contradiction

/-- A change that does not depend on the history. -/
theorem settles_modifyGet {change : Context → β × Context}
    (same : ∀ context, before context → ∀ history, change (context.following history) =
      ((change context).1, (change context).2.following history) ∧
        (change context).2.log.clear = context.log.clear)
    (holds : ∀ context, before context → after (change context).1 (change context).2) :
    Settles before (modifyGet change : Lower β) after := by
  intro context known
  have changes (start : Context) :
      outcome (modifyGet change : Lower β) start = (.ok (change start).1, (change start).2) := rfl
  refine ⟨⟨fun history => ?_, ?_⟩, holds context known⟩
  · rw [changes, changes, (same context known history).1]
  · exact (same context known ⟨[], false⟩).2

theorem settles_modify {after : PUnit → Context → Prop}
    (same : ∀ context, before context → ∀ history, change (context.following history) =
      (change context).following history ∧ (change context).log.clear = context.log.clear)
    (holds : ∀ context, before context → after ⟨⟩ (change context)) :
    Settles before (modify change : Lower PUnit) after :=
  settles_modifyGet (fun context known history =>
    ⟨congrArg (Prod.mk _) (same context known history).1, (same context known history).2⟩) holds

/-- What is done with the context does not depend on the history. -/
theorem settles_read {next : Context → Lower β}
    (same : ∀ context history, next (context.following history) = next context)
    (ofNext : ∀ context, before context → Settles before (next context) after) :
    Settles before (get >>= next) after := by
  intro context known
  have reads (start : Context) : outcome (get >>= next) start = outcome (next start) start := by
    rfl
  obtain ⟨repeats, holds⟩ := ofNext context known context known
  refine ⟨⟨fun history => ?_, ?_⟩, holds⟩
  · rw [reads, reads, same, repeats.same]
  · rw [reads, repeats.log]

theorem settles_infer
    (same : ∀ context history, question (context.following history) = question context)
    (answers : ∀ context, before context → Answers (fun value => after value context)
      (question context)) : Settles before (infer question) after := by
  intro context holds
  obtain ⟨_, isOk, valueHolds⟩ := answers context holds
  have gives := gives_infer_iff.mpr ⟨isOk, rfl⟩
  rw [gives]
  refine ⟨⟨fun history => ?_, by rw [gives]⟩, valueHolds⟩
  rw [gives]
  exact gives_infer_iff.mpr ⟨(same context history).trans isOk, rfl⟩

theorem settles_ite [Decidable condition]
    (ofYes : condition → Settles before yes after) (ofNo : ¬ condition → Settles before no after) :
    Settles before (if condition then yes else no) after := by
  split
  · exact ofYes ‹_›
  · exact ofNo ‹_›

/-- A loop over values. What is known after each round may depend on the values so far. -/
theorem settles_forIn {body : α → PUnit → Lower (ForInStep PUnit)} (known : List α → Context → Prop)
    (ofBody : ∀ done, ∀ value ∈ values, Settles (known done) (body value ⟨⟩) fun result context =>
      result = .yield ⟨⟩ ∧ known (done ++ [value]) context) (done : List α) :
    Settles (known done) (forIn values ⟨⟩ body) fun _ => known (done ++ values) := by
  induction values generalizing done with
  | nil =>
    rw [append_nil]
    exact settles_pure fun _ holds => holds
  | cons value _ ih =>
    rw [forIn_cons]
    refine (ofBody done value mem_cons_self).bind fun result context holds => ?_
    obtain ⟨rfl, holds⟩ := holds
    have ofRest := ih (fun done other mem =>
      ofBody done other (mem_cons_of_mem _ mem)) (done ++ [value])
    rw [append_assoc, singleton_append] at ofRest
    exact ofRest context holds

end

end Lower

open Lower

/-- The step does not break, keeps the context steady and gives a value with the property. -/
def Safe (labels : List Payload) (property : α → Prop) (step : Lower α) : Prop :=
  Settles (Context.Steady labels) step fun value context => property value ∧ context.Steady labels

/-- The step does not break and keeps the context steady. -/
abbrev IsSafe (labels : List Payload) (step : Lower α) : Prop :=
  Safe labels (fun _ => True) step

section

variable {labels : List Payload} {property : β → Prop}

theorem safe_pure (holds : property value) : Safe labels property (pure value) :=
  settles_pure fun _ steady => ⟨holds, steady⟩

theorem isSafe_pure : IsSafe labels (pure value) :=
  safe_pure trivial

/-- A safe step, and a step after it that may change what is known about the context. -/
theorem Safe.andThen {next : α → Lower β} {after : β → Context → Prop}
    (first : Safe labels intermediate step)
    (second : ∀ value, intermediate value → Settles (Context.Steady labels) (next value) after) :
    Settles (Context.Steady labels) (step >>= next) after :=
  Settles.bind first fun value context holds => second value holds.1 context holds.2

theorem Safe.bind {next : α → Lower β} (first : Safe labels intermediate step)
    (second : ∀ value, intermediate value → Safe labels property (next value)) :
    Safe labels property (step >>= next) :=
  first.andThen second

theorem Safe.ends {change : α → β} (first : Safe labels intermediate step) :
    Safe labels (fun _ => True) (step >>= fun value => pure (change value)) :=
  first.bind fun _ _ => isSafe_pure

theorem Safe.map {change : α → β} (first : Safe labels intermediate step)
    (holds : ∀ value, intermediate value → property (change value)) :
    Safe labels property (change <$> step) := by
  exact first.bind fun value valueHolds => safe_pure (holds value valueHolds)

theorem safe_part (answers : Answers property answer) : Safe labels property (part answer) := by
  obtain ⟨_, rfl, holds⟩ := answers
  exact safe_pure holds

theorem safe_read {next : Context → Lower β}
    (same : ∀ context history, next (context.following history) = next context)
    (ofNext : ∀ context, context.Steady labels → Safe labels property (next context)) :
    Safe labels property (get >>= next) :=
  settles_read same ofNext

theorem safe_infer
    (same : ∀ context history, question (context.following history) = question context)
    (answers : ∀ context, context.Steady labels → Answers property (question context)) :
    Safe labels property (infer question) :=
  settles_infer same fun context steady => (answers context steady).mono fun _ holds =>
    ⟨holds, steady⟩

theorem safe_reject : Safe labels property (reject reason node) :=
  fun _ _ => ⟨⟨fun _ => rfl, rfl⟩, trivial⟩

theorem safe_modify (same : ∀ context history, change (context.following history) =
      (change context).following history ∧ (change context).log.clear = context.log.clear)
    (steady : ∀ context, context.Steady labels → (change context).Steady labels) :
    IsSafe labels (modify change : Lower PUnit) :=
  settles_modify (fun context _ => same context) fun context holds =>
    ⟨trivial, steady context holds⟩

theorem safe_report : IsSafe labels (report diagnostic) := by
  refine safe_modify (fun context history => ⟨?_, rfl⟩) fun _ steady => { steady with }
  simp [Context.following, DiagnosticLog.add]

theorem safe_ite [Decidable condition] (ofYes : Safe labels property yes)
    (ofNo : Safe labels property no) : Safe labels property (if condition then yes else no) := by
  split
  · exact ofYes
  · exact ofNo

/-- A check that may be left out, and what follows it in either case. -/
theorem safe_guard [Decidable condition] {next : Unit → Lower β}
    (ofCheck : IsSafe labels check) (ofNext : Safe labels property (next ())) :
    Safe labels property (if condition then check >>= next else next ()) :=
  safe_ite (ofCheck.bind fun _ _ => ofNext) ofNext

theorem composes_safe : Composes (Safe labels) :=
  ⟨safe_pure, Safe.bind⟩

end

/-! ### Names and blocks -/

section

variable {labels : List Payload} {context : Context}

theorem Context.Steady.withBlock (steady : context.Steady labels)
    (block : BlockScope) : (context.withBlock block).Steady labels :=
  { steady with }

theorem Context.Steady.nextIndexName (steady : context.Steady labels) :
    context.nextIndexName.2.Steady labels := by
  unfold Context.nextIndexName
  dsimp only
  split
  all_goals exact steady.withBlock _

theorem safe_declareLocal (isText : name.IsText) (type : StaticType) :
    Safe labels Payload.IsText (Lower.declareLocal name type) := by
  obtain ⟨name, rfl⟩ := isText
  refine settles_modifyGet (fun _ _ _ => ⟨rfl, rfl⟩) fun context steady => ?_
  obtain ⟨generated, isGenerated, -⟩ := context.declareLocal_declares name type
  exact ⟨⟨generated, isGenerated⟩, (steady.withBlock _).withBlock _⟩

theorem safe_uniqueName : IsSafe labels (Lower.uniqueName base) :=
  settles_modifyGet (fun _ _ _ => ⟨rfl, rfl⟩) fun _ steady => ⟨trivial, steady.withBlock _⟩

theorem safe_nextIndexName : IsSafe labels Lower.nextIndexName := by
  refine settles_modifyGet (fun context _ history => ?_) fun _ steady =>
    ⟨trivial, steady.nextIndexName⟩
  have sameNames : (Context.indexNames.map Payload.text).find? (fun candidate =>
        !(context.following history).isTaken candidate &&
          ((context.following history).local? candidate).isNone) =
      (Context.indexNames.map Payload.text).find? (fun candidate =>
        !context.isTaken candidate && (context.local? candidate).isNone) := rfl
  rw [Context.nextIndexName, Context.nextIndexName, sameNames]
  generalize (Context.indexNames.map Payload.text).find? _ = free
  cases free <;> exact ⟨rfl, rfl⟩

theorem Safe.inBlock {α : Type} {property : α → Prop} {step : Lower α}
    (safe : Safe labels property step) : Safe labels property (inBlock step) := by
  have asked : IsSafe labels (asks Context.block) :=
    fun _ steady => ⟨⟨fun _ => rfl, rfl⟩, trivial, steady⟩
  refine asked.bind fun saved _ => safe.bind fun value holds => ?_
  exact Safe.bind (safe_modify (fun _ _ => ⟨rfl, rfl⟩) fun _ steady => steady.withBlock _)
    fun _ _ => safe_pure holds

/-- A change of the contract that leaves the fields alone. -/
theorem safe_modifyContract {change : ContractScope → ContractScope}
    (keeps : ∀ scope, (change scope).stateVars = scope.stateVars) :
    IsSafe labels (modifyContract change) := by
  refine safe_modify (fun _ _ => ⟨rfl, rfl⟩) fun context steady =>
    ⟨steady.parameters, steady.baseArguments, steady.writable, fun label mem => ?_⟩
  rw [Context.fieldType?, keeps]
  exact steady.typed label mem

theorem safe_modifyMethod {change : MethodScope → MethodScope}
    (keeps : ∀ context : Context, context.Steady labels →
      Context.Steady labels { context with method := change context.method }) :
    IsSafe labels (modifyMethod change) :=
  safe_modify (fun _ _ => ⟨rfl, rfl⟩) keeps

theorem safe_noteUnwritable
    (same : ∀ context history, check (context.following history) = check context)
    (answers : ∀ context, context.Steady labels → Answered (check context)) :
    IsSafe labels (noteUnwritable check) := by
  refine settles_modify (fun context steady history => ?_) fun context steady => ⟨trivial, ?_⟩
  · obtain ⟨⟨⟩, isOk, -⟩ := answers context steady
    rw [same, isOk]
    exact ⟨rfl, rfl⟩
  · obtain ⟨⟨⟩, isOk, -⟩ := answers context steady
    rw [isOk]
    exact steady

end

end ContractForge
