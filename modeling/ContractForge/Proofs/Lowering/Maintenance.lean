import ContractForge.Proofs.Lowering.Reporting

/-!
# What steps maintain

A fact about the context is maintained by a step if it holds after the step whenever it
held before; the value of the step may have a property then. Steps that report maintain
every fact that is neither about the log nor about notes (`Yields.upholds`); what is left
are those that declare or emit something or have statements in them
(`leads_callStatement`).
-/

namespace ContractForge

open Lower List

variable {α β : Type}

/-- If the fact holds before the step, it holds after it, and the value has the property. -/
def Upholds (invariant : Context → Prop) (property : α → Prop) (step : Lower α) : Prop :=
  ∀ before value after, Gives step before value after → invariant before →
    invariant after ∧ property value

/-- If the fact holds before the step, it holds after it. -/
abbrev Maintains (invariant : Context → Prop) (step : Lower α) : Prop :=
  Upholds invariant (fun _ => True) step

def IgnoresLog (invariant : Context → Prop) : Prop :=
  ∀ context diagnostic, invariant context →
    invariant { context with log := context.log.add diagnostic }

/-! ### Rules -/

section

variable {invariant : Context → Prop} {property : β → Prop} {condition : Prop}

theorem upholds_pure (holds : property value) : Upholds invariant property (pure value) := by
  intro _ _ _ gives known
  obtain ⟨rfl, rfl⟩ := gives.ofPure
  exact ⟨known, holds⟩

theorem upholds_throw (error : LowerError) : Upholds invariant property (throw error) := by
  intro _ _ _ gives
  exact absurd gives not_gives_throw

theorem upholds_reject (reason : Rejection) (node : Option Node) :
    Upholds invariant property (reject reason node) := by
  intro _ _ _ gives
  exact absurd gives not_gives_reject

theorem Upholds.andThen {next : α → Lower β} (first : Upholds invariant intermediate step)
    (second : ∀ value, intermediate value → Upholds invariant property (next value)) :
    Upholds invariant property (step >>= next) := by
  intro before result after gives known
  obtain ⟨value, middle, ofStep, ofNext⟩ := gives.ofBind
  obtain ⟨knownBetween, holds⟩ := first before value middle ofStep known
  exact second value holds middle result after ofNext knownBetween

theorem Upholds.mono (upholds : Upholds invariant stronger step)
    (weaker : ∀ value, stronger value → property value) : Upholds invariant property step := by
  intro before result after gives known
  obtain ⟨knownAfter, holds⟩ := upholds before result after gives known
  exact ⟨knownAfter, weaker result holds⟩

/-- A step whose value does not matter, and what follows it. -/
theorem Upholds.bind {next : α → Lower β} (first : Maintains invariant step)
    (second : ∀ value, Upholds invariant property (next value)) :
    Upholds invariant property (step >>= next) :=
  first.andThen fun value _ => second value

theorem upholds_part (answer : Except Malformed β) :
    Upholds invariant (fun value => answer = .ok value) (part answer) := by
  intro _ _ _ gives known
  obtain ⟨isOk, rfl⟩ := gives_part_iff.mp gives
  exact ⟨known, isOk⟩

theorem upholds_infer (question : Context → Except Malformed β) :
    Upholds invariant (fun value => ∃ context, invariant context ∧ question context = .ok value)
      (infer question) := by
  intro _ _ after gives known
  obtain ⟨isOk, rfl⟩ := gives_infer_iff.mp gives
  exact ⟨known, after, known, isOk⟩

theorem upholds_ite [Decidable condition]
    (ofYes : Upholds invariant property yes) (ofNo : Upholds invariant property no) :
    Upholds invariant property (if condition then yes else no) := by
  split
  · exact ofYes
  · exact ofNo

/-- A check that may be left out, and what follows it in either case. -/
theorem upholds_guard [Decidable condition]
    {next : Unit → Lower β} (ofCheck : Maintains invariant check)
    (ofNext : Upholds invariant property (next ())) :
    Upholds invariant property (if condition then check >>= next else next ()) :=
  upholds_ite (ofCheck.bind fun _ => ofNext) ofNext

theorem composes_upholds : Composes (Upholds invariant) :=
  ⟨upholds_pure, Upholds.andThen⟩

theorem maintains_pure (value : α) : Maintains invariant (pure value) :=
  upholds_pure trivial

theorem upholds_get : Upholds invariant invariant (get : Lower Context) := by
  intro _ _ _ gives known
  rw [(gives_get_iff.mp gives).1, (gives_get_iff.mp gives).2]
  exact ⟨known, known⟩

theorem maintains_get : Maintains invariant (get : Lower Context) :=
  upholds_get.mono fun _ _ => trivial

theorem maintains_modify (kept : ∀ context, invariant context → invariant (change context)) :
    Maintains invariant (modify change : Lower PUnit) := by
  intro before _ _ gives known
  rw [gives_modify_iff.mp gives]
  exact ⟨kept before known, trivial⟩

theorem maintains_part (answer : Except Malformed α) : Maintains invariant (part answer) :=
  (upholds_part answer).mono fun _ _ => trivial

theorem maintains_infer (question : Context → Except Malformed α) :
    Maintains invariant (infer question) :=
  (upholds_infer question).mono fun _ _ => trivial

theorem maintains_report (ofLog : IgnoresLog invariant) (diagnostic : Diagnostic) :
    Maintains invariant (report diagnostic) :=
  maintains_modify fun context known => ofLog context diagnostic known

end

/-- The fact is neither about the log nor about notes. -/
structure IgnoresNotes (invariant : Context → Prop) : Prop where
  log : IgnoresLog invariant
  notes : ∀ context next, context.SameButNotes next → invariant context → invariant next

theorem ignoresNotes_true : IgnoresNotes fun _ => True :=
  ⟨fun _ _ _ => trivial, fun _ _ _ _ => trivial⟩

/-- Steps that report change nothing but the log and notes. -/
theorem Yields.upholds (ignores : IgnoresNotes invariant) (yields : Yields property step) :
    Upholds invariant property step := by
  induction yields with
  | pure holds => exact upholds_pure holds
  | throw error => exact upholds_throw error
  | bind _ _ ofStep ofNext => exact Upholds.bind (ofStep.mono fun _ _ => trivial) ofNext
  | read _ ofNext => exact maintains_get.bind ofNext
  | report diagnostic => exact maintains_report ignores.log diagnostic
  | note notes =>
    exact maintains_modify fun context known => ignores.notes context _ (notes context) known

/-! ### Statements without bodies -/

/-- If the first fact holds before the step, the second one holds of its value and the context
after it. -/
def Leads (before : Context → Prop) (after : α → Context → Prop) (step : Lower α) : Prop :=
  ∀ start value ending, Gives step start value ending → before start → after value ending

section

variable {invariant : Context → Prop} {after : List Statement → Context → Prop}
  (ofSimple : ∀ lowered context, AreSimple lowered → invariant context → after lowered context)
  {step : Lower (List Statement)}

include ofSimple

theorem Upholds.leads (upholds : Upholds invariant AreSimple step) :
    Leads invariant after step := by
  intro start lowered ending gives known
  obtain ⟨knownAfter, areSimple⟩ := upholds start lowered ending gives known
  exact ofSimple lowered ending areSimple knownAfter

variable (ignores : IgnoresNotes invariant)

include ignores

theorem Yields.leads (yields : Yields AreSimple step) : Leads invariant after step :=
  (yields.upholds ignores).leads ofSimple

theorem Yields.leadsList {step : Lower Statement} (yields : Yields Statement.IsSimple step) :
    Leads invariant after (do return [← step]) :=
  Upholds.leads ofSimple ((yields.upholds ignores).andThen fun _ simple =>
    upholds_pure (areSimple_singleton simple))

/-- An assignment, given what the first assignment of a variable does. -/
theorem leads_assignment (ofNew : target.kind = .identifier →
      Leads invariant after (declaration node target.payload value)) :
    Leads invariant after (assignment node target value) := by
  intro start lowered ending gives known
  unfold assignment at gives
  have gives := gives.notRejected.2.ofGet
  split at gives
  · rename_i isNew
    simp only [isNewLocal, Bool.and_eq_true, beq_iff_eq] at isNew
    exact ofNew isNew.1 start lowered ending gives known
  · refine Yields.leads ofSimple ignores ?_ start lowered ending gives known
    refine yields_ite (yields_attributeAssignment _) ?_
    refine (reports_expression _).bind fun text => yields_ite ?_ ?_
    · exact reports_operand.bind fun _ => .pure (areSimple_singleton rfl)
    · exact (reports_expression _).bind fun _ => .pure (areSimple_singleton rfl)

/-- A call, given what an emission and the block of an endless loop do. -/
theorem leads_callStatement (ofEmit : node.payload.isText "emit" →
      Leads invariant after (do return [← emitStatement node node.callArgs]))
    (ofLoop : (node.payload.isText "loop" && node.callBlock?.isSome) →
      Leads invariant after (do return [.loop (.whileTrue "true") ((← lowerLoop).getD []) []])) :
    Leads invariant after (callStatement node lowerLoop) := by
  intro _ _ _ gives known
  unfold callStatement at gives
  dsimp only at gives
  split at gives
  · exact yields_requireStatement.leadsList ofSimple ignores _ _ _ gives known
  split at gives
  · exact ofEmit ‹_› _ _ _ gives known
  split at gives
  · exact yields_revertStatement.leadsList ofSimple ignores _ _ _ gives known
  split at gives
  · refine Yields.leads ofSimple ignores ?_ _ _ _ gives known
    exact (Yields.report _).bind fun _ => .pure areSimple_nil
  split at gives
  · exact ofLoop ‹_› _ _ _ gives known
  refine Yields.leads ofSimple ignores ?_ _ _ _ gives known
  refine .read fun context => yields_ite ?_ yields_expressionStatement
  exact reports_arguments.bind fun _ =>
    (reports_mapM fun _ => reports_writtenAs).bind fun _ =>
    (reports_modifyMethod fun _ => ⟨rfl, rfl, rfl, rfl, rfl⟩).bind fun _ => .pure areSimple_nil

end

end ContractForge
