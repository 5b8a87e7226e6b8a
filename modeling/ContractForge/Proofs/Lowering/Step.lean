import ContractForge.Lowering.Context

/-!
# Steps of lowering

`Gives` says that a step succeeds, with which value and in which context it
ends. The rules of this module take a step apart into the steps that it is put
together of.
-/

namespace ContractForge.Lower

variable {α β : Type} {before after : Context} {result : α}

/-- What a step comes to in a context, and the context after it. -/
def outcome (step : Lower α) (before : Context) : Except LowerError α × Context :=
  (ExceptT.run step).run before

theorem outcome_bind (step : Lower α) (next : α → Lower β) (before : Context) :
    outcome (step >>= next) before =
      match outcome step before with
      | (.ok value, middle) => outcome (next value) middle
      | (.error error, middle) => (.error error, middle) := by
  have unfolded : outcome (step >>= next) before =
      match (ExceptT.run step).run before with
      | (.ok value, middle) => (ExceptT.run (next value)).run middle
      | (.error error, middle) => (.error error, middle) := by
    rw [outcome, ExceptT.run_bind, StateT.run_bind]
    generalize (ExceptT.run step).run before = result
    obtain ⟨value, -⟩ := result
    cases value <;> rfl
  exact unfolded

/-- The step gives a value and leads from one context to another. -/
def Gives (step : Lower α) (before : Context) (value : α) (after : Context) : Prop :=
  outcome step before = (.ok value, after)

theorem gives_pure_iff {value result : α} :
    Gives (pure value) before result after ↔ result = value ∧ after = before := by
  have unfolded : outcome (pure value : Lower α) before = (.ok value, before) := rfl
  simp [Gives, unfolded, eq_comm]

theorem gives_pure : Gives (pure value) before value before :=
  gives_pure_iff.mpr ⟨rfl, rfl⟩

/-- Two steps in a row. -/
theorem gives_bind_iff {next : α → Lower β} {result : β} :
    Gives (step >>= next) before result after ↔
      ∃ value middle, Gives step before value middle ∧ Gives (next value) middle result after := by
  unfold Gives
  rw [outcome_bind]
  constructor
  · intro whole
    split at whole
    · rename_i value middle first
      exact ⟨value, middle, first, whole⟩
    · simp at whole
  · rintro ⟨_, _, first, second⟩
    rw [first]
    exact second

theorem Gives.bind {next : α → Lower β} {result : β} (first : Gives step before value middle)
    (second : Gives (next value) middle result after) : Gives (step >>= next) before result after :=
  gives_bind_iff.mpr ⟨value, middle, first, second⟩

theorem Gives.ofBind {next : α → Lower β} {result : β}
    (gives : Gives (step >>= next) before result after) :
    ∃ value middle, Gives step before value middle ∧ Gives (next value) middle result after :=
  gives_bind_iff.mp gives

theorem Gives.ofPure {value result : α} (gives : Gives (pure value) before result after) :
    result = value ∧ after = before :=
  gives_pure_iff.mp gives

theorem gives_map_iff {result : β} :
    Gives (change <$> step) before result after ↔
      ∃ value, Gives step before value after ∧ result = change value := by
  rw [← bind_pure_comp, gives_bind_iff]
  constructor
  · rintro ⟨value, _, first, second⟩
    obtain ⟨rfl, rfl⟩ := second.ofPure
    exact ⟨value, first, rfl⟩
  · rintro ⟨value, first, rfl⟩
    exact ⟨value, after, first, gives_pure⟩

theorem Gives.ofReturn {change : α → β} {result : β}
    (gives : Gives (do return change (← step)) before result after) :
    ∃ value, Gives step before value after ∧ result = change value :=
  gives_map_iff.mp (by rwa [← bind_pure_comp])

theorem not_gives_throw : ¬ Gives (throw error : Lower α) before result after := by
  have unfolded : outcome (throw error : Lower α) before = (.error error, before) := rfl
  simp [Gives, unfolded]

theorem gives_get_iff {before after result : Context} :
    Gives (get : Lower Context) before result after ↔ result = before ∧ after = before := by
  have unfolded : outcome (get : Lower Context) before = (.ok before, before) := rfl
  simp [Gives, unfolded, eq_comm]

theorem gives_asks_iff :
    Gives (asks question) before result after ↔ result = question before ∧ after = before := by
  have unfolded : outcome (asks question) before = (.ok (question before), before) := rfl
  simp [Gives, unfolded, eq_comm]

theorem Gives.ofGet {next : Context → Lower α} (gives : Gives (get >>= next) before result after) :
    Gives (next before) before result after := by
  obtain ⟨_, _, got, gives⟩ := gives.ofBind
  rwa [(gives_get_iff.mp got).1, (gives_get_iff.mp got).2] at gives

/-- What follows a question about the context. -/
theorem Gives.ofAsks {next : β → Lower α}
    (gives : Gives (asks question >>= next) before result after) :
    Gives (next (question before)) before result after := by
  obtain ⟨_, _, asked, gives⟩ := gives.ofBind
  rwa [(gives_asks_iff.mp asked).1, (gives_asks_iff.mp asked).2] at gives

theorem gives_modify_iff {result : PUnit} :
    Gives (modify change : Lower PUnit) before result after ↔ after = change before := by
  have unfolded : outcome (modify change : Lower PUnit) before = (.ok ⟨⟩, change before) := rfl
  simp [Gives, unfolded, eq_comm]

theorem gives_modifyGet_iff :
    Gives (modifyGet change : Lower α) before result after ↔ change before = (result, after) := by
  have unfolded : outcome (modifyGet change : Lower α) before =
      (.ok (change before).1, (change before).2) := rfl
  generalize change before = changed at unfolded ⊢
  obtain ⟨_, _⟩ := changed
  simp [Gives, unfolded]

theorem not_gives_reject
    : ¬ Gives (reject reason node : Lower α) before result after := by
  rintro gives
  obtain ⟨_, _, -, thrown⟩ := gives.ofBind
  exact not_gives_throw thrown

/-- What goes on was not rejected, so there was no reason to. -/
theorem Gives.notRejected [Decidable condition] {next : Unit → Lower α}
    (gives : Gives (if condition then reject reason node >>= next else next ()) before result
      after) : ¬ condition ∧ Gives (next ()) before result after := by
  split at gives
  · obtain ⟨_, _, rejected, -⟩ := gives.ofBind
    exact absurd rejected not_gives_reject
  · rename_i fine
    exact ⟨fine, gives⟩

theorem gives_part_iff :
    Gives (part answer) before result after ↔ answer = .ok result ∧ after = before := by
  cases answer with
  | ok =>
    rw [part, gives_pure_iff]
    simp [eq_comm]
  | error =>
    rw [part]
    simp [not_gives_throw]

/-- A question leaves the context as it is. -/
theorem gives_infer_iff :
    Gives (infer question) before result after ↔ question before = .ok result ∧ after = before := by
  rw [infer, gives_bind_iff]
  constructor
  · rintro ⟨_, _, got, answered⟩
    obtain ⟨rfl, rfl⟩ := gives_get_iff.mp got
    exact gives_part_iff.mp answered
  · intro answered
    exact ⟨before, before, gives_get_iff.mpr ⟨rfl, rfl⟩, gives_part_iff.mpr answered⟩

section

variable {question : Context → Except Malformed Bool} {yes no : Lower α} {before after : Context}
  {result : α}

theorem Gives.answeredYes (answer : question before = .ok true)
    (chosen : Gives yes before result after) :
    Gives (do if ← infer question then yes else no) before result after := by
  refine (gives_infer_iff.mpr ⟨answer, rfl⟩).bind ?_
  exact chosen

theorem Gives.answeredNo (answer : question before = .ok false)
    (chosen : Gives no before result after) :
    Gives (do if ← infer question then yes else no) before result after := by
  refine (gives_infer_iff.mpr ⟨answer, rfl⟩).bind ?_
  exact chosen

end

/-- A step in a block of its own: afterwards, the names from before it are back. -/
theorem Gives.ofBlock (gives : Gives (inBlock step) before result after) :
    ∃ ending, Gives step before result ending ∧ after = ending.leaveBlock before.block := by
  obtain ⟨_, _, asked, gives⟩ := gives.ofBind
  obtain ⟨rfl, rfl⟩ := gives_asks_iff.mp asked
  obtain ⟨_, ending, ofStep, gives⟩ := gives.ofBind
  obtain ⟨⟨⟩, _, left, returned⟩ := gives.ofBind
  obtain ⟨rfl, rfl⟩ := returned.ofPure
  exact ⟨ending, ofStep, gives_modify_iff.mp left⟩

end ContractForge.Lower

namespace ContractForge

open List

/-- A way to say that the value of a computation has a property, which goes along with computations
in a row. -/
structure Composes {m : Type → Type} [Monad m] (holds : {α : Type} → (α → Prop) → m α → Prop) :
    Prop where
  pure {α : Type} {property : α → Prop} {value : α} (ofValue : property value) :
    holds property (pure value)
  bind {α β : Type} {intermediate : α → Prop} {property : β → Prop} {step : m α} {next : α → m β}
    (first : holds intermediate step)
    (second : ∀ value, intermediate value → holds property (next value)) :
    holds property (step >>= next)

namespace Composes

variable {m : Type → Type} [Monad m] {holds : {α : Type} → (α → Prop) → m α → Prop}
  (composes : Composes holds) {α β : Type} {property : β → Prop} {values : List α}

include composes

theorem mapM [LawfulMonad m] (ofStep : ∀ value ∈ values, holds property (step value)) :
    holds (fun results => ∀ result ∈ results, property result) (values.mapM step) := by
  induction values with
  | nil =>
    exact composes.pure (by simp)
  | cons _ _ ih =>
    obtain ⟨ofFirst, ofRest⟩ := forall_mem_cons.mp ofStep
    rw [mapM_cons]
    refine composes.bind ofFirst fun first isFirst =>
      composes.bind (ih ofRest) fun _ areOthers => ?_
    exact composes.pure (forall_mem_cons.mpr ⟨isFirst, areOthers⟩)

theorem filterMapM [LawfulMonad m]
    (ofStep : ∀ value ∈ values, holds (fun found => ∀ result ∈ found, property result)
      (step value)) :
    holds (fun results => ∀ result ∈ results, property result) (values.filterMapM step) := by
  induction values with
  | nil =>
    exact composes.pure (by simp)
  | cons _ _ ih =>
    obtain ⟨ofFirst, ofRest⟩ := forall_mem_cons.mp ofStep
    rw [filterMapM_cons]
    refine composes.bind ofFirst fun found isFound => ?_
    cases found with
    | none => exact ih ofRest
    | some first =>
      refine composes.bind (ih ofRest) fun _ areOthers => ?_
      exact composes.pure (forall_mem_cons.mpr ⟨isFound first rfl, areOthers⟩)

/-- A step that is taken for one value after the other, each time with the last result. -/
theorem foldlM (isStart : property start)
    (ofStep : ∀ found, property found → ∀ value ∈ values, holds property (step found value)) :
    holds property (values.foldlM step start) := by
  induction values generalizing start with
  | nil => exact composes.pure isStart
  | cons value _ ih =>
    refine composes.bind (ofStep start isStart value mem_cons_self) fun found isFound => ?_
    exact ih isFound fun other isOther value mem =>
      ofStep other isOther value (mem_cons_of_mem _ mem)

end Composes

end ContractForge
