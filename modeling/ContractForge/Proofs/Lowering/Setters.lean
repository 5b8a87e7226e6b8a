import ContractForge.Proofs.Lowering.Hygiene
import ContractForge.Proofs.Text.Lines

/-!
# What setters store

The setter of a writable field copies its parameter into the state variable of the field.
The parameter is named after the field, and a parameter hides the state variable of its
name: a field with an underscore before a name in camel case gets a setter that copies the
parameter onto itself, and every other setter stores its argument (`setter_stores_iff`).
-/

namespace ContractForge

open Lower

/-! ### Storing an argument -/

/-- What a name in a function stands for. -/
inductive Referent where
  | parameter
  | stateVariable

/-- A parameter hides the state variable of its name. -/
def Function.referent (function : Function) (name : String) : Referent :=
  if name ∈ function.parameters.map Parameter.name then .parameter else .stateVariable

/-- The function does nothing but copy a parameter into the state variable. -/
def Function.Stores (function : Function) (name : String) : Prop :=
  ∃ source, function.body = [.set name source] ∧ function.referent source = .parameter ∧
    function.referent name = .stateVariable

/-! ### Names of parameters -/

/-- The name is an underscore before what follows its underscores, written in camel case. -/
def HidesItself (field : String) : Prop :=
  "_" ++ Name.camelCase (Text.dropLeading '_' field) = field

instance (field : String) : Decidable (HidesItself field) :=
  inferInstanceAs (Decidable (_ = _))

/-- A name that starts with an underscore is safe, and no other becomes one that does. -/
theorem safe_eq_self
    (isFirst : name.toList.head? = some '_' ∨ (Name.safe name).toList.head? = some '_') :
    Name.safe name = name := by
  have letters : (Name.reserved.all fun word => word.toList.head?.any (· != '_')) := by
    decide +kernel
  unfold Name.safe at isFirst ⊢
  split at isFirst
  · rename_i isReserved
    have isLetter := List.all_eq_true.mp letters name (List.contains_iff_mem.mp isReserved)
    cases chars : name.toList with
    | nil => simp [chars] at isLetter
    | cons => simp_all
  · rename_i notReserved
    exact if_neg notReserved

theorem head?_camelCase (bare : name.toList.head? ≠ some '_') :
    (Name.camelCase name).toList.head? ≠ some '_' := by
  have noMarks : name.toList.takeWhile (· == '_') = [] := by
    cases chars : name.toList with
    | nil => rfl
    | cons => simp_all
  simp only [Name.camelCase, noMarks]
  split
  · exact bare
  · rename_i first others isSplit
    obtain ⟨isPart, nonempty⟩ := List.mem_filter.mp (isSplit ▸ List.mem_cons_self)
    have noMark := Text.not_mem_of_mem_splitAt isPart
    rw [String.toList_ofList]
    cases first with
    | nil => contradiction
    | cons =>
      rintro ⟨⟩
      exact noMark List.mem_cons_self

theorem dropLeading_underscore (bare : name.toList.head? ≠ some '_') :
    Text.dropLeading '_' ("_" ++ name) = name := by
  rw [Text.dropLeading, ← String.toList_inj, String.toList_ofList, String.toList_append]
  cases chars : name.toList with
  | nil => rfl
  | cons => simp_all

/-- These names are an underscore before a name that is in camel case already. -/
theorem hidesItself_iff (field : String) :
    HidesItself field ↔ ∃ name, field = "_" ++ name ∧ name.toList.head? ≠ some '_' ∧
      Name.camelCase name = name := by
  constructor
  · intro hides
    have bare : (Text.dropLeading '_' field).toList.head? ≠ some '_' := by
      intro isHead
      have stops := List.head?_dropWhile_not (· == '_') field.toList
      rw [Text.dropLeading, String.toList_ofList] at isHead
      rw [isHead] at stops
      contradiction
    have isCamel := dropLeading_underscore (head?_camelCase bare)
    rw [hides] at isCamel
    exact ⟨_, hides.symm.trans (congrArg ("_" ++ ·) isCamel.symm), bare, isCamel.symm⟩
  · rintro ⟨name, rfl, bare, isCamel⟩
    rw [HidesItself, dropLeading_underscore bare, isCamel]

/-- The parameter of a setter has the name of the state variable exactly for these names. -/
theorem setterParameter_eq_safe_iff (field : String) :
    setterParameter field = Name.safe field ↔ HidesItself field := by
  constructor
  · intro same
    have isFirst : (Name.safe field).toList.head? = some '_' := by simp [← same, setterParameter]
    rwa [safe_eq_self (.inr isFirst)] at same
  · intro hides
    have isFirst : field.toList.head? = some '_' := by
      rw [← hides]
      simp
    rw [safe_eq_self (.inl isFirst)]
    exact hides

/-! ### Setters -/

theorem exists_of_fieldSetter {field : String} {line : Option Int} {before after : Context}
    {setter : Function} (gives : Gives (fieldSetter field line) before (some setter) after) :
    setter.parameters.map Parameter.name = [setterParameter field] ∧
      setter.body = [.set (Name.safe field) (setterParameter field)] := by
  have gives := gives.ofGet
  split at gives
  · obtain ⟨_, -⟩ := gives.ofPure
    contradiction
  obtain ⟨_, _, -, gives⟩ := gives.ofBind
  split at gives
  · obtain ⟨_, -⟩ := gives.ofPure
    contradiction
  · obtain ⟨isSetter, -⟩ := gives.ofPure
    cases isSetter
    exact ⟨rfl, rfl⟩

/-- A function that copies its parameter into a variable stores it unless the two have one name. -/
theorem stores_iff {function : Function} {parameter target : String}
    (takes : function.parameters.map Parameter.name = [parameter])
    (copies : function.body = [.set target parameter]) :
    function.Stores target ↔ parameter ≠ target := by
  constructor
  · rintro ⟨-, -, -, isState⟩ rfl
    simp [Function.referent, takes] at isState
  · intro apart
    exact ⟨parameter, copies, by simp [Function.referent, takes],
      by simp [Function.referent, takes, apart.symm]⟩

/-- A setter stores its argument in the state variable of its field, and its parameter has another
name, unless the field has an underscore before a name in camel case. -/
theorem setter_stores_iff {field : String} {line : Option Int} {before after : Context}
    {setter : Function} (gives : Gives (fieldSetter field line) before (some setter) after) :
    ∃ parameter, setter.parameters.map Parameter.name = [parameter] ∧
      setter.body = [.set (Name.safe field) parameter] ∧
      (parameter ≠ Name.safe field ↔ ¬ HidesItself field) ∧
      (setter.Stores (Name.safe field) ↔ ¬ HidesItself field) := by
  obtain ⟨takes, copies⟩ := exists_of_fieldSetter gives
  have apart := not_congr (setterParameter_eq_safe_iff field)
  exact ⟨_, takes, copies, apart, (stores_iff takes copies).trans apart⟩

/-- A contract with two numbers. -/
def shop : Context :=
  { contract := { stateVars := [(.text "max_fee", some .uint256), (.text "_fee", some .uint256)] } }

theorem shop_setter (field : String)
    (hasSetter : ((fieldSetter field none).result? shop).any (·.1.isSome)) :
    ∃ setter after, Gives (fieldSetter field none) shop (some setter) after := by
  obtain ⟨⟨_, after⟩, isResult, isSome⟩ := (Option.any_eq_true _ _).mp hasSetter
  obtain ⟨setter, rfl⟩ := Option.isSome_iff_exists.mp isSome
  exact ⟨setter, after, gives_of_result? isResult⟩

theorem shop_setter_stores_iff :
    ∃ setter after, Gives (fieldSetter "max_fee" none) shop (some setter) after ∧
      ∃ parameter, setter.parameters.map Parameter.name = [parameter] ∧
        setter.body = [.set (Name.safe "max_fee") parameter] ∧
        (parameter ≠ Name.safe "max_fee" ↔ ¬ HidesItself "max_fee") ∧
        (setter.Stores (Name.safe "max_fee") ↔ ¬ HidesItself "max_fee") := by
  obtain ⟨setter, after, gives⟩ := shop_setter "max_fee" (by decide)
  exact ⟨setter, after, gives, setter_stores_iff gives⟩

/-- The setter of a field with an underscore before its name stores nothing. -/
theorem shop_setter_not_stores :
    ∃ setter after, Gives (fieldSetter "_fee" none) shop (some setter) after ∧
      ¬ setter.Stores (Name.safe "_fee") := by
  obtain ⟨setter, after, gives⟩ := shop_setter "_fee" (by decide)
  obtain ⟨takes, copies⟩ := exists_of_fieldSetter gives
  refine ⟨setter, after, gives, fun stores => (stores_iff takes copies).mp stores ?_⟩
  exact (setterParameter_eq_safe_iff _).mpr (by decide)

end ContractForge
