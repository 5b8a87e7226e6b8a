import ContractForge.Proofs.Lowering.LocalNames
import ContractForge.Proofs.Lowering.MethodScope

/-!
# Names in methods

The parameters of a method and the variables that its body declares are admitted by the
guard of its class (`upholds_lowerMethod`). So they keep apart from all fields, and from
the functions of all methods as long as their names are not made up.
-/

namespace ContractForge

open Lower Node Statement List

variable {replacements : Replacements}

/-- The names that a function declares: its parameters and the variables of its body. -/
def Function.ownNames (function : Function) : List String :=
  function.parameters.map Parameter.name ++ localsAmong function.body

/-- The function stands for the method, and declares admitted names only. -/
structure Guard.IsFunctionOf (guard : Guard) (method : String) (function : Function) : Prop where
  name : function.name = if method = "initialize" then "constructor" else
    (guard.methods.get? method).getD (Name.camelCase method)
  admits : ∀ name ∈ function.ownNames, guard.Admits name

variable {guard : Guard}

/-! ### Parameters -/

theorem upholds_declareParameters (areTexts : ∀ param ∈ given, param.2.1.IsText) :
    Upholds guard.Holds (fun parameters => ∀ name ∈ parameters.map Parameter.name,
      guard.Admits name) (declareParameters method types given) := by
  induction given with
  | nil => exact upholds_pure (by simp)
  | cons _ _ ih =>
    obtain ⟨isText, restAreTexts⟩ := forall_mem_cons.mp areTexts
    unfold declareParameters
    refine upholds_guard (maintains_report (ignoresLog_holds guard) _) ?_
    refine (upholds_declareLocal isText).andThen fun generated isAdmitted => ?_
    obtain ⟨_, rfl, admits⟩ := isAdmitted
    refine Upholds.bind (maintains_modify fun context holds => ?_) fun _ => ?_
    · exact { holds with }
    · refine (ih restAreTexts).andThen fun others admitsOthers => ?_
      exact upholds_pure (forall_mem_cons.mpr ⟨admits, admitsOthers⟩)

/-! ### Bodies -/

/-- Statements that take the place of others declare no variables. -/
def Replacements.AreSilent (replacements : Replacements) : Prop :=
  ∀ replacement ∈ replacements, AreSimple replacement.2

theorem minds_methodStatements (silent : replacements.AreSilent) (returnsLast : Bool) (place : Nat)
    (fit : ∀ node ∈ nodes, node.Fits .statement) :
    Minds guard (methodStatements replacements returnsLast place nodes) := by
  induction nodes generalizing place with
  | nil => exact upholds_pure guard.admitsAll_nil
  | cons node rest ih =>
    obtain ⟨nodeFits, restFit⟩ := forall_mem_cons.mp fit
    have later {lowered : List Statement} (admits : guard.AdmitsAll lowered) :
        Minds guard (do
          let others ← methodStatements replacements returnsLast (place + 1) rest
          return lowered ++ others) :=
      (ih (place + 1) restFit).andThen fun others admitsOthers =>
        upholds_pure (Guard.admitsAll_append.mpr ⟨admits, admitsOthers⟩)
    unfold methodStatements
    split
    · rename_i replacement isReplaced
      obtain ⟨_, _, rfl, -⟩ := lookup_eq_some_iff.mp isReplaced
      refine later ?_
      simp [Guard.AdmitsAll, localsAmong_of_areSimple (silent (place, replacement) (by simp))]
    · refine upholds_ite ?_ ((minds_statement guard node nodeFits.wellNamed).andThen fun _ => later)
      refine (upholds_infer _).andThen fun changed isChanged => ?_
      obtain ⟨context, -, returned⟩ := isChanged
      have changedFits := (answers_returning context node nodeFits).holds returned
      exact (minds_statement guard changed changedFits.wellNamed).andThen fun _ => later

/-- The variables that are declared at the beginning of a method. -/
theorem Guard.Holds.admitsAll_declarations (holds : guard.Holds context) :
    guard.AdmitsAll (context.method.hoistedDeclarations.map fun (name, type) =>
      Statement.declareOnly type name) := by
  have admitted := holds.declarations
  generalize context.method.hoistedDeclarations = declarations at admitted
  induction declarations with
  | nil => exact guard.admitsAll_nil
  | cons _ _ ih =>
    obtain ⟨isAdmitted, restAdmitted⟩ := forall_mem_cons.mp admitted
    exact forall_mem_cons.mpr ⟨isAdmitted, ih restAdmitted⟩

theorem upholds_lowerMethod (isMethod : entry.node.IsMethod) (silent : replacements.AreSilent) :
    Upholds guard.Holds (guard.IsFunctionOf entry.name) (lowerMethod entry replacements) := by
  have ignores := ignoresNotes_holds guard
  refine Upholds.bind (maintains_modify fun context holds => ?_) fun _ => ?_
  · exact ⟨holds.fields, holds.methods, holds.events, by simp [Context.enterMethod, Context.atLine]⟩
  refine (upholds_parameterTypes ignores isMethod).andThen fun types areTexts => ?_
  refine (maintains_part _).bind fun params => ?_
  refine (upholds_declareParameters
    fun param mem => areTexts _ (of_mem_zip mem).2).andThen fun parameters admits => ?_
  refine (upholds_part _).andThen fun body isBody => (maintains_part _).bind fun hoisted => ?_
  have bodyFits := (answers_methodBody isMethod).holds isBody
  refine Upholds.bind (maintains_modifyMethod fun _ => rfl) fun _ => ?_
  refine (minds_methodStatements silent _ 0 bodyFits.statements).andThen fun lowered ofLowered => ?_
  refine upholds_get.andThen fun context holds => maintains_get.bind fun later => ?_
  have ofBody := Guard.admitsAll_append.mpr ⟨holds.admitsAll_declarations, ofLowered⟩
  have admitsAll := forall_mem_append.mpr ⟨admits, ofBody⟩
  refine upholds_guard (reports_noteUnwritable.upholds ignores) ?_
  split
  · rename_i isConstructor
    exact upholds_pure ⟨by simp [beq_iff_eq.mp isConstructor], admitsAll⟩
  · rename_i noConstructor
    have otherName : entry.name ≠ "initialize" := by simpa using noConstructor
    refine upholds_get.andThen fun known knownHolds => ?_
    have given (returns : Option StaticType) (visibility mutability : String)
        (arguments : Option (List String)) (line : Option Int) : guard.IsFunctionOf entry.name
          { name := (known.contract.methods.get? entry.name).getD (Name.camelCase entry.name)
            parameters, visibility, mutability, returnType := returns
            body := (context.method.hoistedDeclarations.map fun (name, type) =>
              Statement.declareOnly type name) ++ lowered
            baseArguments := arguments, line } :=
      ⟨by rw [if_neg otherName, knownHolds.methods], admitsAll⟩
    refine (reports_returnType.upholds ignores).bind fun type => ?_
    split
    · refine Upholds.bind (maintains_modify fun context holds => ?_) fun _ =>
        upholds_pure (given _ _ _ _ _)
      exact { holds with }
    · exact upholds_pure (given _ _ _ _ _)

end ContractForge
