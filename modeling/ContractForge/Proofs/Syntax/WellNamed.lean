import ContractForge.Proofs.Syntax.Reading

/-!
# Names in trees that were read

A tree need not be one that was read from a text, and then a name in it need not
be a text. In a tree that was read, the payload of every bare name is a text, and
the parameters of loops are bare names (`Node.Fits.wellNamed`).
-/

namespace ContractForge

variable {node program : Node}

/-- A step and what follows it succeed together. -/
theorem ok_of_bind {ε α β : Type} {step : Except ε α} {next : α → Except ε β} {result : β}
    (isOk : (step >>= next) = .ok result) :
    ∃ value, step = .ok value ∧ next value = .ok result := by
  cases step with
  | error => contradiction
  | ok value => exact ⟨value, rfl, isOk⟩

namespace Payload

def IsText (payload : Payload) : Prop :=
  ∃ text, payload = .text text

/-- A name that may be chosen as the second of texts is a text. -/
theorem isText_second {params : List Payload} {isChosen : Prop} [Decidable isChosen]
    (areTexts : ∀ param ∈ params, param.IsText) :
    ∀ param ∈ (if isChosen then params[1]? else none), param.IsText := by
  intro param isSecond
  split at isSecond
  · exact areTexts param (List.mem_of_getElem? isSecond)
  · contradiction

end Payload

namespace Node

/-- The node has a role. Then all names in the tree are texts. -/
def WellNamed (node : Node) : Prop :=
  ∃ role, node.Fits role

theorem Fits.wellNamed (fits : node.Fits role) : node.WellNamed :=
  ⟨role, fits⟩

theorem WellNamed.isText (named : node.WellNamed) (isName : node.kind = .identifier) :
    node.payload.IsText := by
  obtain ⟨_, fits⟩ := named
  have parts := fits.parts
  unfold Parts at parts
  rw [isName] at parts
  obtain ⟨name, -, isText⟩ := parts
  exact ⟨name, isText⟩

theorem WellNamed.loopParameters (named : node.WellNamed)
    (isLoop : node.kind = .loop) (children : node.children = [subject, params, body]) :
    ∀ param ∈ params.children, param.payload.IsText := by
  obtain ⟨_, fits⟩ := named
  have parts := fits.parts
  unfold Parts at parts
  rw [isLoop] at parts
  obtain ⟨-, -, ⟨_, _, _, same, -, paramsFit, -⟩ | ⟨_, _, same, -⟩⟩ := parts
  · cases children.symm.trans same
    cases paramsFit with
    | blockParams areNames =>
      intro param isParam
      cases areNames param isParam
      exact ⟨_, rfl⟩
  · cases children.symm.trans same

def AllNamed (nodes : List Node) : Prop :=
  ∀ node ∈ nodes, node.WellNamed

@[simp]
theorem allNamed_cons : AllNamed (node :: rest) ↔ node.WellNamed ∧ AllNamed rest :=
  List.forall_mem_cons

@[simp]
theorem allNamed_append : AllNamed (first ++ second) ↔ AllNamed first ∧ AllNamed second :=
  List.forall_mem_append

theorem WellNamed.children (named : node.WellNamed) : AllNamed node.children := by
  obtain ⟨_, fits⟩ := named
  intro child isChild
  obtain inner | ⟨-, parts⟩ := fits.children
  · obtain ⟨_, childFits, -⟩ := inner child isChild
    exact childFits.wellNamed
  · exact (parts child isChild).wellNamed

end Node

/-- Every node of a tree that was read from a text has a role. -/
theorem exists_fits_of_parse (read : parse source = .ok program)
    (inProgram : node ∈ program.walk) : ∃ role, node.Fits role := by
  have fits : ReadsAs _ source (parse source) := readsAs_parseWithin _ source
  rw [read] at fits
  exact Node.Fits.walk fits node inProgram

end ContractForge
