import ContractForge.Lowering.Program
import ContractForge.Proofs.Lowering.SafeField

/-!
# Programs that were read are lowered safely

Whatever the text of a program, its tree is lowered to a text or rejected with a reason
(`generateProgram_settles`). Each method of a class is in the order in which the methods
are lowered, so each of them finds its function, and the writable fields are among the
ones that have types, so each of them can get a setter.
-/

namespace ContractForge

open Lower List

variable {order entries methods : List MethodEntry} {role : Role} {α : Type} {labels : List Payload}
  {node target value body program : Node} {members : ClassMembers} {entry : MethodEntry}
  {fields : FieldTable} (contract : Contract)

/-! ### Reading the body -/

/-- The methods are methods, and the fields with accessors are named by texts. -/
structure ClassMembers.Sound (members : ClassMembers) : Prop where
  methods : ∀ member ∈ members.methods, member.node.IsMethod
  readers : ∀ names ∈ members.readers, ∀ name ∈ names, name.IsText
  writers : ∀ writer ∈ members.writers, writer.1.IsText

theorem Node.Fits.pathText (fits : node.Fits .constant) : node.payload.IsText := by
  cases fits
  exact ⟨_, rfl⟩

theorem Node.Fits.wordText (fits : node.Fits .symbol) : node.payload.IsText := by
  cases fits
  exact ⟨_, rfl⟩

theorem safe_declareConstant (node : Node)
    (targetFits : target.Fits .operand) (isConstant : target.kind = .constant)
    (valueFits : value.Fits .operand) :
    IsSafe labels (declareConstant contract node target value) := by
  have ofName : Answered target.textPayload := by
    have parts := targetFits.parts
    rw [Node.Parts, isConstant] at parts
    obtain ⟨name, -, isName⟩ := parts
    exact answers_asText ⟨name, isName⟩
  refine (safe_part ofName).bind fun name _ => safe_guard safe_reject ?_
  split
  · rename_i isEnumeration
    simp only [Bool.and_eq_true, all_eq_true, beq_iff_eq] at isEnumeration
    obtain ⟨⟨isArray, -⟩, areSymbols⟩ := isEnumeration
    have parts := valueFits.parts
    rw [Node.Parts, isArray] at parts
    have ofSymbols := answered_mapM fun child mem => by
        have childParts := (parts child mem).parts
        rw [Node.Parts, areSymbols child mem] at childParts
        exact answers_asText childParts
    refine (safe_part ofSymbols).bind fun symbols _ => ?_
    refine Safe.bind (safe_modifyContract ?_) fun _ _ => isSafe_pure
    exact fun _ => rfl
  · refine safe_guard safe_reject ?_
    refine (safe_inferType valueFits).bind fun found _ => ?_
    cases found with
    | none => exact safe_reject
    | some =>
      refine (safe_expression valueFits).bind fun text _ => ?_
      refine Safe.bind (safe_modifyContract ?_) fun _ _ => ?_
      · exact fun _ => rfl
      · exact (safe_hasText valueFits).bind fun written _ => isSafe_pure

theorem ClassMembers.Sound.readable (sound : members.Sound) :
    ∀ name ∈ members.readers.getD [], name.IsText := by
  cases isReaders : members.readers with
  | none => simp
  | some names => exact sound.readers names isReaders

theorem ClassMembers.Sound.declareAccessors (sound : members.Sound)
    (areTexts : ∀ child ∈ node.children, child.payload.IsText) :
    (declareAccessors members node).Sound := by
  have areNames := forall_mem_map.mpr areTexts
  have areWriters : ∀ writer ∈ (node.children.map Node.payload).map fun field => (field, node.line),
      writer.1.IsText :=
    forall_mem_map.mpr areNames
  have withReaders : ClassMembers.Sound
      { members with
        readers := some (members.readers.getD [] ++ node.children.map Node.payload) } :=
    { sound with readers := by simpa using forall_mem_append.mpr ⟨sound.readable, areNames⟩ }
  unfold ContractForge.declareAccessors
  dsimp only
  split
  · split
    · exact { withReaders with writers := forall_mem_append.mpr ⟨sound.writers, areWriters⟩ }
    · exact { sound with writers := forall_mem_append.mpr ⟨sound.writers, areWriters⟩ }
  · split
    · exact withReaders
    · exact sound

theorem ClassMembers.Sound.noteMarker (sound : members.Sound)
    (marker : Payload) : (noteMarker members marker).Sound := by
  unfold ContractForge.noteMarker
  split
  · exact sound
  · split
    all_goals exact { sound with }

theorem safe_readMember (sound : members.Sound)
    (fits : node.Fits .statement) : Safe labels ClassMembers.Sound (readMember members node) := by
  have parts := fits.parts
  have isMethod : node.kind = .methodDef → node.IsMethod := fun isDefinition =>
    ⟨isDefinition, _, fits⟩
  obtain ⟨kind, _, line, column, _⟩ := node
  cases kind
  case methodDef =>
    exact safe_pure { sound with
      methods := forall_mem_append.mpr ⟨sound.methods, by simpa using isMethod rfl⟩ }
  case marker => exact safe_pure (sound.noteMarker _)
  case inclusion =>
    obtain ⟨path, rfl, pathFits⟩ := parts
    have ofPath : Answered path.textPayload := answers_asText pathFits.pathText
    exact (safe_part ofPath).bind fun _ _ => safe_pure { sound with }
  case accessor =>
    exact safe_pure (sound.declareAccessors fun child mem => (parts child mem).wordText)
  case assignment =>
    obtain ⟨op, -, target, value, rfl, rfl, -, targetFits, valueFits⟩ := parts
    have ofTarget : Answers (· = target) (Node.childAt ⟨.assignment, .text op, line, column,
        [target, value]⟩ 0) := answers_pure rfl
    refine (safe_part ofTarget).bind fun found same => ?_
    subst same
    split
    · exact safe_report.bind fun _ _ => safe_pure sound
    · rename_i isConstant
      have isConstant : found.kind = .constant := by simpa using isConstant
      refine (safe_declareConstant _ _ targetFits isConstant valueFits).bind fun _ _ => ?_
      exact safe_pure { sound with }
  all_goals exact safe_report.bind fun _ _ => safe_pure sound

/-! ### Methods -/

def AreMethods (entries : List MethodEntry) : Prop :=
  ∀ entry ∈ entries, entry.node.IsMethod

theorem answers_namedMethods {members : List MethodMember}
    (areMethods : ∀ mem ∈ members, mem.node.IsMethod) :
    Answers AreMethods (namedMethods members) := by
  have ofNames :=
    composes_answers.mapM fun mem isMember => answers_methodName (areMethods mem isMember)
  refine ofNames.bind fun names areTexts => composes_answers.mapM fun entry isEntry => ?_
  obtain ⟨name, mem⟩ := entry
  obtain ⟨isName, isMember⟩ := of_mem_zip isEntry
  refine (answers_spelled (areTexts name isName)).bind fun _ _ => answers_pure ?_
  exact areMethods mem isMember

theorem safe_dropRedefined (areMethods : AreMethods entries) :
    Safe labels AreMethods (dropRedefined entries) := by
  induction entries with
  | nil => exact safe_pure areMethods
  | cons _ _ ih =>
    obtain ⟨ofEntry, ofRest⟩ := forall_mem_cons.mp areMethods
    refine safe_ite ?_ ?_
    · exact safe_report.bind fun _ _ => ih ofRest
    · exact (ih ofRest).bind fun _ areKept =>
        safe_pure (forall_mem_cons.mpr ⟨ofEntry, areKept⟩)

theorem answered_calledName? (fits : node.Fits role) : Answered (calledName? node) := by
  have parts := fits.parts
  obtain ⟨kind, _, _, _, _⟩ := node
  cases kind
  case methodCall =>
    obtain ⟨_, -, _, _, _, rfl, rfl, -⟩ := parts
    exact answered_pure
  all_goals exact answered_pure

theorem answers_callees (areMethods : AreMethods methods) (isMethod : entry.node.IsMethod) :
    Answers AreMethods (callees methods entry) := by
  refine (answers_methodBody isMethod).bind fun body bodyFits => ?_
  have ofNames := answered_filterMapM fun node isNode => by
      obtain ⟨_, fits⟩ := bodyFits.walk node isNode
      exact answered_calledName? fits
  refine ofNames.bind fun names _ => answers_pure fun callee isCallee => ?_
  obtain ⟨_, -, found⟩ := mem_filterMap.mp isCallee
  exact areMethods callee (mem_of_find?_eq_some found)

/-- A method that is not on the way is put into the order, and the order only grows. -/
theorem answers_placeMethod (areMethods : AreMethods methods) (way : List String)
    (areOrdered : AreMethods order) (isMethod : entry.node.IsMethod) (depth : Nat) :
    Answers (fun placed => AreMethods placed ∧ order ⊆ placed ∧
        (0 < depth → entry.name ∉ way → entry.name ∈ placed.map MethodEntry.name))
      (placeMethod methods way order entry depth) := by
  induction depth generalizing way order entry with
  | zero => exact answers_pure ⟨areOrdered, Subset.refl _, by simp⟩
  | succ depth ih =>
    unfold placeMethod
    split
    · rename_i isKnown
      refine answers_pure ⟨areOrdered, Subset.refl _, fun _ isNew => ?_⟩
      simp only [Bool.or_eq_true, any_eq_true, beq_iff_eq, contains_iff_mem] at isKnown
      obtain ⟨placed, isPlaced, same⟩ | onWay := isKnown
      · exact mem_map.mpr ⟨placed, isPlaced, same⟩
      · exact absurd onWay isNew
    · refine (answers_callees areMethods isMethod).bind fun called areCalled => ?_
      have ofCallees : Answers (fun placed => AreMethods placed ∧ order ⊆ placed)
          (called.foldlM (fun order callee =>
            placeMethod methods (entry.name :: way) order callee depth) order) := by
        refine composes_answers.foldlM ⟨areOrdered, Subset.refl _⟩
          fun found holds callee isCallee => ?_
        refine (ih _ holds.1 (areCalled callee isCallee)).mono fun placed grown => ?_
        exact ⟨grown.1, Subset.trans holds.2 grown.2.1⟩
      refine ofCallees.bind fun placed holds => answers_pure ⟨?_, ?_, fun _ _ => ?_⟩
      · exact forall_mem_append.mpr ⟨holds.1, by simpa using isMethod⟩
      · exact Subset.trans holds.2 (subset_append_left _ _)
      · simp

theorem answers_placeAll (areMethods : AreMethods methods)
    (areEntries : AreMethods entries) (areOrdered : AreMethods order) :
    Answers (fun placed => AreMethods placed ∧ order ⊆ placed ∧
        ∀ entry ∈ entries, entry.name ∈ placed.map MethodEntry.name)
      (entries.foldlM (fun order entry =>
        placeMethod methods [] order entry (methods.length + 1)) order) := by
  induction entries generalizing order with
  | nil => exact answers_pure ⟨areOrdered, Subset.refl _, by simp⟩
  | cons _ _ ih =>
    obtain ⟨isMethod, areRest⟩ := forall_mem_cons.mp areEntries
    refine (answers_placeMethod areMethods [] areOrdered isMethod _).bind fun placed holds => ?_
    obtain ⟨arePlaced, grown, isPlaced⟩ := holds
    refine (ih areRest arePlaced).mono fun final holds => ?_
    obtain ⟨areFinal, grownOn, restPlaced⟩ := holds
    refine ⟨areFinal, Subset.trans grown grownOn, forall_mem_cons.mpr ⟨?_, restPlaced⟩⟩
    exact map_subset _ grownOn (isPlaced (by omega) (by simp))

theorem answers_buildOrder (areMethods : AreMethods methods) :
    Answers (fun order => AreMethods order ∧
      ∀ entry ∈ methods, entry.name ∈ order.map MethodEntry.name) (buildOrder methods) :=
  (answers_placeAll areMethods areMethods (by simp [AreMethods])).mono fun _ holds =>
    ⟨holds.1, holds.2.2⟩

/-- The table of lowered methods has the names of the order. -/
theorem safe_lowerMethods (areMethods : AreMethods order) :
    Safe labels (fun lowered => lowered.names = order.map MethodEntry.name)
      (lowerMethods replacements order) := by
  induction order with
  | nil => exact safe_pure rfl
  | cons _ _ ih =>
    obtain ⟨isMethod, areRest⟩ := forall_mem_cons.mp areMethods
    refine (safe_lowerMethod isMethod _).bind fun function _ => ?_
    refine (ih areRest).bind fun lowered areNames => safe_pure ?_
    rw [map_cons, ← areNames]
    rfl

theorem safe_placeFunctions (found : ∀ entry ∈ entries, entry.name ∈ lowered.names) :
    IsSafe labels (placeFunctions contract lowered entries) := by
  induction entries generalizing contract with
  | nil => exact isSafe_pure
  | cons _ _ ih =>
    obtain ⟨isFound, restFound⟩ := forall_mem_cons.mp found
    obtain ⟨_, isFunction⟩ :=
      Option.isSome_iff_exists.mp (Table.has_iff_mem_names.mpr isFound)
    unfold placeFunctions
    rw [isFunction]
    refine safe_ite (safe_guard safe_report ?_) ?_
    all_goals exact ih _ restFound

theorem answered_orderedEvents
    (areMethods : AreMethods methods) : Answered (orderedEvents events methods) := by
  have ofBodies := composes_answers.mapM fun entry isEntry =>
    answers_methodBody (areMethods entry isEntry)
  refine ofBodies.bind fun bodies bodiesFit => ?_
  refine Answers.bind (answered_filterMapM fun node isNode => ?_) fun _ _ => answered_pure
  obtain ⟨body, isBody, isCall⟩ := mem_flatMap.mp (mem_of_mem_filter isNode)
  obtain ⟨_, fits⟩ := (bodiesFit body isBody).walk node (mem_of_mem_filter isCall)
  exact answered_eventName? fits.callArgs

/-! ### Fields with accessors -/

theorem mem_of_mem_eraseDups [BEq α] {value : α} {values : List α}
    (mem : value ∈ values.eraseDups) : value ∈ values := by
  match values with
  | [] => exact mem
  | first :: rest =>
    rw [eraseDups_cons] at mem
    obtain isFirst | later := mem_cons.mp mem
    · exact mem_cons.mpr (.inl isFirst)
    · exact mem_cons_of_mem _ (mem_of_mem_filter (mem_of_mem_eraseDups later))
termination_by values.length
decreasing_by exact Nat.lt_succ_of_le (length_filter_le _ _)

theorem answers_sortedNames (areTexts : ∀ name ∈ names, name.IsText) :
    Answers (fun sorted => ∀ name ∈ sorted, name.IsText) (sortedNames names) := by
  have areDistinct : ∀ name ∈ names.eraseDups, name.IsText :=
    fun name mem => areTexts name (mem_of_mem_eraseDups mem)
  refine answers_ite (answers_pure areDistinct) ?_
  have ofTexts := answered_mapM fun name mem => answers_spelled (areDistinct name mem)
  refine ofTexts.bind fun texts _ => answers_pure ?_
  exact forall_mem_map.mpr fun text _ => ⟨text, rfl⟩

theorem Payload.IsText.eq_of_isSame {first second : Payload} (isFirst : first.IsText)
    (isSecond : second.IsText) (same : first == second) : first = second := by
  obtain ⟨first, rfl⟩ := isFirst
  obtain ⟨second, rfl⟩ := isSecond
  have sameKey : Key.text first = Key.text second := eq_of_beq same
  cases sameKey
  rfl

/-- Fields are added unless they are there already. -/
theorem FieldTable.Sound.addAll (sound : fields.Sound) (usageOf : α → FieldUsage) {values : List α}
    (ofUsage : ∀ value ∈ values, (usageOf value).Sound) :
    let all := values.foldl (fun (fields : FieldTable) value =>
      if (fields.usage? (usageOf value).label).isSome then fields
      else fields ++ [usageOf value]) fields
    all.Sound ∧ fields ⊆ all ∧ ∀ value ∈ values,
      (usageOf value).label ∈ all.map FieldUsage.label := by
  induction values generalizing fields with
  | nil => exact ⟨sound, Subset.refl _, by simp⟩
  | cons _ _ ih =>
    obtain ⟨ofFirst, ofRest⟩ := forall_mem_cons.mp ofUsage
    rw [foldl_cons]
    split
    · rename_i isThere
      obtain ⟨ofAll, grown, covered⟩ := ih sound ofRest
      refine ⟨ofAll, grown, forall_mem_cons.mpr ⟨?_, covered⟩⟩
      obtain ⟨usage, isUsage, same⟩ := find?_isSome.mp isThere
      rw [← (sound usage isUsage).label.eq_of_isSame ofFirst.label same]
      exact mem_map_of_mem (grown isUsage)
    · have added := forall_mem_append.mpr ⟨sound, forall_mem_singleton.mpr ofFirst⟩
      obtain ⟨ofAll, grown, covered⟩ := ih added ofRest
      refine ⟨ofAll, Subset.trans (subset_append_left _ _) grown,
        forall_mem_cons.mpr ⟨mem_map_of_mem (grown ?_), covered⟩⟩
      simp

/-- The fields are sound, and the writable ones are among them. -/
theorem answers_withAccessorFields (ofFields : fields.Sound) (sound : members.Sound) :
    Answers (fun all => all.Sound ∧ ∀ writer ∈ members.writers,
      writer.1 ∈ all.map FieldUsage.label) (withAccessorFields fields members line) := by
  obtain ⟨ofWritten, -, areWritten⟩ := ofFields.addAll
    (fun writer : Payload × Option Int => { label := writer.1, line := writer.2, assigned := true })
    fun writer isWriter => FieldUsage.sound_of_label (sound.writers writer isWriter) _ _
  refine (answers_sortedNames sound.readable).bind fun readable areTexts => answers_pure ?_
  obtain ⟨ofAll, grown, -⟩ := ofWritten.addAll (fun label => { label, line })
    fun label isLabel => FieldUsage.sound_of_label (areTexts label isLabel) _ _
  exact ⟨ofAll, fun writer isWriter => map_subset _ grown (areWritten writer isWriter)⟩

/-! ### Classes -/

theorem answers_classBody (fits : node.Fits role)
    (isClass : node.kind = .classDef ∨ node.kind = .moduleDef) :
    Answers (Node.Fits .body) node.classBody := by
  have parts := fits.parts
  unfold Node.Parts at parts
  obtain isClass | isModule := isClass
  · rw [isClass] at parts
    obtain ⟨_, body, _, isChildren, -, -, bodyFits⟩ := parts
    exact ⟨body, by simp [Node.classBody, isChildren, getLast?_cons], bodyFits⟩
  · rw [isModule] at parts
    obtain ⟨_, body, isChildren, -, bodyFits⟩ := parts
    exact ⟨body, by simp [Node.classBody, isChildren], bodyFits⟩

theorem className?_isText (fits : node.Fits role)
    (isClass : node.kind = .classDef ∨ node.kind = .moduleDef) :
    ∀ path ∈ node.className?, path.IsText := by
  have named : ∃ name rest, node.children = name :: rest ∧ name.Fits .constant := by
    have parts := fits.parts
    unfold Node.Parts at parts
    obtain isClass | isModule := isClass
    · rw [isClass] at parts
      obtain ⟨name, _, _, isChildren, nameFits, -⟩ := parts
      exact ⟨name, _, isChildren, nameFits⟩
    · rw [isModule] at parts
      obtain ⟨name, _, isChildren, nameFits, -⟩ := parts
      exact ⟨name, _, isChildren, nameFits⟩
  obtain ⟨_, _, isChildren, nameFits⟩ := named
  intro _ isPath
  rw [Node.className?, isChildren] at isPath
  simp only [Option.mem_def, Option.ite_none_right_eq_some, Option.some.injEq] at isPath
  rw [← isPath.2]
  exact nameFits.pathText

theorem classParent?_isText (fits : node.Fits role) :
    ∀ parent ∈ node.classParent?, parent.IsText := by
  intro _ isPath
  have parts := fits.parts
  unfold Node.classParent? at isPath
  split at isPath
  · cases isPath
  · rename_i isClass isChildren
    cases isPath
    rw [Node.Parts, isClass] at parts
    obtain ⟨_, _, found, isParts, -, foundFits, -⟩ := parts
    cases found with
    | none => simp [isChildren] at isParts
    | some found =>
      simp only [isChildren, Option.toList_some, singleton_append, List.cons.injEq] at isParts
      rw [isParts.2.1]
      exact (foundFits found rfl).pathText
  · cases isPath

theorem safe_readMembers (bodyFits : body.Fits .body) :
    Safe labels ClassMembers.Sound (body.children.foldlM readMember { contract }) := by
  cases bodyFits with
  | body statementsFit =>
    refine composes_safe.foldlM ⟨by simp, by simp, by simp⟩ fun members sound node isNode => ?_
    exact safe_readMember sound (statementsFit node isNode)

/-- The generated names of the methods are made known. -/
abbrev noteMethods (methods : List MethodEntry) : Lower PUnit :=
  forIn methods PUnit.unit fun entry _ =>
    if entry.name != "initialize" then do
      modifyContract fun scope =>
        { scope with methods := scope.methods.put entry.name (foreignName entry.name) }
      pure (.yield PUnit.unit)
    else pure (.yield PUnit.unit)

theorem safe_noteMethods (methods : List MethodEntry) : IsSafe labels (noteMethods methods) := by
  refine Settles.mono (settles_forIn (fun _ => Context.Steady labels) ?_ [])
    (fun _ steady => steady)
    fun _ _ steady => ⟨trivial, steady⟩
  intro _ entry _
  have ofChange : IsSafe labels (modifyContract fun scope =>
      { scope with methods := scope.methods.put entry.name (foreignName entry.name) }) :=
    safe_modifyContract fun _ => rfl
  refine settles_ite (fun _ => ?_) fun _ => settles_pure fun _ steady => ⟨rfl, steady⟩
  exact ofChange.andThen fun _ _ => settles_pure fun _ steady => ⟨rfl, steady⟩

/-- A new contract starts with nothing known. -/
theorem safe_enterContract :
    IsSafe [] (modify fun context => context.enterContract.atLine line : Lower PUnit) := by
  refine safe_modify (fun _ _ => ⟨rfl, rfl⟩) fun context steady =>
    ⟨?_, ?_, steady.writable, by simp⟩
  all_goals simp [Context.enterContract, Context.atLine]

/-- A class is lowered or rejected. -/
theorem safe_lowerClass (fits : node.Fits role)
    (isClass : node.kind = .classDef ∨ node.kind = .moduleDef) : IsSafe [] (lowerClass node) := by
  unfold lowerClass
  split
  · rename_i path isPath
    have ofPath := className?_isText fits isClass path isPath
    refine (safe_part (answers_asText ofPath)).bind fun _ _ => ?_
    refine safe_enterContract.bind fun _ _ => ?_
    have ofParents := answered_mapM fun parent isParent =>
        answers_asText (classParent?_isText fits parent (Option.mem_toList.mp isParent))
    refine (safe_part ofParents).bind fun _ _ => ?_
    refine (safe_part (answers_classBody fits isClass)).bind fun body bodyFits => ?_
    refine (safe_readMembers _ bodyFits).bind fun members sound => ?_
    refine Safe.bind (safe_modifyContract ?_) fun _ _ => ?_
    · exact fun _ => rfl
    refine (safe_part (answers_namedMethods sound.methods)).bind fun named areNamed => ?_
    refine (safe_dropRedefined areNamed).bind fun methods areMethods => ?_
    refine (safe_noteMethods methods).bind fun _ _ => ?_
    have ofUsed := answers_analyzeFields (forall_mem_map.mpr areMethods)
    refine (safe_part ofUsed).bind fun used usedSound => ?_
    refine (safe_part (answers_withAccessorFields usedSound sound)).bind fun fields holds => ?_
    obtain ⟨fieldsSound, areWritten⟩ := holds
    have isConstruction : ∀ method ∈ (methods.find? fun entry => entry.name == "initialize").map
        MethodEntry.node, method.IsMethod := by
      intro _ isFound
      obtain ⟨entry, isEntry, rfl⟩ := Option.map_eq_some_iff.mp isFound
      exact areMethods entry (mem_of_find?_eq_some isEntry)
    -- From here on the fields have types.
    refine (settles_typeFields fieldsSound isConstruction).bind fun _ => ?_
    refine Settles.mono (?typed : IsSafe (fields.map FieldUsage.label) _) (fun _ steady => steady)
      fun _ _ holds => ⟨trivial, holds.2.subset (by simp)⟩
    refine (safe_declareFields fieldsSound fun usage => mem_map_of_mem).bind fun _ _ => ?_
    refine (safe_part (answers_buildOrder areMethods)).bind fun order holds => ?_
    obtain ⟨areOrdered, covered⟩ := holds
    refine (safe_lowerMethods areOrdered).bind fun lowered areNames => ?_
    refine (safe_placeFunctions _ (areNames ▸ covered)).bind fun _ _ => ?_
    refine (?_ : Safe _ (fun setters => ∀ setter ∈ setters, True) _).bind fun _ _ => ?_
    · refine composes_safe.filterMapM fun writer isWriter => ?_
      obtain ⟨_, isField⟩ := sound.writers writer isWriter
      have isTyped := areWritten writer isWriter
      obtain ⟨_, line⟩ := writer
      cases isField
      exact Settles.mono (safe_fieldSetter line isTyped) (fun _ steady => steady)
        fun _ _ holds => ⟨fun _ _ => trivial, holds.2⟩
    · refine safe_read (fun _ _ => rfl) fun context _ => ?_
      exact (safe_part (answered_orderedEvents areMethods)).ends
  · exact safe_reject

/-! ### Programs -/

theorem safe_lowerProgram (fit : ∀ node ∈ nodes, node.Fits .part) :
    IsSafe [] (lowerProgram nodes) := by
  induction nodes with
  | nil => exact isSafe_pure
  | cons node _ ih =>
    obtain ⟨nodeFits, restFit⟩ := forall_mem_cons.mp fit
    have ofRest := ih restFit
    unfold lowerProgram
    split
    · rename_i isClass
      have isClass : node.kind = .classDef ∨ node.kind = .moduleDef := by simpa using isClass
      exact (safe_lowerClass nodeFits isClass).bind fun _ _ => ofRest.ends
    · exact safe_guard safe_report ofRest

theorem answered_collectImports (fits : program.Fits role) : Answered (collectImports program) := by
  refine Answers.bind (answered_mapM fun node isNode => ?_) fun _ _ => answered_pure
  obtain ⟨isNode, isImport⟩ := mem_filter.mp isNode
  obtain ⟨_, nodeFits⟩ := fits.walk node isNode
  have parts := nodeFits.parts
  rw [Node.Parts, beq_iff_eq.mp isImport] at parts
  obtain ⟨path, _, _, isChildren⟩ := parts
  have ofPath : Answers (fun found => found.payload.IsText) (node.childAt 0) :=
    answers_childAt (by rw [isChildren]; rfl) ⟨path, rfl⟩
  exact ofPath.bind fun _ isText => (answers_spelled isText).ends

theorem safe_writeProgram (fits : program.Fits .program) :
    IsSafe [] (writeProgram version program) := by
  have childrenFit : ∀ node ∈ program.children, node.Fits .part := by
    cases fits with
    | program childrenFit => exact childrenFit
  exact (safe_lowerProgram childrenFit).bind fun _ _ =>
    (safe_part (answered_collectImports fits)).ends

/-- Nothing is known in a context that has a log only. -/
theorem steady_of_log : Context.Steady [] { log } :=
  ⟨by simp, by simp, rfl, by simp⟩

/-- The tree of a program that was read is lowered to a text, or it is rejected with a reason. It
never turns out to be malformed. -/
theorem generateProgram_settles {limit : Option Nat} {source : String} {program : Node}
    (read : parseWithin limit source = .ok program) (version : String) (log : DiagnosticLog) :
    (∃ text, (Lower.runWith log (generateProgram version program)).1 = .ok text) ∨
      ∃ reason place, (Lower.runWith log (generateProgram version program)).1 =
        .error (.rejected reason place) := by
  have fits : program.Fits .program := by
    have reads := readsAs_parseWithin limit source
    rwa [read] at reads
  have isRun : (Lower.runWith log (generateProgram version program)).1 =
      (outcome (writeProgram version program >>= _) { log }).1 := rfl
  obtain ⟨-, settled⟩ := safe_writeProgram fits { log } steady_of_log
  rw [isRun, outcome_bind]
  split at settled
  · rename_i text ending gives
    have passes : outcome requireWritable ending = (.ok ⟨⟩, ending) := by
      rw [requireWritable, outcome_bind]
      show outcome (if ending.isUnwritable then _ else _) ending = _
      rw [settled.2.writable]
      rfl
    rw [gives]
    refine .inl ⟨text, ?_⟩
    dsimp only
    rw [outcome_bind, passes]
    rfl
  · rename_i reason place ending rejects
    exact .inr ⟨reason, place, by rw [rejects]⟩
  · contradiction

/-- A class with a writable field that is set to a parameter. -/
def vaultSource : String :=
  "class Vault < Base\n" ++
  "  attr_writer :cap\n" ++
  "  def initialize(cap)\n" ++
  "    @cap = cap\n" ++
  "  end\n" ++
  "end\n"

theorem generateProgram_vault :
    ∃ program, parseWithin (some Text.digitLimit) vaultSource = .ok program ∧
      ((∃ text, (Lower.runWith {} (generateProgram "^0.8.30" program)).1 = .ok text) ∨
        ∃ reason place, (Lower.runWith {} (generateProgram "^0.8.30" program)).1 =
          .error (.rejected reason place)) := by
  have reads : (parseWithin (some Text.digitLimit) vaultSource).isOk = true := by decide +kernel
  cases read : parseWithin (some Text.digitLimit) vaultSource with
  | error error => simp [read, Except.isOk, Except.toBool] at reads
  | ok program => exact ⟨program, rfl, generateProgram_settles read "^0.8.30" {}⟩

end ContractForge
