import ContractForge.Proofs.Lowering.FieldOrder

/-!
# Types of tables

A field that is indexed is a table. The search for fields notes the longest key chain that a field
is indexed with in the bodies of the methods, and the first key at each place of the chains. The
type of the field has as many levels, so that each chain leads to an entry (`table_fits_chains`).
-/

namespace ContractForge

open List Lower

variable {fields after : FieldTable} {node method : Node} {label : Payload} {keys : List Node}

/-! ### Key chains -/

/-- The keys that a node indexes a field with. -/
def Node.chainOn? (label : Payload) (node : Node) : Option (List Node) :=
  match node.kind, indexChain node with
  | .index, .ok (root, keys) =>
    if root.kind == .ivar && root.payload == label then some keys else none
  | _, _ => none

/-- The key chains of a field in the bodies of methods, in the order of the walk. -/
def chainsOn (label : Payload) (methods : List Node) : List (List Node) :=
  methods.flatMap fun method => (Node.walkFrom (bodyOf method)).filterMap (Node.chainOn? label)

/-- How far a field is indexed, and with which keys. -/
def FieldUsage.reach (usage : FieldUsage) : Nat × List Node :=
  (usage.indexDepth, usage.keys)

/-- Uses are changed in one way: they stay with their fields, and their reach grows as given. -/
def Grows (grow : Nat × List Node → Nat × List Node) (change : FieldUsage → FieldUsage) : Prop :=
  ∀ usage, (change usage).label = usage.label ∧ (change usage).reach = grow usage.reach

theorem Payload.beq_congr {left right : Payload} (same : left == right) (other : Payload) :
    (other == left) = (other == right) := by
  change left.isSame right = true at same
  change other.isSame left = other.isSame right
  unfold Payload.isSame at *
  split at same
  · rename_i isLeft isRight
    rw [isLeft, isRight, eq_of_beq same]
  · contradiction

namespace FieldTable

/-- How far the field of a name is indexed, and with which keys. -/
def reach (fields : FieldTable) (label : Payload) : Nat × List Node :=
  ((fields.usage? label).map FieldUsage.reach).getD (0, [])

theorem reach_note (grows : Grows grow change) :
    (fields.note other line change).reach label =
      if other == label then grow (fields.reach label) else fields.reach label := by
  induction fields with
  | nil =>
    obtain ⟨keeps, isGrown⟩ := grows { label := other, line }
    by_cases same : (other == label) = true <;> simp [reach, note, usage?, keeps, isGrown, same]
    rfl
  | cons usage rest ih =>
    obtain ⟨keeps, isGrown⟩ := grows usage
    unfold reach usage? at ih ⊢
    rw [note]
    by_cases isHere : (usage.label == other) = true
    · have same : (other == label) = (usage.label == label) := by
        rw [Payload.beq_comm, ← Payload.beq_congr isHere, Payload.beq_comm]
      by_cases isLabel : (usage.label == label) = true <;>
        simp [isHere, isLabel, same, keeps, isGrown]
    · by_cases isLabel : (usage.label == label) = true
      · have different : ¬(other == label) = true := by
          rwa [← Payload.beq_congr isLabel, Payload.beq_comm]
        simp [isHere, isLabel, different]
      · simpa [isHere, isLabel] using ih

theorem reach_noteIfField (grows : Grows grow change) :
    (fields.noteIfField target line change).reach label =
      if target.kind == .ivar && target.payload == label then grow (fields.reach label)
      else fields.reach label := by
  unfold noteIfField
  split
  · rename_i isField
    rw [reach_note grows, isField, Bool.true_and]
  · rename_i noField
    simp [noField]

theorem reach_of_kept (keeps : Grows id change) :
    (fields.noteIfField target line change).reach label = fields.reach label :=
  (reach_noteIfField keeps).trans (ite_self _)

/-- What a key chain adds to the reach of a field. -/
def extend (reach : Nat × List Node) (keys : List Node) : Nat × List Node :=
  (max reach.1 keys.length, reach.2 ++ keys.drop reach.2.length)

theorem reach_noteNode (noted : fields.noteNode method node = .ok after) :
    after.reach label = (node.chainOn? label).toList.foldl extend (fields.reach label) := by
  by_cases isKind : node.kind = .index
  · simp only [noteNode, isKind] at noted
    obtain ⟨⟨root, keys⟩, isChain, ⟨⟩⟩ := ok_of_bind noted
    have grows : Grows (extend · keys) (·.withKeys keys) := fun _ => ⟨rfl, rfl⟩
    refine (reach_noteIfField grows).trans ?_
    simp only [Node.chainOn?, isKind, isChain]
    split <;> rfl
  · rw [show node.chainOn? label = none by simp [Node.chainOn?, isKind]]
    change after.reach label = fields.reach label
    -- Whatever else is noted about a field, its keys stay.
    unfold noteNode at noted
    split at noted
    · cases noted
      exact reach_of_kept fun _ => ⟨rfl, rfl⟩
    · split at noted
      · dsimp only at noted
        split at noted
        · obtain ⟨_, -, ⟨⟩⟩ := ok_of_bind noted
          exact reach_of_kept fun usage => by
            unfold FieldUsage.withEntryAssignment
            repeat' split
            all_goals exact ⟨rfl, rfl⟩
        · cases noted
          exact reach_of_kept fun usage => by
            unfold FieldUsage.withAssignment
            split <;> exact ⟨rfl, rfl⟩
      · contradiction
    · contradiction
    · split at noted
      · obtain ⟨_, -, noted⟩ := ok_of_bind noted
        split at noted
        · obtain ⟨_, -, ⟨⟩⟩ := ok_of_bind noted
          exact reach_of_kept fun _ => ⟨rfl, rfl⟩
        · cases noted
          rfl
      · cases noted
        rfl
    · obtain ⟨_, -, ⟨⟩⟩ := ok_of_bind noted
      exact reach_of_kept fun usage => by
        unfold FieldUsage.withCall
        repeat' split
        all_goals exact ⟨rfl, rfl⟩
    · split at noted
      · obtain ⟨_, -, ⟨⟩⟩ := ok_of_bind noted
        exact reach_of_kept fun _ => ⟨rfl, rfl⟩
      · cases noted
        rfl
    · cases noted
      rfl

theorem reach_noteInitializers (place : Nat)
    (noted : fields.noteInitializers place parts = .ok after) :
    after.reach label = fields.reach label := by
  induction parts generalizing fields place with
  | nil =>
    cases noted
    rfl
  | cons statement rest ih =>
    unfold noteInitializers at noted
    dsimp only at noted
    split at noted
    · obtain ⟨target, -, noted⟩ := ok_of_bind noted
      split at noted
      · obtain ⟨value, -, noted⟩ := ok_of_bind noted
        exact (ih _ noted).trans (reach_of_kept fun _ => ⟨rfl, rfl⟩)
      · exact ih _ noted
    · exact ih _ noted

theorem reach_analyzeFields (analyzed : analyzeFields methods = .ok fields) :
    fields.reach label = (chainsOn label methods).foldl extend (0, []) := by
  obtain ⟨initialized, isInitialized, analyzed⟩ := ok_of_bind analyzed
  have isStart : initialized.reach label = (0, []) := by
    refine @foldlM_collect _ _ Unit _ (fun _ => []) (fun _ fields => reach fields label = (0, []))
      methods ?_ [] _ _ rfl isInitialized
    intro _ method fields next _ isReach noted
    obtain ⟨name, -, noted⟩ := ok_of_bind noted
    split at noted
    · obtain ⟨body, -, noted⟩ := ok_of_bind noted
      rw [reach_noteInitializers _ noted, isReach]
    · cases noted
      exact isReach
  -- The outer fold is over the methods, the inner one over the nodes of a body.
  refine @foldlM_collect _ _ _ _ _
    (fun chains fields => reach fields label = chains.foldl extend (0, [])) methods ?_ [] _ _
    isStart analyzed
  intro done method fields next _ isReach noted
  obtain ⟨body, isBody, noted⟩ := ok_of_bind noted
  have isBody : bodyOf method = [body] := by
    unfold Node.methodBody Node.childAt at isBody
    unfold bodyOf
    split at isBody <;> simp_all
  rw [isBody, filterMap_eq_flatMap_toList]
  refine foldlM_collect
    (motive := fun chains fields => reach fields label = chains.foldl extend (0, []))
    (fun done node fields next _ isReach noted => ?_) isReach noted
  rw [reach_noteNode noted, isReach, foldl_append]

end FieldTable

/-- At each place the keys are the first ones, and there are as many as the longest chain has. -/
theorem foldl_extend (chains : List (List Node)) (keys : List Node) :
    ∃ found, chains.foldl FieldTable.extend (keys.length, keys) = (found.length, found) ∧
      found.length = (chains.map length).foldl max keys.length ∧
      ∀ level : Nat, found[level]? = keys[level]?.or (chains.filterMap (·[level]?)).head? := by
  induction chains generalizing keys with
  | nil => exact ⟨keys, rfl, rfl, by simp⟩
  | cons chain rest ih =>
    have isLength : (keys ++ chain.drop keys.length).length = max keys.length chain.length := by
      rw [length_append, length_drop]
      omega
    obtain ⟨found, isFound, isLongest, areFirst⟩ := ih (keys ++ chain.drop keys.length)
    rw [isLength] at isFound isLongest
    refine ⟨found, isFound, isLongest, fun level => ?_⟩
    rw [areFirst level, getElem?_append, filterMap_cons]
    by_cases isOld : level < keys.length
    · simp [isOld]
    · have isNew : keys.length + (level - keys.length) = level := by omega
      rw [if_neg isOld, getElem?_drop, isNew, getElem?_eq_none (Nat.le_of_not_lt isOld)]
      cases chain[level]? <;> simp

/-- The key type of a table at a place: that of the key, if it is elementary or an enumeration. -/
def HasKeyType (context : Context) (type : StaticType) : Option Node → Prop
  | none => type = .address
  | some key => ∃ own, intrinsicType context key = .ok own ∧
      type = (own.filter fun type => type.name?.isSome).getD .address

/-- The type has the given number of levels around a value that is no table, each with the type of
its key. -/
def Nests (context : Context) : List Node → Nat → StaticType → Prop
  | _, 0, type => type.isMapping = false
  | keys, depth + 1, .mapping key value =>
    HasKeyType context key keys.head? ∧ Nests context keys.tail depth value
  | _, _, _ => False

theorem nests_of_nestedMapping (noTable : value.isMapping = false)
    (nested : nestedMapping context value keys depth = .ok type) :
    Nests context keys depth type := by
  induction depth generalizing keys type with
  | zero =>
    cases nested
    exact noTable
  | succ depth ih =>
    obtain ⟨inner, isInner, nested⟩ := ok_of_bind nested
    obtain ⟨keyType, isKey, ⟨⟩⟩ := ok_of_bind nested
    refine ⟨?_, ih isInner⟩
    cases keys with
    | nil =>
      cases isKey
      rfl
    | cons key rest =>
      obtain ⟨own, isOwn, isKey⟩ := ok_of_bind isKey
      refine ⟨own, isOwn, ?_⟩
      split at isKey <;> obtain rfl := Except.ok.inj isKey
      case h_4 =>
        rename_i type noArray noTable _ _
        cases type with
        | array element => exact absurd rfl (noArray element)
        | mapping key value => exact absurd rfl (noTable key value)
        | _ => rfl
      all_goals rfl

/-- As long as there are levels, a key leads to an entry. -/
theorem Nests.exists_entry {chain : List Node} (nests : Nests context keys depth type)
    (isShort : chain.length ≤ depth) :
    ∃ entry, chain.foldlM (fun type _ => type.contained?) type = some entry := by
  induction chain generalizing keys depth type with
  | nil => exact ⟨_, rfl⟩
  | cons key rest ih =>
    cases depth with
    | zero => simp at isShort
    | succ depth =>
      cases type with
      | mapping key value => exact ih nests.2 (Nat.le_of_succ_le_succ isShort)
      | _ => exact nests.elim

theorem exists_assignedType? (before : Context) (fits : value.Fits .operand) :
    ∃ found, Gives (assignedType? value none) before found before := by
  unfold assignedType?
  split
  · contradiction
  unfold valueType?
  split
  · exact ⟨_, rfl⟩
  · exact ⟨_, rfl⟩
  · exact ⟨_, rfl⟩
  · obtain ⟨type, isType, -⟩ := answered_inferType before fits
    exact ⟨type, gives_infer_iff.mpr ⟨isType, rfl⟩⟩

theorem exists_tableValue (before : Context) (sound : usage.Sound) :
    ∃ type, Gives (tableValue usage) before type before ∧ type.isMapping = false := by
  unfold tableValue
  split
  · rename_i value isValue _
    obtain ⟨found, assigned⟩ := exists_assignedType? before (sound.indexedValue value isValue)
    cases found with
    | none => exact ⟨_, assigned.bind rfl, rfl⟩
    | some type => cases type <;> exact ⟨_, assigned.bind rfl, rfl⟩
  · exact ⟨_, rfl, rfl⟩

theorem exists_nests (before : Context) (sound : usage.Sound) (isTable : usage.isMapping = true) :
    ∃ type after, Gives (fieldType usage) before type after ∧
      Nests before usage.keys (max usage.indexDepth 1) type := by
  obtain ⟨value, valued, noTable⟩ := exists_tableValue before sound
  obtain ⟨type, nested, -⟩ := @answered_nestedMapping _ before value _ sound.keys
  unfold fieldType
  rw [if_pos isTable]
  cases isUnset : !usage.assigned && usage.initializer.isNone
  all_goals
    exact ⟨type, _, valued.bind ((gives_infer_iff.mpr ⟨nested, rfl⟩).bind (by rw [isUnset]; rfl)),
      nests_of_nestedMapping noTable nested⟩

/-- The fields of methods are found. One that is a table has a key for each place of the longest key
chain in the bodies of the methods, the first one that stands there. Its type is found, has that
many levels, at least one, and so leads to an entry for each chain. -/
theorem table_fits_chains (methods : List Node)
    (areMethods : ∀ method ∈ methods, method.IsMethod) :
    ∃ fields, analyzeFields methods = .ok fields ∧ ∀ label usage,
      fields.usage? label = some usage → usage.isMapping = true →
      usage.keys.length = ((chainsOn label methods).map length).foldl max 0 ∧
      (∀ level : Nat, usage.keys[level]? = ((chainsOn label methods).filterMap (·[level]?)).head?) ∧
      ∀ before, ∃ type after, Gives (fieldType usage) before type after ∧
        Nests before usage.keys (max usage.keys.length 1) type ∧
        ∀ chain ∈ chainsOn label methods, ∃ entry,
          chain.foldlM (fun type _ => type.contained?) type = some entry := by
  obtain ⟨fields, analyzed, sound⟩ := answers_analyzeFields areMethods
  refine ⟨fields, analyzed, fun label usage isUsage isTable => ?_⟩
  obtain ⟨found, isFound, isLongest, areFirst⟩ := foldl_extend (chainsOn label methods) []
  have isReach := (FieldTable.reach_analyzeFields analyzed).trans isFound
  rw [FieldTable.reach, isUsage] at isReach
  obtain ⟨isDepth, rfl⟩ := Prod.mk.inj isReach
  refine ⟨isLongest, fun level => by simpa using areFirst level, fun before => ?_⟩
  obtain ⟨type, after, typed, nests⟩ :=
    exists_nests before (sound usage (mem_of_find?_eq_some isUsage)) isTable
  rw [isDepth] at nests
  refine ⟨type, after, typed, nests, fun chain isChain => ?_⟩
  have areShort : ∀ chain ∈ chainsOn label methods, chain.length ≤ usage.keys.length := by
    simpa using (areFirst usage.keys.length).symm
  exact nests.exists_entry ((areShort chain isChain).trans (Nat.le_max_left _ _))

/-- A method that indexes a field in the default of its parameter and in its body. -/
def putMethod : Node :=
  let node (kind : Kind) (payload : Payload) (parts : List Node) : Node :=
    ⟨kind, payload, none, none, parts⟩
  let name := node .identifier (.text "key") []
  let entry := node .index .absent [node .ivar (.text "stock") [], name]
  let param := node .param .absent [name, node .index .absent [entry, name]]
  node .methodDef .absent [name, node .params .absent [param], node .body .absent [entry]]

theorem putMethod_fits_chains : putMethod.IsMethod ∧ ∃ fields usage,
    analyzeFields [putMethod] = .ok fields ∧ fields.usage? (.text "stock") = some usage ∧
    usage.keys.length = ((chainsOn (.text "stock") [putMethod]).map length).foldl max 0 ∧
    ∃ type after, Gives (fieldType usage) {} type after ∧
      ∀ chain ∈ chainsOn (.text "stock") [putMethod], ∃ entry,
        chain.foldlM (fun type _ => type.contained?) type = some entry := by
  have isMethod : putMethod.IsMethod := by
    have name : Node.Fits .identifier ⟨.identifier, .text "key", none, none, []⟩ :=
      .identifier (by decide)
    refine ⟨rfl, .statement, .methodDef name (.params (forall_mem_singleton.mpr ?_))
      (.body (forall_mem_singleton.mpr (.ofOperand (.index .ivar (.ofIdentifier name))))) (by simp)⟩
    refine @Node.Fits.param _ _ _ (some _) name fun value isValue => ?_
    cases isValue
    exact .index (.index .ivar (.ofIdentifier name)) (.ofIdentifier name)
  obtain ⟨fields, analyzed, ofTables⟩ := table_fits_chains _ (forall_mem_singleton.mpr isMethod)
  have isRead : ((analyzeFields [putMethod]).toOption.bind (·.usage? (.text "stock"))).map
      FieldUsage.isMapping = some true := by decide +kernel
  rw [analyzed] at isRead
  obtain ⟨usage, isFound, isTable⟩ := Option.map_eq_some_iff.mp isRead
  obtain ⟨isLongest, -, leads⟩ := ofTables _ usage isFound isTable
  obtain ⟨type, after, typed, -, entries⟩ := leads {}
  exact ⟨isMethod, fields, usage, analyzed, isFound, isLongest, type, after, typed, entries⟩

/-- Key chains in the defaults of parameters do not count. A key may be of an enumeration. -/
theorem putMethod_drops_chain :
    ((analyzeFields [putMethod]).toOption.bind (·.usage? (.text "stock"))).map
        (fun usage => (usage.isMapping, usage.keys.length)) = some (true, 1) ∧
      (putMethod.walk.filterMap (Node.chainOn? (.text "stock"))).map length = [2, 1, 1] ∧
      nestedMapping { contract := { enums := [("State", ["open"])] } } .uint256
          [⟨.symbol, .text "open", none, none, []⟩] 1 =
        .ok (.mapping (.enumeration "State") .uint256) :=
  ⟨by decide +kernel, by cbv, rfl⟩

end ContractForge
