import ContractForge.Proofs.Listing.Blocks
import Mathlib.Data.List.Induction

/-!
# Contracts that share a file

The passes that make code safe look up the variables of a whole file by name alone. So the block
of a contract comes out as if it stood alone exactly if the names that its statements change are
of the same kind in the whole file and in the file with this contract only
(`contract_rewritten_alone_iff`). That is the case if no other contract declares such a name.
-/

namespace ContractForge.Listing

open Text List

variable {place : Nat} {name type other line : String} {table : Table String} {contract : Contract}
  {lines names others unsigned tables body : List String}

/-! ### The kind of a name -/

def declarationsOf (name : String) (lines : List String) : List Declaration :=
  (lines.filterMap declaration?).filter fun found => found.name == name

theorem mem_iff_get? (distinct : table.names.Nodup) :
    (name, type) ∈ table ↔ table.get? name = some type := by
  induction table with
  | nil => simp [Table.get?]
  | cons first rest ih =>
    obtain ⟨key, _⟩ := first
    obtain ⟨isNew, distinctRest⟩ := nodup_cons.mp distinct
    rw [mem_cons, Table.get?]
    split
    · rename_i same
      subst same
      have notLater : (key, type) ∉ rest := fun mem => isNew (mem_map.mpr ⟨_, mem, rfl⟩)
      simp [notLater, eq_comm]
    · rename_i differs
      simp [Ne.symm differs, ih distinctRest]

theorem mem_names_put :
    other ∈ (Table.put table name type).names ↔ other = name ∨ other ∈ table.names := by
  rw [← Table.has_iff_mem_names, ← Table.has_iff_mem_names]
  exact Table.isSome_get?_put_iff _ _ _ _

theorem nodup_names_put (distinct : table.names.Nodup) (name type : String) :
    (Table.put table name type).names.Nodup := by
  induction table with
  | nil => simp [Table.put, Table.names]
  | cons _ _ ih =>
    obtain ⟨isNew, distinctRest⟩ := nodup_cons.mp distinct
    rw [Table.put]
    split
    · rename_i same
      subst same
      exact distinct
    · rename_i differs
      refine nodup_cons.mpr ⟨fun mem => ?_, ih distinctRest⟩
      obtain same | inRest := mem_names_put.mp mem
      · exact differs same
      · exact isNew inRest

/-- Put declarations into a table, the last one of a name last. -/
theorem foldl_put (declared : List Declaration) :
    let types : Table String := declared.foldl (fun (types : Table String) found =>
      types.put found.name found.type) []
    types.names.Nodup ∧ ∀ name, types.get? name =
      (declared.filter fun found => found.name == name).getLast?.map Declaration.type := by
  induction declared using List.reverseRecOn with
  | nil => simp [Table.names, Table.get?]
  | append_singleton _ last ih =>
    obtain ⟨distinct, entries⟩ := ih
    rw [foldl_append, foldl_cons, foldl_nil]
    refine ⟨nodup_names_put distinct _ _, fun name => ?_⟩
    by_cases same : name = last.name
    · simp [same, Table.get?_put_self]
    · simp [Table.get?_put_of_ne _ _ same, entries, Ne.symm same]

/-- The last declaration of a name says of which kind it is. -/
theorem mem_variablesWith_iff :
    name ∈ variablesWith test lines ↔
      ((declarationsOf name lines).getLast?.any fun found => test found.type) := by
  obtain ⟨distinct, entries⟩ := foldl_put (lines.filterMap declaration?)
  rw [variablesWith, mem_filterMap, Option.any_eq_true]
  constructor
  · rintro ⟨⟨_, _⟩, mem, found⟩
    obtain ⟨passes, same⟩ := Option.ite_none_right_eq_some.mp found
    cases same
    rw [stateVariables, mem_iff_get? distinct, entries] at mem
    obtain ⟨last, isLast, rfl⟩ := Option.map_eq_some_iff.mp mem
    exact ⟨last, isLast, passes⟩
  · rintro ⟨last, isLast, passes⟩
    refine ⟨(name, last.type), (mem_iff_get? distinct).mpr ?_, by simp [passes]⟩
    rw [entries]
    exact Option.map_eq_some_iff.mpr ⟨last, isLast, rfl⟩

/-! ### Names that statements change -/

/-- The variable that a line changes by arithmetic, read in one way or the other. -/
def changedNames (line : String) : List String :=
  ((update? compoundEnd? line).toList ++ (update? stepEnd? line).toList).map Update.root

theorem filter_contains_congr {α : Type} {key : α → String}
    {read : Option α} (alike : ∀ value ∈ read, (key value ∈ names ↔ key value ∈ others)) :
    read.filter (fun value => names.contains (key value)) =
      read.filter fun value => others.contains (key value) := by
  cases read with
  | none => rfl
  | some value =>
    have same : names.contains (key value) = others.contains (key value) := by
      rw [Bool.eq_iff_iff, contains_iff_mem, contains_iff_mem]
      exact alike value rfl
    simp only [Option.filter, same]

/-- A line is checked alike exactly if the variable that it changes is of the same kind. -/
theorem checkLine_eq_iff :
    checkLine unsigned line = checkLine others line ↔
      ∀ name ∈ changedNames line, (name ∈ unsigned ↔ name ∈ others) := by
  constructor
  · intro same _ mem
    obtain ⟨update, isUpdate, rfl⟩ := mem_map.mp mem
    obtain ⟨indent, root, tail, named, isRoot, isSome⟩ : ∃ indent root tail,
        NamedLine line indent root tail ∧ update.root = String.ofList root ∧
          (change? tail).isSome := by
      rw [mem_append, Option.mem_toList, Option.mem_toList] at isUpdate
      obtain compound | step := isUpdate
      · obtain ⟨indent, root, tail, named⟩ :=
          exists_namedLine (Option.isSome_iff_exists.mpr ⟨_, compound⟩)
        rw [named.update?_eq] at compound
        obtain ⟨_, isParts, rfl⟩ := Option.map_eq_some_iff.mp compound
        exact ⟨indent, root, tail, named, rfl, by rw [change?, isParts]; rfl⟩
      · obtain ⟨indent, root, tail, named⟩ :=
          exists_namedLine (Option.isSome_iff_exists.mpr ⟨_, step⟩)
        rw [named.update?_eq] at step
        obtain ⟨_, isParts, rfl⟩ := Option.map_eq_some_iff.mp step
        refine ⟨indent, root, tail, named, rfl, ?_⟩
        rw [change?, isParts]
        cases targetEnd? compoundEnd? tail <;> rfl
    obtain ⟨parts, isParts⟩ := Option.isSome_iff_exists.mp isSome
    have longer : (updateOf indent root parts).checked ≠ line := by
      intro unchanged
      have grows := named.length_lt isParts
      rw [unchanged] at grows
      exact Nat.lt_irrefl _ grows
    rw [named.checkLine_eq, named.checkLine_eq, isParts, Option.map_some, Option.getD_some] at same
    rw [isRoot, ← contains_iff_mem, ← contains_iff_mem]
    cases first : unsigned.contains (String.ofList root) <;>
      cases second : others.contains (String.ofList root)
    · exact .rfl
    · rw [first, second, if_neg Bool.false_ne_true, if_pos rfl] at same
      exact absurd same.symm longer
    · rw [first, second, if_neg Bool.false_ne_true, if_pos rfl] at same
      exact absurd same longer
    · exact .rfl
  · intro alike
    have compound := filter_contains_congr fun update
      (isUpdate : update ∈ update? compoundEnd? line) => alike update.root
        (mem_map_of_mem (mem_append_left _ (Option.mem_toList.mpr isUpdate)))
    have step := filter_contains_congr fun update (isUpdate : update ∈ update? stepEnd? line) =>
      alike update.root (mem_map_of_mem (mem_append_right _ (Option.mem_toList.mpr isUpdate)))
    rw [checkLine, checkLine, compound, step]

/-- Of the tables, only those matter that the statements of a body update. -/
theorem moveInBody_congr
    (alike : ∀ line ∈ body, ∀ name ∈ entryTarget? line, (name ∈ tables ↔ name ∈ others)) :
    moveInBody tables body = moveInBody others body := by
  have sameTable : ∀ line ∈ body, updatedTable? tables [line] = updatedTable? others [line] :=
    fun line mem => filter_contains_congr (alike line mem)
  have sameMoves : ∀ (groups : List Group) (done : Reordering),
      (∀ group ∈ groups, ∀ line ∈ group, line ∈ body) →
        moveUpdates tables done groups = moveUpdates others done groups := by
    intro groups
    induction groups with
    | nil => exact fun done _ => rfl
    | cons group _ ih =>
      intro _ inBody
      obtain ⟨ofGroup, ofRest⟩ := forall_mem_cons.mp inBody
      have sameUpdate : updatedTable? tables group = updatedTable? others group := by
        rcases group with _ | ⟨line, _ | _⟩
        · rfl
        · exact sameTable line (ofGroup line mem_cons_self)
        · rfl
      have sameNested : nestedUpdates tables group = nestedUpdates others group := by
        rw [nestedUpdates, nestedUpdates]
        congr 1
        exact filterMap_congr fun line mem =>
          sameTable line (ofGroup line (mem_of_mem_tail mem))
      rw [moveUpdates, moveUpdates, sameUpdate, sameNested]
      exact ih _ ofRest
  have inBody : ∀ group ∈ statementsOf body, ∀ line ∈ group, line ∈ body := by
    intro _ isGroup _ mem
    rw [← statementsOf_flatten body]
    exact mem_flatten_of_mem isGroup mem
  rw [moveInBody, moveInBody, reorderBody, reorderBody, reorderGroups, reorderGroups]
  cases behind : (statementsOf body).dropWhile fun group => !isExternalCall group with
  | nil => rfl
  | cons _ rest =>
    have ofRest : ∀ group ∈ rest, ∀ line ∈ group, line ∈ body := by
      intro group isGroup
      have suffix := dropWhile_suffix (fun group => !isExternalCall group)
        (l := statementsOf body)
      rw [behind] at suffix
      exact inBody group (suffix.subset (mem_cons_of_mem _ isGroup))
    simp only [sameMoves rest _ ofRest]

/-- The variables that the statements of a listing change. -/
def updatedNames (lines : List String) : List String :=
  lines.flatMap fun line => changedNames line ++ (entryTarget? line).toList

theorem Lists.mem_of_mem_body {written : WrittenFunction} (listed : Lists lines functions)
    (isFunction : written ∈ functions) (mem : line ∈ written.body) : line ∈ lines := by
  induction listed with
  | nil => contradiction
  | plain _ _ ih =>
    exact mem_cons_of_mem _ (ih isFunction)
  | @function first rest functions word later ih =>
    rw [first.lines_append, mem_cons, mem_append, mem_cons]
    obtain rfl | inLater := mem_cons.mp isFunction
    · exact .inr (.inl mem)
    · exact .inr (.inr (.inr (ih inLater)))

/-- A contract with a blank line behind it. -/
theorem lists_block (words : ∀ written ∈ functionsOf contract, isWord written.1.name) :
    Lists (contract.render ++ [""]) (functionsOf contract) := by
  have blank : Lists [""] [] := .plain rfl .nil
  have block := (lists_render words).append blank
  rwa [append_nil] at block

/-! ### A contract in a file and alone -/

/-- The block of a contract after a pass, by its place among the contracts. -/
def blockAfter (pass : Pass) (lines : List String) (place : Nat) : Option (List String) :=
  (contractBlocks (pass.run lines).1)[place]?

section

variable {version : String} {imports : List String} {contracts : List Contract}
  (written : WellWrittenFile version imports contracts)
  (apart : ∀ contract ∈ contracts, StandsApart contract)

abbrev fileLines (version : String) (imports : List String) (contracts : List Contract) :
    List String :=
  Text.lines (renderFile version imports contracts)

include written in
theorem wellWritten_alone (mem : contract ∈ contracts) :
    WellWrittenFile version imports [contract] where
  version := written.version
  imports := written.imports
  lines := by simpa using written.lines contract mem
  names := by simpa using written.names contract mem

include written apart

theorem filterMap_pragma : (fileLines version imports contracts).filterMap pragmaConstraint? =
    (fileOpening version imports).filterMap pragmaConstraint? := by
  have assembled := assembled_renderFile written apart
  have ofBlocks : (contracts.map fun contract => contract.render ++ [""]).flatten.filterMap
      pragmaConstraint? = [] := by
    refine filterMap_eq_nil_iff.mpr fun line mem => ?_
    obtain ⟨block, isBlock, inBlock⟩ := mem_flatten.mp mem
    exact assembled.noPragma block isBlock line inBlock
  rw [fileLines, assembled.lines, filterMap_append, filterMap_append, ofBlocks, append_nil]
  exact append_nil _

theorem block_arithmetic (isThere : contracts[place]? = some contract) :
    blockAfter .arithmetic (fileLines version imports contracts) place =
      if checksArithmetic (fileLines version imports contracts) then some (contract.render ++ [""])
      else some (checkBlock (variablesWith holdsUnsigned (fileLines version imports contracts))
        (contract.render ++ [""])) := by
  have assembled := assembled_renderFile written apart
  rw [blockAfter, Pass.run]
  cases checked : checksArithmetic (fileLines version imports contracts) with
  | true =>
    have same : (checkArithmetic (fileLines version imports contracts)).1 =
        fileLines version imports contracts := by
      rw [checkArithmetic, checked]
      rfl
    rw [same, assembled.contractBlocks_eq, getElem?_map, isThere]
    rfl
  | false =>
    rw [assembled.contractBlocks_checkArithmetic checked, getElem?_map, getElem?_map, isThere]
    rfl

theorem block_callOrder (isThere : contracts[place]? = some contract) :
    blockAfter .callOrder (fileLines version imports contracts) place =
      some (rewriteBodies (moveInBody (tableVariables (fileLines version imports contracts)))
        (contract.render ++ [""])) := by
  have assembled := assembled_renderFile written apart
  have plain : ∀ line ∈ fileOpening version imports, functionHeader? line = none := by
    intro line mem
    obtain rfl | rfl | rfl | inImports := mem_fileOpening mem
    · rfl
    · exact functionHeader?_of_last (by simp [getLast?_cons]) (by decide : ';' ≠ '\x7b')
    · rfl
    · exact functionHeader?_of_last (written.imports line inImports).2 (by decide)
  have listed : Forall₂ Lists (contracts.map fun contract => contract.render ++ [""])
      (contracts.map functionsOf) := by
    rw [forall₂_map_left_iff, forall₂_map_right_iff, forall₂_same]
    exact fun other mem => lists_block (written.names other mem)
  rw [blockAfter, Pass.run, assembled.contractBlocks_reorderCalls plain listed,
    getElem?_map, getElem?_map, isThere]
  rfl

/-- The declarations of a name that no other contract declares. -/
theorem declarationsOf_alone (isThere : contracts[place]? = some contract)
    (foreign : ∀ elsewhere other, elsewhere ≠ place → contracts[elsewhere]? = some other →
      declarationsOf name other.render = []) :
    declarationsOf name (fileLines version imports contracts) =
      declarationsOf name (fileLines version imports [contract]) := by
  have mem := List.mem_of_getElem? isThere
  have assembled := assembled_renderFile written apart
  have alone := assembled_renderFile (wellWritten_alone written mem)
    (by simpa using apart contract mem)
  have append : ∀ front back : List String, declarationsOf name (front ++ back) =
      declarationsOf name front ++ declarationsOf name back := by
    intro _ _
    rw [declarationsOf, List.filterMap_append, List.filter_append]
    rfl
  have silent : ∀ some : List Contract, (∀ other ∈ some, declarationsOf name other.render = []) →
      declarationsOf name (some.map fun contract => contract.render ++ [""]).flatten = [] := by
    intro some quiet
    induction some with
    | nil => rfl
    | cons _ _ ih =>
      obtain ⟨here, later⟩ := List.forall_mem_cons.mp quiet
      rw [List.map_cons, List.flatten_cons, append, append, here, ih later]
      rfl
  obtain ⟨_, isContract⟩ := List.getElem?_eq_some_iff.mp isThere
  have split : contracts = contracts.take place ++ contract :: contracts.drop (place + 1) := by
    rw [← isContract, List.getElem_cons_drop, List.take_append_drop]
  have ahead := silent (contracts.take place) fun other isOther => by
    obtain ⟨elsewhere, bound, rfl⟩ := List.getElem_of_mem isOther
    rw [List.length_take] at bound
    refine foreign elsewhere _ (by omega) ?_
    rw [List.getElem_take, List.getElem?_eq_getElem]
  have behind := silent (contracts.drop (place + 1)) fun other isOther => by
    obtain ⟨elsewhere, _, rfl⟩ := List.getElem_of_mem isOther
    refine foreign (place + 1 + elsewhere) _ (by omega) ?_
    rw [List.getElem_drop, List.getElem?_eq_getElem]
  rw [fileLines, fileLines, assembled.lines, alone.lines, append, append _ (flatten _)]
  congr 1
  conv_lhs => rw [split]
  rw [List.map_append, List.flatten_append, append, ahead, List.nil_append, List.map_cons,
    List.flatten_cons, append, behind, List.append_nil, List.map_singleton, List.flatten_singleton]

end

/-- A contract comes out of the passes as if it stood alone exactly if the variables that it
changes by arithmetic are of the same kind in the whole file, and the tables of the whole file move
the updates of its functions to the same places. That is so if no other contract declares a
variable that it changes. -/
theorem contract_rewritten_alone_iff {version : String} {imports : List String}
    {contracts : List Contract} (written : WellWrittenFile version imports contracts)
    (apart : ∀ contract ∈ contracts, StandsApart contract) {place : Nat} {contract : Contract}
    (isThere : contracts[place]? = some contract) :
    let file := fileLines version imports contracts
    let alone := fileLines version imports [contract]
    (blockAfter .arithmetic file place = blockAfter .arithmetic alone 0 ↔
        checksArithmetic alone = true ∨ ∀ line ∈ contract.render, ∀ name ∈ changedNames line,
          (name ∈ variablesWith holdsUnsigned file ↔ name ∈ variablesWith holdsUnsigned alone)) ∧
      (blockAfter .callOrder file place = blockAfter .callOrder alone 0 ↔
        ∀ function ∈ functionsOf contract,
          moveInBody (tableVariables file) function.body =
            moveInBody (tableVariables alone) function.body) ∧
      ((∀ name ∈ updatedNames contract.render, ∀ elsewhere other, elsewhere ≠ place →
          contracts[elsewhere]? = some other → declarationsOf name other.render = []) →
        blockAfter .arithmetic file place = blockAfter .arithmetic alone 0 ∧
          blockAfter .callOrder file place = blockAfter .callOrder alone 0) := by
  intro file alone
  have member := mem_of_getElem? isThere
  have writtenAlone := wellWritten_alone written member
  have apartAlone : ∀ other ∈ [contract], StandsApart other := by
    simpa using apart contract member
  have listed := lists_block (written.names contract member)
  have sameVersion := checksArithmetic_congr ((filterMap_pragma written apart).trans
      (filterMap_pragma writtenAlone apartAlone).symm)
  have arithmetic : blockAfter .arithmetic file place = blockAfter .arithmetic alone 0 ↔
      checksArithmetic alone = true ∨ ∀ line ∈ contract.render, ∀ name ∈ changedNames line,
        (name ∈ variablesWith holdsUnsigned file ↔ name ∈ variablesWith holdsUnsigned alone) := by
    rw [block_arithmetic written apart isThere, block_arithmetic writtenAlone apartAlone rfl,
      sameVersion]
    cases checksArithmetic alone with
    | true => simp
    | false =>
      rw [if_neg Bool.false_ne_true, if_neg Bool.false_ne_true, Option.some.injEq,
        checkBlock_eq_iff (isBlock_render (apart contract member).name),
        or_iff_right Bool.false_ne_true, forall_mem_append]
      simp only [checkLine_eq_iff, forall_mem_singleton]
      exact and_iff_left fun name isChanged => by simp [changedNames, update?] at isChanged
  have callOrder : blockAfter .callOrder file place = blockAfter .callOrder alone 0 ↔
      ∀ function ∈ functionsOf contract, moveInBody (tableVariables file) function.body =
        moveInBody (tableVariables alone) function.body := by
    rw [block_callOrder written apart isThere, block_callOrder writtenAlone apartAlone rfl,
      Option.some.injEq]
    have sameLength (body : List String) :=
      (moveInBody_perm (tableVariables file) body).length_eq.trans
      (moveInBody_perm (tableVariables alone) body).length_eq.symm
    exact (rewriteBodies_eq_iff listed.sections sameLength).trans forall_mem_map
  refine ⟨arithmetic, callOrder, fun foreign => ?_⟩
  have sameKind : ∀ test, ∀ name ∈ updatedNames contract.render,
      (name ∈ variablesWith test file ↔ name ∈ variablesWith test alone) := by
    intro test name isUpdated
    rw [mem_variablesWith_iff, mem_variablesWith_iff,
      declarationsOf_alone written apart isThere (foreign name isUpdated)]
  constructor
  · refine arithmetic.mpr (.inr fun line inContract name isChanged => sameKind _ name ?_)
    exact mem_flatMap.mpr ⟨line, inContract, mem_append_left _ isChanged⟩
  · refine callOrder.mpr fun function isFunction => moveInBody_congr ?_
    intro line inBody name isTarget
    refine sameKind _ name (mem_flatMap.mpr ⟨line, ?_, ?_⟩)
    · exact (lists_render (written.names contract member)).mem_of_mem_body isFunction inBody
    · exact mem_append_right _ (Option.mem_toList.mpr isTarget)

/-- A contract that adds to an unsigned total and notes whom it paid. -/
def ledger : Contract :=
  { name := "Ledger"
    stateVariables := [{ name := "total", type := .uint256 },
      { name := "paid", type := .mapping .address .uint256 }]
    functions := [
      { name := "add", body := [.assign "total" (some "1") "+=" none] },
      { name := "pay"
        parameters := [{ name := "to", type := .address }]
        body := [.expression "payable(to).transfer(1)", .set "paid[to]" "1"] }] }

/-- A contract with variables of the same names and of other kinds. -/
def journal : Contract :=
  { name := "Journal"
    stateVariables := [{ name := "total", type := .int256 }, { name := "paid", type := .uint256 }] }

theorem wellWritten_ledger : WellWrittenFile "^0.7.0" [] [ledger, journal] where
  version := by decide
  imports := by decide
  lines := by decide +kernel
  names := by decide +kernel

theorem standsApart_ledger : ∀ contract ∈ [ledger, journal], StandsApart contract := by
  simp only [forall_mem_cons, not_mem_nil, false_implies, implies_true, and_true]
  exact ⟨⟨by decide, by decide +kernel⟩, ⟨by decide, by decide +kernel⟩⟩

theorem ledger_rewritten_alone_iff :
    WellWrittenFile "^0.7.0" [] [ledger, journal] ∧
      (∀ contract ∈ [ledger, journal], StandsApart contract) ∧
      let file := fileLines "^0.7.0" [] [ledger, journal]
      let alone := fileLines "^0.7.0" [] [ledger]
      (blockAfter .arithmetic file 0 = blockAfter .arithmetic alone 0 ↔
        checksArithmetic alone = true ∨ ∀ line ∈ ledger.render, ∀ name ∈ changedNames line,
          (name ∈ variablesWith holdsUnsigned file ↔ name ∈ variablesWith holdsUnsigned alone)) ∧
      (blockAfter .callOrder file 0 = blockAfter .callOrder alone 0 ↔
        ∀ function ∈ functionsOf ledger, moveInBody (tableVariables file) function.body =
          moveInBody (tableVariables alone) function.body) := by
  have isThere : [ledger, journal][0]? = some ledger := rfl
  have ⟨ofArithmetic, ofOrder, _⟩ :=
    contract_rewritten_alone_iff wellWritten_ledger standsApart_ledger isThere
  exact ⟨wellWritten_ledger, standsApart_ledger, ofArithmetic, ofOrder⟩

/-- Next to the other contract, the addition is not checked and the note stays behind the
payment. -/
theorem ledger_rewritten_otherwise :
    blockAfter .arithmetic (fileLines "^0.7.0" [] [ledger, journal]) 0 ≠
        blockAfter .arithmetic (fileLines "^0.7.0" [] [ledger]) 0 ∧
      blockAfter .callOrder (fileLines "^0.7.0" [] [ledger, journal]) 0 ≠
        blockAfter .callOrder (fileLines "^0.7.0" [] [ledger]) 0 := by
  have alone := wellWritten_alone wellWritten_ledger mem_cons_self
  have apart : ∀ contract ∈ [ledger], StandsApart contract := by
    simpa using standsApart_ledger ledger mem_cons_self
  rw [block_arithmetic wellWritten_ledger standsApart_ledger rfl, block_arithmetic alone apart rfl,
    block_callOrder wellWritten_ledger standsApart_ledger rfl, block_callOrder alone apart rfl,
    fileLines, fileLines, lines_renderFile wellWritten_ledger, lines_renderFile alone]
  constructor
  · decide +kernel
  · decide +kernel

end ContractForge.Listing
