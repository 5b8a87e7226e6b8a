import ContractForge.Proofs.Listing.Idempotence

/-!
# Contracts of a file one by one

A file is an opening and the blocks of its contracts. The passes that make code safe rewrite each
block on its own, given which variables are unsigned and which are tables
(`Assembled.contractBlocks_checkArithmetic`, `Assembled.contractBlocks_reorderCalls`). Two ways to
rewrite a block agree exactly if they agree on its lines (`checkBlock_eq_iff`) and on the bodies of
its functions (`rewriteBodies_eq_iff`, `Lists.sections`).
-/

namespace ContractForge.Listing

open Text List

variable {opening lines plain imports : List String} {line header version : String}
  {blocks : List (List String)} {contract : Contract}

/-! ### Blocks -/

/-- The lines ahead of the first contract header, and those from each header up to the next. -/
def contractParts : List String → List String × List (List String)
  | [] => ([], [])
  | line :: rest =>
    let (ahead, blocks) := contractParts rest
    if isContractHeader line then ([], (line :: ahead) :: blocks) else (line :: ahead, blocks)

/-- The contracts of a listing, each from its header up to the next one. -/
def contractBlocks (lines : List String) : List (List String) :=
  (contractParts lines).2

/-- No line is the header of a contract. -/
def Headless (lines : List String) : Prop :=
  ∀ line ∈ lines, isContractHeader line = false

instance (lines : List String) : Decidable (Headless lines) :=
  inferInstanceAs (Decidable (∀ line ∈ lines, _))

/-- A contract header and lines that are none. -/
def IsBlock (lines : List String) : Prop :=
  ∃ header rest, lines = header :: rest ∧ isContractHeader header = true ∧ Headless rest

theorem contractParts_append (headless : Headless plain) :
    contractParts (plain ++ rest) = (plain ++ (contractParts rest).1, (contractParts rest).2) := by
  induction plain with
  | nil => rfl
  | cons _ _ ih =>
    obtain ⟨here, later⟩ := forall_mem_cons.mp headless
    rw [cons_append, contractParts, ih later]
    simp [here]

theorem contractParts_flatten (areBlocks : ∀ block ∈ blocks, IsBlock block) :
    contractParts blocks.flatten = ([], blocks) := by
  induction blocks with
  | nil => rfl
  | cons _ _ ih =>
    obtain ⟨⟨_, _, rfl, isHeader, headless⟩, later⟩ := forall_mem_cons.mp areBlocks
    rw [flatten_cons, cons_append, contractParts, contractParts_append headless, ih later]
    simp [isHeader]

theorem contractBlocks_eq (headless : Headless opening)
    (areBlocks : ∀ block ∈ blocks, IsBlock block) :
    contractBlocks (opening ++ blocks.flatten) = blocks := by
  rw [contractBlocks, contractParts_append headless, contractParts_flatten areBlocks]

/-! ### Checking arithmetic block by block -/

section

variable {unsigned : List String}

/-- Lines with their checked forms. -/
abbrev paired (unsigned lines : List String) : List (String × String) :=
  lines.map fun line => (line, checkLine unsigned line)

theorem paired_cons (line : String) :
    paired unsigned (line :: rest) = (line, checkLine unsigned line) :: paired unsigned rest :=
  rfl

theorem checkLine_of_header (isHeader : isContractHeader line) :
    checkLine unsigned line = line := by
  obtain same | ⟨assignment, -⟩ := checkLine_cases line
  · exact same
  · rw [assignment.noContract] at isHeader
    contradiction

theorem changesBeforeHeader_append (headless : Headless lines)
    (areBlocks : ∀ block ∈ blocks, IsBlock block) :
    changesBeforeHeader (paired unsigned (lines ++ blocks.flatten)) =
      lines.any fun line => line != checkLine unsigned line := by
  induction lines with
  | nil =>
    cases blocks with
    | nil => rfl
    | cons block =>
      obtain ⟨_, _, rfl, isHeader, -⟩ := areBlocks block mem_cons_self
      simp [changesBeforeHeader, isHeader]
  | cons _ _ ih =>
    obtain ⟨here, later⟩ := forall_mem_cons.mp headless
    rw [cons_append, paired_cons, changesBeforeHeader, ih later, any_cons]
    simp [here]

theorem attachLibrary_headless (headless : Headless lines) :
    attachLibrary (paired unsigned (lines ++ rest)) =
      lines.map (checkLine unsigned) ++ attachLibrary (paired unsigned rest) := by
  induction lines with
  | nil => rfl
  | cons _ _ ih =>
    obtain ⟨here, later⟩ := forall_mem_cons.mp headless
    rw [cons_append, paired_cons, attachLibrary, ih later]
    simp [here]

/-- The lines that attach the library to a contract with the given lines behind its header. -/
def attachment (unsigned : List String) (header : String) (rest : List String) : List String :=
  if rest.any fun line => line != checkLine unsigned line then
    libraryLines header (((paired unsigned rest).head?.map Prod.snd).getD "")
  else []

/-- A block with its lines checked and the library attached to it. -/
def checkBlock (unsigned : List String) : List String → List String
  | [] => []
  | header :: rest =>
    header :: (attachment unsigned header rest ++ rest.map (checkLine unsigned))

theorem attachLibrary_flatten
    (areBlocks : ∀ block ∈ blocks, IsBlock block) (filled : ∀ block ∈ blocks, 1 < block.length) :
    attachLibrary (paired unsigned blocks.flatten) =
      (blocks.map (checkBlock unsigned)).flatten := by
  induction blocks with
  | nil => rfl
  | cons _ _ ih =>
    obtain ⟨⟨_, _, rfl, isHeader, headless⟩, later⟩ := forall_mem_cons.mp areBlocks
    obtain ⟨some, laterFilled⟩ := forall_mem_cons.mp filled
    obtain ⟨_, _, rfl⟩ := exists_cons_of_ne_nil (ne_nil_of_length_pos (Nat.lt_of_succ_lt_succ some))
    rw [map_cons, flatten_cons, flatten_cons, cons_append, paired_cons,
      attachLibrary, attachLibrary_headless headless, ih later laterFilled,
      changesBeforeHeader_append headless later, checkLine_of_header isHeader, isHeader,
      Bool.true_and, checkBlock, attachment]
    split
    all_goals simp

theorem attachment_subset (isHeader : isContractHeader header) :
    attachment unsigned header rest ⊆ libraryTexts := by
  unfold attachment
  split
  · exact libraryLines_subset isHeader _
  · exact nil_subset _

theorem headless_of_library (library : lines ⊆ libraryTexts) : Headless lines :=
  fun line mem => (isStatement_of_library line (library mem)).noContract

theorem headless_append (ofFront : Headless front)
    (ofBack : Headless back) : Headless (front ++ back) :=
  fun line mem => (mem_append.mp mem).elim (ofFront line) (ofBack line)

theorem headless_map_checkLine (headless : Headless lines) :
    Headless (lines.map (checkLine unsigned)) := by
  intro _ mem
  obtain ⟨original, isOriginal, rfl⟩ := mem_map.mp mem
  rw [isContractHeader_checkLine]
  exact headless original isOriginal

theorem isBlock_checkBlock (isBlock : IsBlock block) : IsBlock (checkBlock unsigned block) := by
  obtain ⟨header, rest, rfl, isHeader, headless⟩ := isBlock
  exact ⟨header, _, rfl, isHeader, headless_append
    (headless_of_library (attachment_subset isHeader)) (headless_map_checkLine headless)⟩

theorem checkBlock_eq_self (unchanged : ∀ line ∈ block, checkLine unsigned line = line) :
    checkBlock unsigned block = block := by
  cases block with
  | nil => rfl
  | cons _ rest =>
    obtain ⟨-, ofRest⟩ := forall_mem_cons.mp unchanged
    have quiet : (rest.any fun line => line != checkLine unsigned line) = false := by
      rw [any_eq_false]
      intro line mem
      simp [ofRest line mem]
    rw [checkBlock, attachment, quiet, map_congr_left ofRest]
    simp

/-- Two ways to check a block agree exactly if they agree on every line. -/
theorem checkBlock_eq_iff (isBlock : IsBlock block) :
    checkBlock unsigned block = checkBlock others block ↔
      ∀ line ∈ block, checkLine unsigned line = checkLine others line := by
  obtain ⟨header, rest, rfl, isHeader, -⟩ := isBlock
  rw [forall_mem_cons, checkLine_of_header isHeader, checkLine_of_header isHeader]
  constructor
  · intro same
    have sameTail := (List.cons.inj same).2
    have sameLength : (attachment unsigned header rest).length =
        (attachment others header rest).length := by
      have lengths := congrArg List.length sameTail
      simpa using lengths
    exact ⟨rfl, map_inj_left.mp (append_inj sameTail sameLength).2⟩
  · rintro ⟨-, same⟩
    have samePairs : paired unsigned rest = paired others rest :=
      map_congr_left fun line mem => by rw [same line mem]
    have sameTest : (rest.any fun line => line != checkLine unsigned line) =
        rest.any fun line => line != checkLine others line := by
      rw [Bool.eq_iff_iff, any_eq_true, any_eq_true]
      exact exists_congr fun line => and_congr_right fun mem => by rw [same line mem]
    rw [checkBlock, checkBlock, attachment, attachment, samePairs, sameTest, map_congr_left same]

/-- The library is imported within the opening if there is a pragma ahead of its last line. -/
theorem importLibrary_append (headless : Headless opening) (isLast : isContractHeader last = false)
    (isPragma : ∃ line ∈ opening, (pragmaConstraint? line).isSome) :
    ∃ extended, Headless extended ∧
      importLibrary (opening ++ [last] ++ rest) = some (extended ++ rest) := by
  have isImport : isContractHeader libraryImport = false := by decide
  have isBlank : isContractHeader "" = false := by decide
  induction opening with
  | nil => simp at isPragma
  | cons line opening ih =>
    obtain ⟨here, later⟩ := forall_mem_cons.mp headless
    have whole : Headless (opening ++ [last]) :=
      headless_append later (by simpa [Headless] using isLast)
    rw [cons_append, cons_append]
    unfold importLibrary
    cases found : (pragmaConstraint? line).isSome with
    | false =>
      have inRest : ∃ line ∈ opening, (pragmaConstraint? line).isSome := by
        obtain ⟨pragma, mem, isThere⟩ := isPragma
        obtain rfl | inOpening := mem_cons.mp mem
        · rw [found] at isThere
          contradiction
        · exact ⟨pragma, inOpening, isThere⟩
      obtain ⟨extended, ofExtended, isExtended⟩ := ih later inRest
      refine ⟨line :: extended, forall_mem_cons.mpr ⟨here, ofExtended⟩, ?_⟩
      rw [isExtended]
      rfl
    | true =>
      have below : ∃ extended, Headless extended ∧
          some (line :: "" :: libraryImport :: (opening ++ [last] ++ rest)) =
            some (extended ++ rest) := by
        refine ⟨line :: "" :: libraryImport :: (opening ++ [last]), ?_, rfl⟩
        exact forall_mem_cons.mpr ⟨here, forall_mem_cons.mpr ⟨isBlank,
          forall_mem_cons.mpr ⟨isImport, whole⟩⟩⟩
      obtain ⟨first, others, isWhole⟩ : ∃ first others, opening ++ [last] = first :: others :=
        exists_cons_of_ne_nil (by simp)
      rw [isWhole] at whole below ⊢
      obtain ⟨ofFirst, ofOthers⟩ := forall_mem_cons.mp whole
      rw [if_pos rfl]
      split
      · rename_i same
        obtain ⟨rfl, isMore⟩ := List.cons.inj same
        split
        · refine ⟨line :: first :: libraryImport :: others, ?_, ?_⟩
          · exact forall_mem_cons.mpr ⟨here, forall_mem_cons.mpr ⟨ofFirst,
              forall_mem_cons.mpr ⟨isImport, ofOthers⟩⟩⟩
          · rw [← isMore]
            rfl
        · exact below
      · exact below

end

/-! ### Moving updates block by block -/

section

variable {lines : List String} (written : WrittenFunction)

def WrittenFunction.body (written : WrittenFunction) : List String :=
  Statement.renderAll 2 written.1.body

def WrittenFunction.first (written : WrittenFunction) : String :=
  indented 1 (written.1.header written.2 ++ " \x7b")

theorem WrittenFunction.lines_append :
    written.lines ++ rest =
      written.first :: (written.body ++ indented 1 "\x7d" :: rest) := by
  simp [WrittenFunction.lines_eq, WrittenFunction.first, WrittenFunction.body]

theorem WrittenFunction.closing_notMem :
    FunctionHeader.closing ⟨indentation 1, written.1.name⟩ ∉ written.body :=
  fun mem => (bodyLine_renderAll 2 written.1.body _ mem).ne_closing rfl

theorem rewriteBodies_lines {written : WrittenFunction} (word : isWord written.1.name) :
    rewriteBodies rewrite (written.lines ++ rest) =
      written.first ::
        (rewrite written.body ++ indented 1 "\x7d" :: rewriteBodies rewrite rest) := by
  have closing : functionHeader? (indented 1 "\x7d") = none := by decide
  rw [written.lines_append, WrittenFunction.first,
    rewriteBodies_function (functionHeader?_header word) written.closing_notMem ?_,
    rewriteBodies_outside closing]
  intro _ isNext
  cases isNext
  rfl

/-- What follows functions does not change how they are rewritten. -/
theorem Lists.rewriteBodies_append (listed : Lists lines functions) (rest : List String) :
    rewriteBodies rewrite (lines ++ rest) =
      rewriteBodies rewrite lines ++ rewriteBodies rewrite rest := by
  induction listed with
  | nil => rw [rewriteBodies_nil, nil_append, nil_append]
  | plain other _ ih =>
    rw [cons_append, rewriteBodies_outside other, rewriteBodies_outside other, ih, cons_append]
  | function word _ ih =>
    rw [append_assoc, rewriteBodies_lines word, rewriteBodies_lines word, ih]
    simp

theorem Lists.sections (listed : Lists lines functions) :
    Sections lines (functions.map WrittenFunction.body) := by
  induction listed with
  | nil => exact .nil
  | plain other _ ih => exact .outside other ih
  | @function written rest functions word later ih =>
    rw [written.lines_append]
    exact .function (functionHeader?_header word)
      (fun line mem => (bodyLine_renderAll 2 written.1.body _ mem).plain)
      written.closing_notMem (by simp [FunctionHeader.closing]; rfl) (.outside (by decide) ih)

end

/-! ### Listings that are put together of blocks -/

/-- A listing that is put together of an opening, which ends with a blank line, and of blocks. -/
structure Assembled (lines opening : List String) (blocks : List (List String)) : Prop where
  lines : lines = opening ++ [""] ++ blocks.flatten
  opening : Headless opening
  areBlocks : ∀ block ∈ blocks, IsBlock block
  filled : ∀ block ∈ blocks, 1 < block.length
  noPragma : ∀ block ∈ blocks, ∀ line ∈ block, pragmaConstraint? line = none

namespace Assembled

variable {lines opening : List String} {blocks : List (List String)}
  (assembled : Assembled lines opening blocks)
include assembled

theorem headless : Headless (opening ++ [""]) :=
  headless_append assembled.opening (by decide)

/-- The blocks of a listing that stays as it is. -/
theorem contractBlocks_eq : contractBlocks lines = blocks := by
  rw [assembled.lines]
  exact Listing.contractBlocks_eq assembled.headless assembled.areBlocks

theorem exists_pragma (unchecked : checksArithmetic lines = false) :
    ∃ line ∈ opening, (pragmaConstraint? line).isSome := by
  obtain ⟨line, mem, isPragma⟩ := Listing.exists_pragma unchecked
  rw [assembled.lines] at mem
  simp only [mem_append, mem_singleton, mem_flatten] at mem
  obtain (inOpening | rfl) | ⟨block, isBlock, inBlock⟩ := mem
  · exact ⟨line, inOpening, isPragma⟩
  · contradiction
  · rw [assembled.noPragma block isBlock line inBlock] at isPragma
    contradiction

/-- All lines of blocks but the first header are behind it. -/
theorem mem_behindHeader (isBlock : block ∈ blocks) (mem : line ∈ block)
    (other : isContractHeader line = false) : line ∈ behindHeader lines := by
  have inBlocks : line ∈ blocks.flatten := mem_flatten_of_mem isBlock mem
  rw [assembled.lines, behindHeader_append assembled.headless]
  cases blocks with
  | nil => contradiction
  | cons =>
    obtain ⟨_, _, rfl, isHeader, -⟩ := assembled.areBlocks _ mem_cons_self
    rw [flatten_cons, cons_append] at inBlocks ⊢
    rw [behindHeader_cons, if_pos isHeader]
    obtain rfl | later := mem_cons.mp inBlocks
    · rw [isHeader] at other
      contradiction
    · exact later

/-- Without checked arithmetic, every block is checked on its own. -/
theorem contractBlocks_checkArithmetic (unchecked : checksArithmetic lines = false) :
    contractBlocks (checkArithmetic lines).1 =
      blocks.map (checkBlock (variablesWith holdsUnsigned lines)) := by
  generalize isUnsigned : variablesWith holdsUnsigned lines = unsigned
  have areChecked : ∀ block ∈ blocks.map (checkBlock unsigned), IsBlock block := by
    intro _ mem
    obtain ⟨original, isOriginal, rfl⟩ := mem_map.mp mem
    exact isBlock_checkBlock (assembled.areBlocks original isOriginal)
  have attached : attachLibrary (paired unsigned lines) =
      opening.map (checkLine unsigned) ++ [""] ++ (blocks.map (checkBlock unsigned)).flatten := by
    have blank : checkLine unsigned "" = "" := checkLine_of_library (by decide)
    rw [assembled.lines, attachLibrary_headless assembled.headless,
      attachLibrary_flatten assembled.areBlocks assembled.filled, map_append,
      map_singleton, blank]
  have opens : Headless (opening.map (checkLine unsigned)) :=
    headless_map_checkLine assembled.opening
  cases changes : changesContract (paired unsigned lines) with
  | false =>
    have same : (checkArithmetic lines).1 = lines := by
      apply checkArithmetic_unneeded
      rw [needsChecks, isUnsigned, changesBehind, ← changesContract_eq, changes, Bool.and_false]
    rw [changesContract_eq, any_eq_false] at changes
    have unchanged : ∀ block ∈ blocks, checkBlock unsigned block = block := by
      intro _ isBlock
      refine checkBlock_eq_self fun line mem => ?_
      cases isHeader : isContractHeader line with
      | true => exact checkLine_of_header isHeader
      | false =>
        have kept := changes line (assembled.mem_behindHeader isBlock mem isHeader)
        exact (by simpa using kept : line = _).symm
    rw [same, assembled.contractBlocks_eq, map_congr_left unchanged, map_id']
  | true =>
    have isComplete : ∃ extended, Headless extended ∧ (checkArithmetic lines).1 =
        extended ++ (blocks.map (checkBlock unsigned)).flatten := by
      unfold checkArithmetic
      simp only [unchecked, isUnsigned, changes, Bool.false_eq_true, if_false, Bool.not_true]
      rw [attached]
      split
      · exact ⟨_, headless_append opens (by decide), rfl⟩
      · have blank : isContractHeader "" = false := by decide
        have isPragma : ∃ line ∈ opening.map (checkLine unsigned),
            (pragmaConstraint? line).isSome := by
          obtain ⟨_, mem, _⟩ := assembled.exists_pragma unchecked
          exact ⟨_, mem_map_of_mem mem, by rwa [pragmaConstraint?_checkLine]⟩
        obtain ⟨extended, headless, isExtended⟩ := importLibrary_append opens blank isPragma
        rw [isExtended]
        exact ⟨extended, headless, rfl⟩
    obtain ⟨_, headless, isExtended⟩ := isComplete
    rw [isExtended]
    exact Listing.contractBlocks_eq headless areChecked

end Assembled

/-- Blocks with functions in them, one after another. -/
theorem lists_flatten (listed : Forall₂ Lists blocks functions) :
    Lists blocks.flatten functions.flatten := by
  induction listed with
  | nil => exact .nil
  | cons here _ ih => exact here.append ih

theorem rewriteBodies_flatten (listed : Forall₂ Lists blocks functions) :
    rewriteBodies rewrite blocks.flatten = (blocks.map (rewriteBodies rewrite)).flatten := by
  induction listed with
  | nil => exact rewriteBodies_nil rewrite
  | cons here _ ih =>
    rw [flatten_cons, here.rewriteBodies_append, ih, map_cons, flatten_cons]

theorem isBlock_rewriteBodies {functions : List WrittenFunction}
    (perm : ∀ body, (rewrite body).Perm body)
    (listed : Lists block functions) (isBlock : IsBlock block) :
    IsBlock (rewriteBodies rewrite block) := by
  obtain ⟨header, rest, rfl, isHeader, headless⟩ := isBlock
  have first := head?_rewriteBodies rewrite (header :: rest)
  obtain ⟨others, isOthers⟩ := head?_eq_some_iff.mp first
  have whole := rewriteBodies_perm perm listed.sections
  rw [isOthers] at whole ⊢
  exact ⟨header, others, rfl, isHeader,
    fun line mem => headless line (whole.cons_inv.mem_iff.mp mem)⟩

/-- The updates of every block are moved on their own. -/
theorem Assembled.contractBlocks_reorderCalls (assembled : Assembled lines opening blocks)
    (plain : ∀ line ∈ opening, functionHeader? line = none)
    (listed : Forall₂ Lists blocks functions) :
    contractBlocks (reorderCalls lines).1 =
      blocks.map (rewriteBodies (moveInBody (tableVariables lines))) := by
  have ofOpening : Lists (opening ++ [""]) [] := by
    refine .of_plain fun line mem => ?_
    obtain inOpening | blank := mem_append.mp mem
    · exact plain line inOpening
    · rw [mem_singleton.mp blank]
      rfl
  have whole := ofOpening.append (lists_flatten listed)
  rw [← assembled.lines] at whole
  rw [reorderCalls_rewrites whole.sections]
  have perm := moveInBody_perm (tableVariables lines)
  generalize moveInBody (tableVariables lines) = rewrite at perm ⊢
  have kept : rewriteBodies rewrite (opening ++ [""]) = opening ++ [""] := by
    have agree := rewriteBodies_eq_iff ofOpening.sections fun body => (perm body).length_eq
    exact (agree.mpr (by simp)).trans (rewriteBodies_id ofOpening.sections)
  rw [assembled.lines, ofOpening.rewriteBodies_append, kept, rewriteBodies_flatten listed]
  refine Listing.contractBlocks_eq assembled.headless fun block mem => ?_
  obtain ⟨_, isOriginal, rfl⟩ := mem_map.mp mem
  obtain ⟨_, inside, rfl⟩ := getElem_of_mem isOriginal
  exact isBlock_rewriteBodies perm (listed.get inside (listed.length_eq ▸ inside))
    (assembled.areBlocks _ isOriginal)

/-! ### Files -/

/-- What is asked of a contract that stands in a file with others: it has a name, and none of its
lines is taken for a pragma. -/
structure StandsApart (contract : Contract) : Prop where
  name : isWord contract.name = true
  noPragma : ∀ line ∈ contract.render, pragmaConstraint? line = none

/-- The lines of a file up to the blank line ahead of its contracts. -/
def fileOpening (version : String) (imports : List String) : List String :=
  [""].intercalate (headerLines version :: if imports.isEmpty then [] else [imports])

theorem mem_fileOpening (mem : line ∈ fileOpening version imports) :
    line = "// SPDX-License-Identifier: MIT" ∨ line = "pragma solidity " ++ version ++ ";" ∨
      line = "" ∨ line ∈ imports := by
  unfold fileOpening headerLines at mem
  split at mem
  · simp only [intercalate_singleton, mem_cons, not_mem_nil, or_false] at mem
    exact mem.imp_right .inl
  · simp only [intercalate_cons_cons, intercalate_singleton, mem_append,
      mem_cons, not_mem_nil, or_false] at mem
    obtain ((isFirst | isSecond) | isBlank) | inImports := mem
    · exact .inl isFirst
    · exact .inr (.inl isSecond)
    · exact .inr (.inr (.inl isBlank))
    · exact .inr (.inr (.inr inImports))

theorem intercalate_blank (some : blocks ≠ []) :
    [""].intercalate blocks ++ [""] = (blocks.map (· ++ [""])).flatten := by
  induction blocks with
  | nil => contradiction
  | cons _ blocks ih =>
    cases blocks with
    | nil => simp [List.intercalate]
    | cons =>
      rw [intercalate_cons_cons, append_assoc, ih (by simp)]
      rfl

theorem isContractHeader_header (word : isWord contract.name) :
    isContractHeader (indented 0 (contract.header ++ " \x7b")) := by
  obtain ⟨named, areWordChars⟩ := isWord_iff.mp word
  have stop : isWordChar ' ' = false := by decide
  obtain ⟨tail, isTail, isLast⟩ : ∃ tail, (indented 0 (contract.header ++ " \x7b")).toList =
      (if contract.kind == .inheritedOnly then "abstract ".toList else []) ++
        ("contract ".toList ++ (contract.name.toList ++ ' ' :: tail)) ∧
      (' ' :: tail).getLast? = some '\x7b' := by
    refine ⟨(if contract.parents.isEmpty then [] else
      "is ".toList ++ ((commaSeparated contract.parents).toList ++ [' '])) ++ ['\x7b'], ?_, ?_⟩
    · rw [indented_toList, Contract.header]
      cases contract.kind <;> cases contract.parents.isEmpty <;> simp
    · simp [getLast?_cons]
  have isName : after? "contract " ((after? "abstract "
      (indented 0 (contract.header ++ " \x7b")).toList).getD
        (indented 0 (contract.header ++ " \x7b")).toList) =
      some (contract.name.toList ++ ' ' :: tail) := by
    rw [isTail, after?_eq_some]
    cases contract.kind with
    | inheritedOnly =>
      rfl
    | deployable => simp [after?]
  rw [isContractHeader, isName]
  simp only [word?_append named areWordChars stop, Option.any_some, isLast, beq_self_eq_true]

theorem getLast?_of_isContractHeader (isHeader : isContractHeader line) :
    line.toList.getLast? = some '\x7b' := by
  unfold isContractHeader at isHeader
  dsimp only at isHeader
  generalize isText : (after? "abstract " line.toList).getD line.toList = text at isHeader
  have inLine : text <:+ line.toList := by
    cases isAbstract : after? "abstract " line.toList with
    | none =>
      rw [isAbstract] at isText
      exact isText ▸ suffix_refl _
    | some =>
      rw [isAbstract] at isText
      exact isText ▸ suffix_of_after? isAbstract
  cases isContract : after? "contract " text with
  | none => simp [isContract] at isHeader
  | some rest =>
    rw [isContract] at isHeader
    obtain ⟨⟨_, tail⟩, isName, isLast⟩ := (Option.any_eq_true _ _).mp isHeader
    have inRest : tail <:+ rest := by
      unfold word? at isName
      split at isName
      · contradiction
      · cases isName
        exact dropWhile_suffix _
    exact getLast?_of_suffix ((inRest.trans (suffix_of_after? isContract)).trans inLine)
      (by simpa using isLast)

theorem isContractHeader_of_semicolon (ends : line.toList.getLast? = some ';') :
    isContractHeader line = false := by
  cases isHeader : isContractHeader line with
  | false => rfl
  | true =>
    rw [getLast?_of_isContractHeader isHeader] at ends
    exact absurd (Option.some.inj ends) (by decide)

theorem isContractHeader_of_blank (isBlank : line.toList.head? = some ' ') :
    isContractHeader line = false := by
  cases isHeader : isContractHeader line with
  | false => rfl
  | true =>
    obtain ⟨_, isFirst, _, -⟩ := head?_of_isContractHeader isHeader
    rw [isBlank] at isFirst
    cases isFirst
    contradiction

theorem headless_map_indented (texts : List String) : Headless (texts.map (indented 1)) := by
  intro _ mem
  obtain ⟨-, -, rfl⟩ := mem_map.mp mem
  apply isContractHeader_of_blank
  rw [indented_toList]
  rfl

theorem headless_function (written : WrittenFunction) : Headless written.lines := by
  intro line _
  apply isContractHeader_of_blank
  have inLines : line ∈ written.lines ++ [] := by rwa [append_nil]
  rw [written.lines_append, mem_cons, mem_append, mem_singleton] at inLines
  obtain rfl | inBody | rfl := inLines
  · rw [WrittenFunction.first, indented_toList]
    rfl
  · obtain ⟨_, shape⟩ := (bodyLine_renderAll 2 written.1.body line inBody).deep
    rw [shape]
    rfl
  · rfl

theorem headless_sections (contract : Contract) :
    ∀ lines ∈ contract.sections 1, Headless lines := by
  have declared : ∀ texts, ∀ lines ∈ Contract.declarationSection 1 texts, Headless lines := by
    intro texts _ mem
    unfold Contract.declarationSection at mem
    split at mem
    · contradiction
    · rw [mem_singleton.mp mem]
      exact headless_map_indented texts
  intro lines mem
  rw [sections_eq, declarationSections] at mem
  simp only [mem_append, mem_map] at mem
  obtain ((inPart | inPart) | inPart) | ⟨written, -, rfl⟩ := mem
  · exact declared _ lines inPart
  · exact declared _ lines inPart
  · exact declared _ lines inPart
  · exact headless_function written

theorem isBlock_render (word : isWord contract.name) : IsBlock (contract.render ++ [""]) := by
  have inner : Headless ([""].intercalate (contract.sections 1)) := by
    by_cases none : contract.sections 1 = []
    · rw [none]
      exact fun line mem => absurd mem not_mem_nil
    · intro line mem
      have inWhole := mem_append_left [""] mem
      rw [intercalate_blank none, mem_flatten] at inWhole
      obtain ⟨_, isPart, inLines⟩ := inWhole
      obtain ⟨part, inSections, rfl⟩ := mem_map.mp isPart
      obtain inPart | blank := mem_append.mp inLines
      · exact headless_sections contract part inSections line inPart
      · rw [mem_singleton.mp blank]
        decide
  refine ⟨_, _, rfl, isContractHeader_header word, ?_⟩
  exact headless_append (headless_append inner (by decide)) (by decide)

/-- A file is put together of its opening and its contracts, each with a blank line behind it. -/
theorem assembled_renderFile (written : WellWrittenFile version imports contracts)
    (apart : ∀ contract ∈ contracts, StandsApart contract) :
    Assembled (Text.lines (renderFile version imports contracts)) (fileOpening version imports)
      (contracts.map fun contract => contract.render ++ [""]) where
  lines := by
    rw [lines_renderFile written, intercalate_blank (by simp [fileBlocks]), fileBlocks,
      map_append, flatten_append, map_map, fileOpening, intercalate_blank (by simp)]
    rfl
  opening := by
    intro line mem
    obtain rfl | rfl | rfl | inImports := mem_fileOpening mem
    · decide
    · exact isContractHeader_of_semicolon (by simp [getLast?_cons])
    · decide
    · exact isContractHeader_of_semicolon (written.imports line inImports).2
  areBlocks := by
    intro _ mem
    obtain ⟨contract, isContract, rfl⟩ := mem_map.mp mem
    exact isBlock_render (apart contract isContract).name
  filled := by
    intro _ mem
    obtain ⟨-, -, rfl⟩ := mem_map.mp mem
    simp [Contract.render]
  noPragma := by
    intro _ mem line inBlock
    obtain ⟨contract, isContract, rfl⟩ := mem_map.mp mem
    obtain inContract | blank := mem_append.mp inBlock
    · exact (apart contract isContract).noPragma line inContract
    · rw [mem_singleton.mp blank]
      decide

end ContractForge.Listing
