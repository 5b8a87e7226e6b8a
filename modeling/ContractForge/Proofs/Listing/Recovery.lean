import ContractForge.Proofs.Listing.Rendered

/-!
# Reading a file back

Functions are found in a listing by their headers and by the first brace that is
indented like the header, and the statements of a body by the lines that are
indented like the body. Neither looks at what is between. The main statement,
`functionSpans_recover_functions`, says that this is enough: in a written file
both find what was written, however deep the statements are nested.
-/

namespace ContractForge.Listing

open Text List

variable {text : String} {body : List Statement}

/-! ### Statements of a body -/

mutual

/-- The statements that are written in place of a statement. Those before a loop come first, each
on its own. -/
def unfolded : Statement → List Statement
  | .loop head body before => unfoldedAll before ++ [.loop head body []]
  | statement => [statement]

/-- The statements that are written in place of several ones. -/
def unfoldedAll : List Statement → List Statement
  | [] => []
  | statement :: rest => unfolded statement ++ unfoldedAll rest

end

/-- A text does not start with a character of the given kind. -/
def startsOutside (kind : Char → Bool) (text : String) : Bool :=
  text.toList.head?.all fun c => !kind c

/-- A statement does not start with a character of the given kind, and a conditional has a
condition to start with. -/
def opensOutside (kind : Char → Bool) : Statement → Bool
  | .assign target value operator declaredType =>
    startsOutside kind (Statement.assignText target value operator declaredType)
  | .expression text => startsOutside kind text
  | .conditional branches _ => !branches.isEmpty
  | _ => true

/-- A character that no statement of a body starts with: a blank, or the brace that ends one. -/
def continuesStatement (c : Char) : Bool :=
  isBlankChar c || c == '\x7d'

/-- Nothing stands before a loop. -/
def isAlone : Statement → Bool
  | .loop _ _ before => before.isEmpty
  | _ => true

theorem renderAll_eq_flatten (statements : List Statement) :
    Statement.renderAll level statements = (statements.map (Statement.render level)).flatten := by
  induction statements with
  | nil => rfl
  | cons _ _ ih =>
    simp [Statement.renderAll, ih]

mutual

theorem unfolded_spec : ∀ statement : Statement,
    (∀ part ∈ unfolded statement, isAlone part) ∧
      Statement.renderAll level (unfolded statement) = statement.render level
  | .loop _ _ before => by
    obtain ⟨areAlone, isWritten⟩ := unfoldedAll_spec level before
    refine ⟨forall_mem_append.mpr ⟨areAlone, forall_mem_singleton.mpr rfl⟩, ?_⟩
    rw [renderAll_eq_flatten] at isWritten ⊢
    simp [unfolded, isWritten, Statement.render, Statement.renderAll]
  | .assign .. | .conditional .. | .require .. | .emit .. | .expression _ | .returnValue _
  | .revert _ | .breakLoop | .continueLoop => by simp [unfolded, isAlone, Statement.renderAll]

/-- The same lines are written in place of statements, each on its own. -/
theorem unfoldedAll_spec (level : Int) : ∀ statements : List Statement,
    (∀ part ∈ unfoldedAll statements, isAlone part) ∧
      Statement.renderAll level (unfoldedAll statements) = Statement.renderAll level statements
  | [] => by simp [unfoldedAll]
  | statement :: rest => by
    obtain ⟨isAlone, isWritten⟩ := unfolded_spec statement
    obtain ⟨areAlone, areWritten⟩ := unfoldedAll_spec level rest
    refine ⟨forall_mem_append.mpr ⟨isAlone, areAlone⟩, ?_⟩
    rw [renderAll_eq_flatten] at isWritten areWritten ⊢
    rw [unfoldedAll, map_append, flatten_append, isWritten, areWritten, Statement.renderAll]

end

/-! ### Lines at which statements start -/

section

theorem startsStatement_indented :
    startsStatement (indentation level) (indented level text) =
      startsOutside continuesStatement text := by
  have after : after? (indentation level) (indented level text).toList = some text.toList := by
    rw [after?_eq_some, indented, String.toList_append]
  unfold startsStatement
  rw [after, startsOutside]
  cases text.toList with
  | nil | cons => rfl

/-- A line that is indented further belongs to the statement before it. -/
theorem BodyLine.not_startsStatement (outer : 0 ≤ level)
    (inside : BodyLine (level + 1) line) : startsStatement (indentation level) line = false := by
  obtain ⟨rest, shape⟩ := inside.deep
  have deeper : 4 * (level + 1).toNat = 4 * level.toNat + 4 := by omega
  have after : after? (indentation level) line.toList =
      some (' ' :: (replicate 3 ' ' ++ rest)) := by
    rw [after?_eq_some, shape, deeper, ← replicate_append_replicate]
    simp [indentation]
  rw [startsStatement, after]
  rfl

theorem not_startsStatement_brace (rest : String) :
    startsStatement (indentation level) (indented level ("\x7d" ++ rest)) = false := by
  rw [startsStatement_indented, startsOutside, String.toList_append]
  rfl

theorem not_startsStatement_renderAll (outer : 0 ≤ level) (body : List Statement) :
    ∀ line ∈ Statement.renderAll (level + 1) body,
      startsStatement (indentation level) line = false := by
  intro line mem
  exact (bodyLine_renderAll (level + 1) body line mem).not_startsStatement outer

/-- The later conditions of a conditional belong to it. -/
theorem not_startsStatement_renderBranches (outer : 0 ≤ level) :
    ∀ line ∈ Statement.renderBranches level false branches,
      startsStatement (indentation level) line = false := by
  induction branches with
  | nil => simp [Statement.renderBranches]
  | cons branch _ ih =>
    obtain ⟨-, body⟩ := branch
    intro line mem
    rw [Statement.renderBranches, mem_append, mem_cons] at mem
    rcases mem with (rfl | inBody) | later
    · rw [startsStatement_indented]
      simp [startsOutside, continuesStatement]
    · exact not_startsStatement_renderAll outer body line inBody
    · exact ih line later

theorem not_startsStatement_renderOtherwise (outer : 0 ≤ level) :
    ∀ line ∈ Statement.renderOtherwise level otherwise,
      startsStatement (indentation level) line = false := by
  cases otherwise with
  | none => simp [Statement.renderOtherwise]
  | some body =>
    intro line mem
    rw [Statement.renderOtherwise, mem_cons] at mem
    rcases mem with rfl | inBody
    · exact not_startsStatement_brace " else \x7b"
    · exact not_startsStatement_renderAll outer body line inBody

/-- The characters that statements start with, apart from those that start with a text of their
own. -/
def openers : List Char :=
  ['i', 'f', 'w', 'r', 'e', 'b', 'c', ';']

/-- A statement is written as one: its first line is its beginning, and the others continue it. -/
theorem render_eq_cons (outer : 0 ≤ level) (others : openers.all (fun c => !kind c))
    {statement : Statement} (alone : isAlone statement) (plain : opensOutside kind statement) :
    ∃ text others, statement.render level = indented level text :: others ∧
      startsOutside kind text ∧
      ∀ line ∈ others, startsStatement (indentation level) line = false := by
  simp only [openers, all_cons, Bool.and_eq_true] at others
  obtain ⟨i, f, w, r, e, b, c, semicolon, -⟩ := others
  have single {text : String} (rendered : statement.render level = [indented level text])
      (visible : startsOutside kind text) :
      ∃ text others, statement.render level = indented level text :: others ∧
        startsOutside kind text ∧
        ∀ line ∈ others, startsStatement (indentation level) line = false :=
    ⟨text, [], rendered, visible, by simp⟩
  cases statement with
  | assign => exact single (by rw [Statement.render]) plain
  | conditional branches otherwise =>
    cases branches with
    | nil => contradiction
    | cons branch rest =>
      obtain ⟨-, body⟩ := branch
      refine ⟨_, _, by rfl, by simp [startsOutside, i], ?_⟩
      intro line mem
      simp only [append_eq, mem_append, mem_singleton] at mem
      rcases mem with ((inBody | inRest) | inOtherwise) | rfl
      · exact not_startsStatement_renderAll outer body line inBody
      · exact not_startsStatement_renderBranches outer line inRest
      · exact not_startsStatement_renderOtherwise outer line inOtherwise
      · exact not_startsStatement_brace ""
  | loop head body before =>
    obtain rfl : before = [] := by simpa [isAlone] using alone
    refine ⟨_, _, by rfl, ?_, ?_⟩
    · cases head with
      | counted => simp [Statement.headText, startsOutside, f]
      | whileTrue => simp [Statement.headText, startsOutside, w]
    · intro line mem
      rcases mem_append.mp mem with inBody | last
      · exact not_startsStatement_renderAll outer body line inBody
      · rw [mem_singleton.mp last]
        exact not_startsStatement_brace ""
  | require _ message | returnValue message | revert message =>
    cases message <;> exact single (by rw [Statement.render]) (by simp [startsOutside, r])
  | emit => exact single (by rw [Statement.render]) (by simp [startsOutside, e])
  | expression text =>
    refine single (by rw [Statement.render]) ?_
    unfold opensOutside startsOutside at plain
    unfold startsOutside
    cases shape : text.toList with
    | nil => simp [shape, semicolon]
    | cons => simpa [shape] using plain
  | breakLoop => exact single (by rw [Statement.render]) (by simp [startsOutside, b])
  | continueLoop => exact single (by rw [Statement.render]) (by simp [startsOutside, c])

end

/-! ### Cutting a body -/

/-- The statements of a written body are found again. -/
theorem statementGroups_renderAll (outer : 0 ≤ level)
    (plain : ∀ statement ∈ unfoldedAll body, opensOutside continuesStatement statement) :
    statementGroups (indentation level) (Statement.renderAll level body) =
      (unfoldedAll body).map (Statement.render level) := by
  obtain ⟨areAlone, isWritten⟩ := unfoldedAll_spec level body
  rw [← isWritten, renderAll_eq_flatten]
  refine Cut.statementGroups_flatten fun _ mem => ?_
  obtain ⟨statement, inBody, rfl⟩ := mem_map.mp mem
  obtain ⟨_, others, rendered, visible, continues⟩ := render_eq_cons outer rfl
    (areAlone statement inBody) (plain statement inBody)
  exact ⟨_, others, rendered, startsStatement_indented.trans visible, continues⟩

theorem takeWhile_isSpace_indented (visible : startsOutside isSpace text) :
    String.ofList ((indented level text).toList.takeWhile isSpace) = indentation level := by
  have spaces : ∀ c ∈ (indentation level).toList, isSpace c := by
    intro _ mem
    rw [indentation, String.toList_ofList] at mem
    rw [eq_of_mem_replicate mem]
    rfl
  have stops : text.toList.takeWhile isSpace = [] := by
    unfold startsOutside at visible
    cases shape : text.toList with
    | nil => rfl
    | cons =>
      rw [shape] at visible
      exact takeWhile_cons_of_neg (by simpa using visible)
  rw [indented, String.toList_append, takeWhile_append_of_pos spaces, stops,
    append_nil, String.ofList_toList]

/-- The statements are found again by the indentation of the first line, if no white space of
another kind follows it. -/
theorem statementsOf_renderAll (outer : 0 ≤ level)
    (plain : ∀ statement ∈ unfoldedAll body, opensOutside continuesStatement statement)
    (visible : ∀ statement ∈ (unfoldedAll body).head?, opensOutside isSpace statement) :
    statementsOf (Statement.renderAll level body) =
      (unfoldedAll body).map (Statement.render level) := by
  rw [← statementGroups_renderAll outer plain]
  obtain ⟨areAlone, isWritten⟩ := unfoldedAll_spec level body
  cases parts : unfoldedAll body with
  | nil =>
    rw [← isWritten, parts]
    rfl
  | cons statement rest =>
    have first : statement ∈ unfoldedAll body := by simp [parts]
    obtain ⟨text, others, rendered, clear, -⟩ := render_eq_cons outer rfl
      (areAlone statement first) (visible statement (by simp [parts]))
    have lines : Statement.renderAll level body =
        indented level text :: (others ++ Statement.renderAll level rest) := by
      rw [← isWritten, parts, Statement.renderAll, rendered, cons_append]
    rw [lines, statementsOf, takeWhile_isSpace_indented clear]

/-! ### Files -/

/-- In a written file, the functions that are found are those of its contracts in the order in
which they are written: each found place has the name of its function and holds its lines, from the
header to its own closing brace, and no two places overlap. The body of each is cut into its
statements, where the statements before a loop stand on their own. -/
theorem functionSpans_recover_functions {version : String} {imports : List String}
    {contracts : List Contract} (written : WellWrittenFile version imports contracts)
    (plain : ∀ contract ∈ contracts, ∀ function ∈ writtenFunctions contract,
      ∀ statement ∈ unfoldedAll function.body, opensOutside continuesStatement statement = true) :
    let lines := Text.lines (renderFile version imports contracts)
    (functionSpans lines).Pairwise (fun earlier later => earlier.closing < later.header) ∧
      List.Forall₂ (fun span (function, parent) =>
          span.name = function.name ∧
          linesOf lines span = function.render 1 parent ∧
          statementGroups (indentation 2) (bodyOf lines span) =
            (unfoldedAll function.body).map (Statement.render 2) ∧
          ((∀ statement ∈ (unfoldedAll function.body).head?,
              opensOutside isSpace statement = true) →
            statementsOf (bodyOf lines span) =
              (unfoldedAll function.body).map (Statement.render 2)))
        (functionSpans lines) (contracts.flatMap functionsOf) := by
  have listed := lists_renderFile written
  refine ⟨listed.follow 0, ?_⟩
  have found := listed.finds []
  rw [nil_append] at found
  rw [forall₂_iff_zip] at found ⊢
  refine ⟨found.1, ?_⟩
  rintro span ⟨function, parent⟩ member
  have finds := found.2 member
  obtain ⟨contract, inFile, inContract⟩ := mem_flatMap.mp (of_mem_zip member).2
  have isWritten : function ∈ writtenFunctions contract := by
    rw [← map_functionsOf]
    exact mem_map_of_mem inContract
  have opens := plain contract inFile function isWritten
  refine ⟨finds.name, finds.lines, ?_, ?_⟩
  · rw [finds.body]
    exact statementGroups_renderAll (by decide) opens
  · intro visible
    rw [finds.body]
    exact statementsOf_renderAll (by decide) opens visible

/-- A contract with a loop that is prepared by another loop, and one that inherits from it and has
a conditional in a conditional. -/
def nestedContracts : List Contract :=
  [{ name := "Queue"
     kind := .inheritedOnly
     stateVariables := [{ name := "size", type := .uint256 }]
     construction := some { name := "constructor", body := [.set "size" "0"] }
     functions := [
       { name := "drain"
         body := [
           .loop (.whileTrue "size > 0") [.assign "size" (some "1") "-=" none]
             [.declare .uint256 "n" "size",
               .loop (.counted "uint256 i = 0" "i < n" "i++") [.breakLoop] [.set "n" "1"]],
           .returnValue none] }] },
   { name := "Gate"
     parents := ["Queue"]
     construction := some { name := "constructor", baseArguments := some [] }
     functions := [
       { name := "enter"
         body := [
           .conditional
             [("size == 0", [.conditional [("true", [.revert none])] none]),
               ("size == 1", [.expression "open()"])]
             (some [.require "size < 9" none]),
           .emit "Entered" []] }] }]

theorem nestedContracts_functionSpans_recover_functions :
    WellWrittenFile "^0.8.30" ["import \"./Base.sol\";"] nestedContracts ∧
      let lines := Text.lines (renderFile "^0.8.30" ["import \"./Base.sol\";"] nestedContracts)
      List.Forall₂ (fun span (function, parent) =>
          span.name = function.name ∧ linesOf lines span = function.render 1 parent ∧
          statementGroups (indentation 2) (bodyOf lines span) =
            (unfoldedAll function.body).map (Statement.render 2))
        (functionSpans lines) (nestedContracts.flatMap functionsOf) := by
  have written : WellWrittenFile "^0.8.30" ["import \"./Base.sol\";"] nestedContracts :=
    { version := by decide
      imports := by decide
      lines := by decide +kernel
      names := by decide +kernel }
  have plain : ∀ contract ∈ nestedContracts, ∀ function ∈ writtenFunctions contract,
      ∀ statement ∈ unfoldedAll function.body,
        opensOutside continuesStatement statement = true := by
    decide +kernel
  refine ⟨written, (functionSpans_recover_functions written plain).2.imp ?_⟩
  rintro span ⟨function, parent⟩ ⟨name, lines, groups, -⟩
  exact ⟨name, lines, groups⟩

end ContractForge.Listing
