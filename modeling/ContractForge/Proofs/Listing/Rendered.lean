import ContractForge.Proofs.Listing.Bodies
import ContractForge.Proofs.Text.Lines
import ContractForge.Proofs.Text.Search
import ContractForge.Target.Contract
import Mathlib.Data.List.Forall2

/-!
# Listings of contracts

The functions that are found in the listing of a contract are the functions of
the contract. A statement is never taken for the header of a function, and its
lines are indented too far to close one. So the functions of a written contract
follow one another, and their bodies are the written statements.
-/

namespace ContractForge.Listing

open Text List

variable {contract : Contract} {function : Function} {level : Int} {line version : String}
  {imports : List String} {contracts : List Contract} (written : WrittenFunction)

/-! ### Lines that are no headers -/

theorem functionName?_suffix
    (found : functionName? chars = some (name, rest)) : rest <:+ chars := by
  unfold functionName? at found
  cases after : after? "function " chars with
  | some named =>
    simp only [after, Option.map_eq_some_iff] at found
    obtain ⟨⟨_, others⟩, read, equal⟩ := found
    obtain ⟨-, rfl⟩ := Prod.mk.inj equal
    have behind : others <:+ named := by
      unfold word? at read
      split at read
      · contradiction
      · obtain ⟨-, rfl⟩ := Prod.mk.inj (Option.some.inj read)
        exact dropWhile_suffix _
    exact behind.trans ⟨_, (after?_eq_some.mp after).symm⟩
  | none =>
    simp only [after, Option.map_eq_some_iff] at found
    obtain ⟨_, read, equal⟩ := found
    obtain ⟨-, rfl⟩ := Prod.mk.inj equal
    exact ⟨_, (after?_eq_some.mp read).symm⟩

theorem functionHeader?_of_last (ends : line.toList.getLast? = some last)
    (other : last ≠ '\x7b') : functionHeader? line = none := by
  cases found : functionHeader? line with
  | none => rfl
  | some =>
    exfalso
    unfold functionHeader? at found
    cases read : functionName? (line.toList.dropWhile isBlankChar) with
    | none => simp [read] at found
    | some part =>
      obtain ⟨_, rest⟩ := part
      simp only [read, Option.bind_eq_bind, Option.bind_some] at found
      have behind : rest <:+ line.toList :=
        (functionName?_suffix read).trans (dropWhile_suffix _)
      split at found
      · rename_i rest
        split at found
        · rename_i closes
          obtain ⟨_, whole⟩ := behind
          have brace : rest.getLast? = some '\x7b' := by simpa using closes
          rw [← whole, getLast?_append, getLast?_cons, brace] at ends
          simp only [Option.some_or, Option.some.injEq] at ends
          exact other ends.symm
        · contradiction
      · contradiction

theorem functionHeader?_eq_none_of_start
    (start : functionName? (line.toList.dropWhile isBlankChar) = none) :
    functionHeader? line = none := by
  simp [functionHeader?, start]

/-! ### Lines of statements -/

theorem indented_toList (level : Int) :
    (indented level text).toList = replicate (4 * level.toNat) ' ' ++ text.toList := by
  simp [indented, indentation]

theorem isBlankChar_indentation {count : Nat} : ∀ c ∈ replicate count ' ', isBlankChar c := by
  intro _ mem
  rw [eq_of_mem_replicate mem]
  rfl

theorem dropWhile_blank_indented (level : Int) :
    (indented level text).toList.dropWhile isBlankChar = text.toList.dropWhile isBlankChar := by
  rw [indented_toList]
  exact dropWhile_append_of_pos isBlankChar_indentation

/-- A line inside a function: it is indented to a level at least and is no header. -/
structure BodyLine (level : Int) (line : String) : Prop where
  deep : ∃ rest, line.toList = List.replicate (4 * level.toNat) ' ' ++ rest
  plain : functionHeader? line = none

theorem BodyLine.of_deeper (further : level ≤ deeper)
    (inside : BodyLine deeper line) : BodyLine level line where
  deep := by
    obtain ⟨rest, shape⟩ := inside.deep
    refine ⟨replicate (4 * deeper.toNat - 4 * level.toNat) ' ' ++ rest, ?_⟩
    rw [shape, ← append_assoc, replicate_append_replicate]
    congr 2
    omega
  plain := inside.plain

theorem bodyLine_of_last (ends : text.toList.getLast? = some last) (other : last ≠ '\x7b') :
    BodyLine level (indented level text) := by
  refine ⟨⟨_, indented_toList level⟩, functionHeader?_of_last ?_ other⟩
  rw [indented_toList, getLast?_append, ends, Option.some_or]

theorem bodyLine_of_start (start : functionName? (text.toList.dropWhile isBlankChar) = none) :
    BodyLine level (indented level text) := by
  refine ⟨⟨_, indented_toList level⟩, functionHeader?_eq_none_of_start ?_⟩
  rw [dropWhile_blank_indented, start]

mutual

/-- The statements of one line in a statement, without their indentation. -/
def oneLiners : Statement → List String
  | .conditional branches otherwise => branchLiners branches ++ otherwiseLiners otherwise
  | .loop _ body before => allLiners before ++ allLiners body
  | statement => statement.render 0

def allLiners : List Statement → List String
  | [] => []
  | statement :: rest => oneLiners statement ++ allLiners rest

def branchLiners : List (String × List Statement) → List String
  | [] => []
  | (_, body) :: rest => allLiners body ++ branchLiners rest

/-- The statements of one line in the remaining case of a conditional. -/
def otherwiseLiners : Option (List Statement) → List String
  | none => []
  | some body => allLiners body

end

/-- The lines of statements at a level: texts that end with semicolons, and around the deeper ones
what opens and closes a block. -/
inductive Lays : Int → List String → List String → Prop where
  | nil {level : Int} : Lays level [] []
  | leaf {level : Int} {lines : List String} (ends : text.toList.getLast? = some ';')
      (later : Lays level texts lines) : Lays level (text :: texts) (indented level text :: lines)
  | brace {level : Int} {lines : List String}
      (start : functionName? (text.toList.dropWhile isBlankChar) = none)
      (ends : text.toList.getLast? = some last) (other : last ≠ ';')
      (later : Lays level texts lines) : Lays level texts (indented level text :: lines)
  | block {level : Int} {lines : List String} (inner : Lays (level + 1) texts lines)
      (later : Lays level others rest) : Lays level (texts ++ others) (lines ++ rest)

namespace Lays

theorem append (front : Lays level texts shown) (back : Lays level others rest) :
    Lays level (texts ++ others) (shown ++ rest) := by
  induction front with
  | nil => exact back
  | leaf ends _ ih => exact .leaf ends (ih back)
  | brace start ends other _ ih => exact .brace start ends other (ih back)
  | block inner _ _ ih =>
    rw [append_assoc, append_assoc]
    exact .block inner (ih back)

theorem closing : Lays level [] [indented level "\x7d"] :=
  .brace rfl rfl (by decide) .nil

/-- A statement of one line ends with a semicolon. -/
theorem single {statement : Statement}
    (isLine : ∀ level, statement.render level = [indented level text])
    (isLeaf : oneLiners statement = statement.render 0) (ends : text.toList.getLast? = some ';') :
    Lays level (oneLiners statement) (statement.render level) := by
  rw [isLeaf, isLine, isLine]
  exact .leaf ends .nil

theorem bodyLine (lays : Lays level texts shown) : ∀ line ∈ shown, BodyLine level line := by
  induction lays with
  | nil => simp
  | leaf ends _ ih => exact forall_mem_cons.mpr ⟨bodyLine_of_last ends (by decide), ih⟩
  | brace start _ _ _ ih => exact forall_mem_cons.mpr ⟨bodyLine_of_start start, ih⟩
  | block _ _ ofInner ih =>
    exact forall_mem_append.mpr ⟨fun line mem => (ofInner line mem).of_deeper (by omega), ih⟩

end Lays

theorem assignText_getLast? :
    (Statement.assignText target value op declaredType).toList.getLast? = some ';' := by
  unfold Statement.assignText
  split <;> simp [getLast?_cons]

mutual

theorem lays_render (level : Int) :
    ∀ statement : Statement, Lays level (oneLiners statement) (statement.render level)
  | .assign .. => .single (fun _ => by rw [Statement.render]) (by simp [oneLiners])
      (assignText_getLast? ..)
  | .conditional branches otherwise => by
    have inside := (lays_renderBranches level true branches).append
      (lays_renderOtherwise level otherwise)
    simpa [Statement.render, oneLiners] using inside.append .closing
  | .loop head body before => by
    have opening {texts shown : List String} (lays : Lays level texts shown) :
        Lays level texts (indented level (Statement.headText head) :: shown) := by
      refine .brace ?_ (?_ : _ = some '\x7b') (by decide) lays <;> cases head <;>
        simp [Statement.headText, functionName?, after?, isBlankChar, getLast?_cons]
    have inside := opening ((lays_renderAll (level + 1) body).block .closing)
    simpa [Statement.render, oneLiners] using (lays_renderAll level before).append inside
  | .require _ none | .require _ (some _) | .emit .. | .expression _ | .returnValue none
  | .returnValue (some _) | .revert none | .revert (some _) | .breakLoop | .continueLoop =>
    .single (fun _ => by rw [Statement.render]) (by simp [oneLiners]) (by simp [getLast?_cons])

theorem lays_renderAll (level : Int) : ∀ statements : List Statement,
    Lays level (allLiners statements) (Statement.renderAll level statements)
  | [] => .nil
  | statement :: rest => by
    rw [Statement.renderAll, allLiners]
    exact (lays_render level statement).append (lays_renderAll level rest)

theorem lays_renderBranches (level : Int) (first : Bool) :
    ∀ branches : List (String × List Statement),
      Lays level (branchLiners branches) (Statement.renderBranches level first branches)
  | [] => .nil
  | (_, body) :: rest => by
    rw [Statement.renderBranches, branchLiners]
    refine .brace ?_ (?_ : _ = some '\x7b') (by decide)
      ((lays_renderAll (level + 1) body).block (lays_renderBranches level false rest))
    all_goals cases first <;> simp [functionName?, after?, isBlankChar, getLast?_cons]

theorem lays_renderOtherwise (level : Int) : ∀ otherwise : Option (List Statement),
    Lays level (otherwiseLiners otherwise) (Statement.renderOtherwise level otherwise)
  | none => .nil
  | some body => by
    rw [Statement.renderOtherwise]
    simpa [otherwiseLiners] using
      Lays.brace rfl rfl (by decide) ((lays_renderAll (level + 1) body).block .nil)

end

theorem bodyLine_renderAll (level : Int) (statements : List Statement) :
    ∀ line ∈ Statement.renderAll level statements, BodyLine level line :=
  (lays_renderAll level statements).bodyLine

theorem BodyLine.ne_closing (inside : BodyLine 2 line) : line ≠ indented 1 "\x7d" := by
  rintro rfl
  obtain ⟨_, equal⟩ := inside.deep
  have lengths := congrArg List.length equal
  rw [indented_toList, length_append, length_append, length_replicate, length_replicate] at lengths
  simp only [String.reduceToList, length_cons, length_nil] at lengths
  omega

/-! ### Headers of functions -/

theorem header_of_isConstructor (constructor : function.isConstructor)
    (parent : Option String) : ∃ tail, function.header parent = "constructor(" ++ tail := by
  unfold Function.header
  simp only [constructor, String.append_assoc]
  exact ⟨_, rfl⟩

theorem header_of_not_isConstructor (named : function.isConstructor = false)
    (parent : Option String) :
    ∃ tail, function.header parent = "function " ++ (function.name ++ ("(" ++ tail)) := by
  unfold Function.header
  simp only [named, String.append_assoc]
  exact ⟨_, rfl⟩

theorem functionName?_header (word : isWord function.name) (parent : Option String) :
    ∃ tail, functionName? (function.header parent ++ " \x7b").toList =
      some (function.name, '(' :: (tail ++ [' ', '\x7b'])) := by
  cases constructor : function.isConstructor with
  | true =>
    obtain ⟨tail, header⟩ := header_of_isConstructor constructor parent
    have name : function.name = "constructor" := by
      simpa [Function.isConstructor] using constructor
    have other : after? "function " (function.header parent ++ " \x7b").toList = none := by
      simp [header, after?]
    have keyword : after? "constructor" (function.header parent ++ " \x7b").toList =
        some ('(' :: (tail.toList ++ [' ', '\x7b'])) := by
      rw [after?_eq_some, header]
      simp
    exact ⟨tail.toList, by rw [functionName?, other, keyword, name]; rfl⟩
  | false =>
    obtain ⟨tail, header⟩ := header_of_not_isConstructor constructor parent
    obtain ⟨someChar, wordChars⟩ := isWord_iff.mp word
    have keyword : after? "function " (function.header parent ++ " \x7b").toList =
        some (function.name.toList ++ '(' :: (tail.toList ++ [' ', '\x7b'])) := by
      rw [after?_eq_some, header]
      simp
    have stops : isWordChar '(' = false := by decide
    refine ⟨tail.toList, ?_⟩
    simp only [functionName?, keyword, word?_append someChar wordChars stops, Option.map_some,
      String.ofList_toList]

theorem functionHeader?_header (word : isWord function.name) :
    functionHeader? (indented 1 (function.header parent ++ " \x7b")) =
      some ⟨indentation 1, function.name⟩ := by
  obtain ⟨_, read⟩ := functionName?_header word parent
  have start : ∃ c rest, (function.header parent ++ " \x7b").toList = c :: rest ∧
      isBlankChar c = false := by
    cases constructor : function.isConstructor with
    | true =>
      obtain ⟨_, header⟩ := header_of_isConstructor constructor parent
      exact ⟨'c', _, by simp only [header, String.toList_append]; rfl, rfl⟩
    | false =>
      obtain ⟨_, header⟩ := header_of_not_isConstructor constructor parent
      exact ⟨'f', _, by simp only [header, String.toList_append]; rfl, rfl⟩
  obtain ⟨_, _, shape, visible⟩ := start
  have starts : (indented 1 (function.header parent ++ " \x7b")).toList.dropWhile isBlankChar =
      (function.header parent ++ " \x7b").toList := by
    rw [dropWhile_blank_indented, shape, dropWhile_cons_of_neg (by simp [visible])]
  have indent : (indented 1 (function.header parent ++ " \x7b")).toList.takeWhile isBlankChar =
      (indentation 1).toList := by
    rw [indented_toList, shape, takeWhile_append_of_pos isBlankChar_indentation,
      takeWhile_cons_of_neg (by simp [visible]), append_nil]
    rfl
  unfold functionHeader?
  simp only [starts, indent, read]
  simp

/-! ### Listings with functions -/

/-- A function as it is written, with the parent whose constructor it may call. -/
abbrev WrittenFunction := Function × Option String

variable {functions first : List WrittenFunction}

def WrittenFunction.lines (written : WrittenFunction) : List String :=
  written.1.render 1 written.2

/-- A listing is put together of the given functions and of lines that belong to none. -/
inductive Lists : List String → List WrittenFunction → Prop where
  | nil : Lists [] []
  | plain {line : String} {rest : List String} {functions : List WrittenFunction}
      (other : functionHeader? line = none) (later : Lists rest functions) :
      Lists (line :: rest) functions
  | function {written : WrittenFunction} {rest : List String}
      {functions : List WrittenFunction} (word : isWord written.1.name = true)
      (later : Lists rest functions) :
      Lists (written.lines ++ rest) (written :: functions)

theorem Lists.of_plain {lines : List String}
    (others : ∀ line ∈ lines, functionHeader? line = none) : Lists lines [] := by
  induction lines with
  | nil => exact .nil
  | cons line _ ih =>
    exact .plain (others line mem_cons_self)
      (ih fun other mem => others other (mem_cons_of_mem _ mem))

theorem Lists.append (front : Lists left first) (back : Lists right second) :
    Lists (left ++ right) (first ++ second) := by
  induction front with
  | nil => exact back
  | plain other _ ih => exact .plain other ih
  | function word _ ih =>
    rw [append_assoc]
    exact .function word ih

/-- Sections with blank lines between them. -/
theorem Lists.intercalate {sections : List (List String)} {functions : List (List WrittenFunction)}
    (parts : Forall₂ Lists sections functions) :
    Lists ([""].intercalate sections) functions.flatten := by
  induction parts with
  | nil => exact .nil
  | cons part others ih =>
    cases others with
    | nil => simpa [List.intercalate] using part
    | cons =>
      exact part.append (.plain rfl ih)

theorem functionSpansFrom_append_of_plain (others : ∀ line ∈ plain, functionHeader? line = none) :
    functionSpansFrom place (plain ++ rest) = functionSpansFrom (place + plain.length) rest := by
  induction plain generalizing place with
  | nil => rfl
  | cons line _ ih =>
    have here := others line mem_cons_self
    rw [cons_append, functionSpansFrom, here]
    rw [ih (fun other mem => others other (mem_cons_of_mem _ mem)),
      length_cons, Nat.add_assoc, Nat.add_comm 1]

/-- Where a written function stands. -/
def spanAt (place : Nat) (function : Function) : FunctionSpan :=
  ⟨function.name, place, place + 1 + (Statement.renderAll 2 function.body).length⟩

theorem WrittenFunction.lines_eq :
    written.lines = [indented 1 (written.1.header written.2 ++ " \x7b")] ++
      Statement.renderAll 2 written.1.body ++ [indented 1 "\x7d"] :=
  rfl

theorem WrittenFunction.length_lines :
    written.lines.length = (Statement.renderAll 2 written.1.body).length + 2 := by
  simp only [WrittenFunction.lines_eq, length_append, length_singleton]
  omega

theorem functionSpansFrom_lines {written : WrittenFunction} (word : isWord written.1.name) :
    functionSpansFrom place (written.lines ++ rest) =
      spanAt place written.1 :: functionSpansFrom (place + written.lines.length) rest := by
  have inside := bodyLine_renderAll 2 written.1.body
  have closes : ((Statement.renderAll 2 written.1.body ++ [indented 1 "\x7d"]) ++ rest).takeWhile
      (· != indented 1 "\x7d") = Statement.renderAll 2 written.1.body := by
    rw [append_assoc, takeWhile_append_of_pos]
    · simp
    · intro line mem
      simpa using (inside line mem).ne_closing
  have plain : ∀ line ∈ Statement.renderAll 2 written.1.body ++ [indented 1 "\x7d"],
      functionHeader? line = none := by
    intro line mem
    rcases mem_append.mp mem with inBody | last
    · exact (inside line inBody).plain
    · rw [mem_singleton.mp last]
      rfl
  have closing : indentation 1 ++ "\x7d" = indented 1 "\x7d" := rfl
  rw [WrittenFunction.length_lines, WrittenFunction.lines_eq, append_assoc,
    append_assoc, cons_append, nil_append, functionSpansFrom,
    functionHeader?_header word, ← append_assoc]
  simp only
  rw [closing, closes, functionSpansFrom_append_of_plain plain, length_append, length_singleton]
  congr 2
  omega

theorem Lists.follow {lines : List String} (listed : Lists lines functions) (place : Nat) :
    (functionSpansFrom place lines).Pairwise fun earlier later =>
      earlier.closing < later.header := by
  induction listed generalizing place with
  | nil => exact .nil
  | plain other _ ih =>
    rw [functionSpansFrom, other]
    exact ih _
  | function word _ ih =>
    rw [functionSpansFrom_lines word]
    refine pairwise_cons.mpr ⟨?_, ih _⟩
    intro _ mem
    have behind := (functionSpansFrom_bounds mem).1
    rw [WrittenFunction.length_lines] at behind
    simp only [spanAt]
    omega

/-- The lines from the header of a function to its closing brace. -/
def linesOf (lines : List String) (span : FunctionSpan) : List String :=
  (lines.take (span.closing + 1)).drop span.header

theorem linesOf_spanAt (written : WrittenFunction) (rest : List String) :
    linesOf (front ++ (written.lines ++ rest)) (spanAt front.length written.1) =
      written.lines := by
  rw [← append_assoc, linesOf, spanAt, take_left', drop_left' rfl]
  rw [length_append, WrittenFunction.length_lines]
  simp only
  omega

theorem bodyOf_spanAt (written : WrittenFunction) (rest : List String) :
    bodyOf (front ++ (written.lines ++ rest)) (spanAt front.length written.1) =
      Statement.renderAll 2 written.1.body := by
  have header : (front ++ [indented 1 (written.1.header written.2 ++ " \x7b")]).length =
      front.length + 1 := by simp
  have split : front ++ (written.lines ++ rest) =
      (front ++ [indented 1 (written.1.header written.2 ++ " \x7b")] ++
        Statement.renderAll 2 written.1.body) ++ ([indented 1 "\x7d"] ++ rest) := by
    simp [WrittenFunction.lines_eq]
  rw [split, bodyOf, spanAt, take_left' (by simp; omega), drop_left' header]

/-- A place in a listing is that of a written function: it has its name, and the lines and the
body that stand there are those of the function. -/
structure Finds (listing : List String) (span : FunctionSpan) (written : WrittenFunction) :
    Prop where
  name : span.name = written.1.name
  lines : linesOf listing span = written.lines
  body : bodyOf listing span = Statement.renderAll 2 written.1.body

/-- The functions that are found in a listing are those it is put together of. -/
theorem Lists.finds {lines : List String} (listed : Lists lines functions) (front : List String) :
    Forall₂ (Finds (front ++ lines)) (functionSpansFrom front.length lines) functions := by
  induction listed generalizing front with
  | nil => exact .nil
  | @plain line rest functions other _ ih =>
    have later := ih (front ++ [line])
    rw [functionSpansFrom, other]
    simpa using later
  | @function written rest functions word _ ih =>
    have later := ih (front ++ written.lines)
    rw [length_append, append_assoc] at later
    rw [functionSpansFrom_lines word]
    exact .cons ⟨rfl, linesOf_spanAt written rest, bodyOf_spanAt written rest⟩ later

theorem Lists.exists_finds {lines : List String} (listed : Lists lines functions)
    {span : FunctionSpan} (mem : span ∈ functionSpans lines) :
    ∃ written ∈ functions, Finds lines span written := by
  have found := listed.finds []
  obtain ⟨index, bound, rfl⟩ := mem_iff_getElem.mp mem
  have other : index < functions.length := found.length_eq ▸ bound
  exact ⟨functions[index], getElem_mem other, found.get bound other⟩

/-! ### Contracts and files -/

def writtenFunctions (contract : Contract) : List Function :=
  contract.construction.toList ++ contract.functions

/-- The functions of a contract as they are written; the constructor may call that of the first
parent. -/
def functionsOf (contract : Contract) : List WrittenFunction :=
  (contract.construction.toList.map fun function => (function, contract.parents.head?)) ++
    contract.functions.map fun function => (function, none)

theorem map_functionsOf (contract : Contract) :
    (functionsOf contract).map Prod.fst = writtenFunctions contract := by
  simp [functionsOf, writtenFunctions, Function.comp_def]

/-- What is asked of the parts of a file: no text that is written on a line holds a line break,
imports are statements, and functions have names. -/
@[mk_iff]
structure WellWrittenFile (version : String) (imports : List String)
    (contracts : List Contract) : Prop where
  version : '\n' ∉ version.toList
  imports : ∀ line ∈ imports, '\n' ∉ line.toList ∧ line.toList.getLast? = some ';'
  lines : ∀ contract ∈ contracts, ∀ line ∈ contract.render, '\n' ∉ line.toList
  names : ∀ contract ∈ contracts, ∀ written ∈ functionsOf contract, isWord written.1.name = true

/-- What is asked of the parts of a file with one contract. -/
structure WellWritten (version : String) (imports : List String) (contract : Contract) :
    Prop where
  version : '\n' ∉ version.toList
  imports : ∀ line ∈ imports, '\n' ∉ line.toList ∧ line.toList.getLast? = some ';'
  lines : ∀ line ∈ contract.render, '\n' ∉ line.toList
  names : ∀ function ∈ writtenFunctions contract, isWord function.name = true

theorem WellWritten.file (written : WellWritten version imports contract) :
    WellWrittenFile version imports [contract] where
  version := written.version
  imports := written.imports
  lines := by simpa using written.lines
  names := by
    intro _ inFile _ inContract
    rw [mem_singleton.mp inFile] at inContract
    apply written.names
    rw [← map_functionsOf]
    exact mem_map_of_mem inContract

theorem functionHeader?_contract (contract : Contract) :
    functionHeader? (indented 0 (contract.header ++ " \x7b")) = none := by
  apply functionHeader?_eq_none_of_start
  rw [dropWhile_blank_indented]
  unfold Contract.header
  cases contract.kind <;> simp [functionName?, after?, isBlankChar]

theorem functionHeader?_declarationSection
    (ends : ∀ text ∈ declarations, text.toList.getLast? = some last) (other : last ≠ '\x7b') :
    ∀ lines ∈ Contract.declarationSection 1 declarations, ∀ line ∈ lines,
      functionHeader? line = none := by
  intro _ inSections _ inLines
  unfold Contract.declarationSection at inSections
  split at inSections
  · contradiction
  · rw [mem_singleton.mp inSections] at inLines
    obtain ⟨text, inDeclarations, rfl⟩ := mem_map.mp inLines
    apply functionHeader?_of_last _ other
    rw [indented_toList, getLast?_append, ends text inDeclarations, Option.some_or]

def declarationSections (contract : Contract) : List (List String) :=
  Contract.declarationSection 1 (contract.enumerations.map Enumeration.render) ++
    Contract.declarationSection 1 (contract.events.map Event.render) ++
    Contract.declarationSection 1 (contract.stateVariables.map StateVariable.render)

theorem functionHeader?_declarationSections (contract : Contract) :
    ∀ lines ∈ declarationSections contract, ∀ line ∈ lines, functionHeader? line = none := by
  intro lines mem
  rw [declarationSections, mem_append, mem_append] at mem
  rcases mem with (enumerations | events) | fields
  · exact functionHeader?_declarationSection
      (by simp [Enumeration.render, getLast?_cons]) (by decide : '\x7d' ≠ '\x7b')
      lines enumerations
  · exact functionHeader?_declarationSection
      (by simp [Event.render, getLast?_cons]) (by decide : ';' ≠ '\x7b') lines events
  · exact functionHeader?_declarationSection
      (by simp [StateVariable.render, getLast?_cons]) (by decide : ';' ≠ '\x7b') lines fields

/-- The sections of a contract are those of its declarations and its functions. -/
theorem sections_eq (contract : Contract) :
    contract.sections 1 =
      declarationSections contract ++ (functionsOf contract).map WrittenFunction.lines := by
  simp [Contract.sections, declarationSections, functionsOf, WrittenFunction.lines,
    Function.comp_def]

/-- The lines of a contract are put together of its functions and of other lines. -/
theorem lists_render (words : ∀ written ∈ functionsOf contract, isWord written.1.name) :
    Lists contract.render (functionsOf contract) := by
  have declared : Forall₂ Lists (declarationSections contract)
      ((declarationSections contract).map fun _ => []) := by
    rw [forall₂_map_right_iff, forall₂_same]
    exact fun lines mem =>
      .of_plain (functionHeader?_declarationSections contract lines mem)
  have defined : Forall₂ Lists ((functionsOf contract).map WrittenFunction.lines)
      ((functionsOf contract).map fun written => [written]) := by
    rw [forall₂_map_left_iff, forall₂_map_right_iff, forall₂_same]
    intro written mem
    simpa using Lists.function (words written mem) .nil
  have inner : Lists ([""].intercalate (declarationSections contract ++ _)) _ :=
    Lists.intercalate (rel_append declared defined)
  have functions : ((declarationSections contract).map (fun _ => ([] : List WrittenFunction)) ++
      (functionsOf contract).map fun written => [written]).flatten = functionsOf contract := by
    simp [← flatMap_def]
  rw [functions, ← sections_eq] at inner
  have closing : Lists [indented 0 "\x7d"] [] := .plain rfl .nil
  have closed := inner.append closing
  rw [append_nil] at closed
  exact .plain (functionHeader?_contract contract) closed

/-- The lines of a file before its imports. -/
def headerLines (version : String) : List String :=
  ["// SPDX-License-Identifier: MIT", "pragma solidity " ++ version ++ ";"]

theorem lines_fileHeader (free : '\n' ∉ version.toList) :
    Text.lines (fileHeader version) = headerLines version := by
  have split : fileHeader version =
      "// SPDX-License-Identifier: MIT" ++ "\n" ++ ("pragma solidity " ++ version ++ ";") := by
    have literal : "// SPDX-License-Identifier: MIT\npragma solidity " =
        "// SPDX-License-Identifier: MIT" ++ "\n" ++ "pragma solidity " := by decide
    unfold fileHeader
    rw [toString_text, toString_text, toString_text, literal]
    rw [String.append_assoc, String.append_assoc, String.append_assoc, String.append_assoc,
      String.append_assoc]
  have licence : '\n' ∉ "// SPDX-License-Identifier: MIT".toList := by simp
  have pragma : '\n' ∉ ("pragma solidity " ++ version ++ ";").toList := by simp [free]
  rw [split, lines_append_break, lines_of_not_mem licence, lines_of_not_mem pragma]
  rfl

/-- The blocks of a file, between which blank lines stand. -/
def fileBlocks (version : String) (imports : List String) (contracts : List Contract) :
    List (List String) :=
  headerLines version :: (if imports.isEmpty then [] else [imports]) ++
    contracts.map Contract.render

theorem lines_renderFile (written : WellWrittenFile version imports contracts) :
    Text.lines (renderFile version imports contracts) =
      [""].intercalate (fileBlocks version imports contracts) ++ [""] := by
  have ending (text : String) : Text.lines (text ++ "\n") = Text.lines text ++ [""] := by
    rw [← String.append_empty (s := text ++ "\n"), lines_append_break]
    rfl
  have imported : (if imports.isEmpty then [] else [Text.unlines imports]).map Text.lines =
      if imports.isEmpty then [] else [imports] := by
    cases imports with
    | nil => rfl
    | cons first others =>
      have cut := lines_unlines (cons_ne_nil first others)
        fun line mem => (written.imports line mem).1
      simp [cut]
  have defined : (contracts.map fun contract => Text.unlines contract.render).map Text.lines =
      contracts.map Contract.render := by
    rw [map_map]
    apply map_congr_left
    intro contract mem
    exact lines_unlines (by simp [Contract.render]) (written.lines contract mem)
  unfold renderFile fileBlocks
  rw [ending, lines_intercalate_blank (by simp), map_append, map_append, imported,
    defined, map_singleton, lines_fileHeader written.version]
  rfl

/-- A file is put together of the functions of its contracts and of other lines. -/
theorem lists_renderFile (written : WellWrittenFile version imports contracts) :
    Lists (Text.lines (renderFile version imports contracts)) (contracts.flatMap functionsOf) := by
  have header : Lists (headerLines version) [] := by
    apply Lists.of_plain
    simp only [headerLines, forall_mem_cons, not_mem_nil, false_implies, implies_true, and_true]
    exact ⟨rfl, functionHeader?_of_last (by simp [getLast?_cons]) (by decide : ';' ≠ '\x7b')⟩
  have imported : Forall₂ Lists (if imports.isEmpty then [] else [imports])
      (if imports.isEmpty then [] else [[]]) := by
    split
    · exact .nil
    · exact .cons (.of_plain fun line mem => functionHeader?_of_last
        (written.imports line mem).2 (by decide)) .nil
  have defined : Forall₂ Lists (contracts.map Contract.render)
      (contracts.map functionsOf) := by
    rw [forall₂_map_left_iff, forall₂_map_right_iff, forall₂_same]
    exact fun contract mem => lists_render (written.names contract mem)
  have blocks := Lists.intercalate (rel_append (.cons header imported) defined)
  have functions : (([] :: if imports.isEmpty then [] else [[]]) ++
      contracts.map functionsOf).flatten = contracts.flatMap functionsOf := by
    cases imports <;> simp [flatMap_def]
  have after : Lists [""] [] := .plain rfl .nil
  have whole := blocks.append after
  rw [functions, append_nil] at whole
  rw [lines_renderFile written]
  exact whole

/-- The functions of a written contract follow one another, and they are the functions that are
found. -/
theorem functionSpans_renderFile (written : WellWritten version imports contract) :
    FollowOneAnother (Text.lines (renderFile version imports [contract])) ∧
      (functionSpans (Text.lines (renderFile version imports [contract]))).map (fun span =>
          (span.name, bodyOf (Text.lines (renderFile version imports [contract])) span)) =
        (writtenFunctions contract).map fun function =>
          (function.name, Statement.renderAll 2 function.body) := by
  have listed := lists_renderFile written.file
  refine ⟨(listed.follow 0).imp Nat.le_of_lt, ?_⟩
  rw [← map_functionsOf, map_map, ← forall₂_eq_eq_eq, forall₂_map_left_iff, forall₂_map_right_iff]
  have found := listed.finds []
  rw [flatMap_singleton] at found
  refine found.imp ?_
  intro _ _ finds
  exact Prod.ext finds.name finds.body

/-! ### Unreported hazards -/

/-- In the listing of a contract, a function in which an update is left behind a call is warned
about exactly if it is warned about whenever something in it was overlooked. The functions of the
listing are those of the contract. -/
theorem hazard_warned_iff {version : String} {imports : List String} {contract : Contract}
    (written : WellWritten version imports contract) :
    let lines := Text.lines (renderFile version imports [contract])
    let tables := tableVariables lines
    let output := reorderCalls lines
    (functionSpans lines).map (fun span => (span.name, bodyOf lines span)) =
        (writtenFunctions contract).map (fun function =>
          (function.name, Statement.renderAll 2 function.body)) ∧
      ∀ span ∈ functionSpans lines,
        ((UpdateAfterCall tables (bodyOf output.1 span) → Warned span.name output.2) ↔
          (OverlookedIn tables (bodyOf lines span) → Warned span.name output.2)) := by
  obtain ⟨follow, functions⟩ := functionSpans_renderFile written
  refine ⟨functions, ?_⟩
  intro span member
  by_cases warned : Warned span.name
      (reorderCalls (Text.lines (renderFile version imports [contract]))).2
  · simp [warned]
  · rw [reorderCalls_updateAfterCall_iff follow member warned]

/-- A contract that pays in one branch of a condition and then clears the balance. -/
def payingContract : Contract :=
  { name := "Bank"
    stateVariables := [{ name := "balances", type := .mapping .address .uint256 }]
    functions := [
      { name := "pay"
        parameters := [{ name := "to", type := .address }]
        body := [.conditional
          [("balances[to] > 0",
            [.expression "payable(to).transfer(balances[to])", .set "balances[to]" "0"])]
          none] }] }

theorem wellWritten_payingContract : WellWritten "^0.8.30" [] payingContract where
  version := by decide
  imports := by decide
  lines := by decide +kernel
  names := by decide +kernel

theorem payingContract_hazard_warned_iff :
    WellWritten "^0.8.30" [] payingContract ∧
      let lines := Text.lines (renderFile "^0.8.30" [] [payingContract])
      ∀ span ∈ functionSpans lines,
        ((UpdateAfterCall (tableVariables lines) (bodyOf (reorderCalls lines).1 span) →
            Warned span.name (reorderCalls lines).2) ↔
          (OverlookedIn (tableVariables lines) (bodyOf lines span) →
            Warned span.name (reorderCalls lines).2)) :=
  ⟨wellWritten_payingContract, (hazard_warned_iff wellWritten_payingContract).2⟩

def payingLines : List String :=
  ["// SPDX-License-Identifier: MIT", "pragma solidity ^0.8.30;", "", "contract Bank \x7b",
   "    mapping(address => uint256) public balances;", "",
   "    function pay(address to) public \x7b", "        if (balances[to] > 0) \x7b",
   "            payable(to).transfer(balances[to]);", "            balances[to] = 0;",
   "        \x7d", "    \x7d", "\x7d", ""]

theorem lines_payingContract :
    Text.lines (renderFile "^0.8.30" [] [payingContract]) = payingLines := by
  rw [lines_renderFile wellWritten_payingContract.file]
  decide +kernel

theorem tableVariables_payingLines : tableVariables payingLines = ["balances"] := by
  decide +kernel

theorem functionSpans_payingLines : functionSpans payingLines = [⟨"pay", 6, 11⟩] := by
  decide +kernel

theorem reorderCalls_payingLines : reorderCalls payingLines = (payingLines, []) := by
  have kept : reorderFunction ["balances"] payingLines ⟨"pay", 6, 11⟩ = (payingLines, []) := by
    decide +kernel
  rw [reorderCalls, tableVariables_payingLines, functionSpans_payingLines]
  simp [kept]

/-- Nothing is reported about a call and an update in the same branch of a condition. -/
theorem payingContract_not_warned :
    let lines := Text.lines (renderFile "^0.8.30" [] [payingContract])
    ∃ span ∈ functionSpans lines, span.name = "pay" ∧
      UpdateAfterCall (tableVariables lines) (bodyOf (reorderCalls lines).1 span) ∧
        ¬ Warned span.name (reorderCalls lines).2 := by
  simp only
  rw [lines_payingContract, tableVariables_payingLines, functionSpans_payingLines,
    reorderCalls_payingLines]
  refine ⟨⟨"pay", 6, 11⟩, mem_singleton_self _, rfl,
    ⟨"            payable(to).transfer(balances[to]);", "            balances[to] = 0;",
      by decide +kernel, by decide +kernel, by decide +kernel⟩, ?_⟩
  rintro ⟨detail, found⟩
  exact not_mem_nil found

end ContractForge.Listing
