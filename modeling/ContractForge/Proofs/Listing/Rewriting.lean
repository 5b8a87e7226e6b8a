import ContractForge.Proofs.Listing.Declaration
import ContractForge.Proofs.Listing.Packing
import ContractForge.Proofs.Listing.Rendered
import ContractForge.Proofs.Listing.Resettling

/-!
# Rewriting function bodies

In a listing whose function bodies hold nothing but statements, moving updates rewrites each
body and keeps everything else (`reorderCalls_rewrites`). Whatever a pass reads off
the lines outside the bodies is then the same before and after, and runs of declarations can
be packed before or after the bodies are rewritten (`packWith_rewriteBodies`).
-/

namespace ContractForge.Listing

open Text List

variable {body lines tail : List String} {rewrite : List String → List String} {line : String}
  {header : FunctionHeader} (tables : List String)

/-! ### Bodies -/

def FunctionHeader.closing (header : FunctionHeader) : String :=
  header.indent ++ "\x7d"

def bodies : List String → List (List String)
  | [] => []
  | line :: rest =>
    match functionHeader? line with
    | none => bodies rest
    | some header => rest.takeWhile (· != header.closing) :: bodies rest

/-- A line that the passes take for no header, declaration or pragma. -/
@[mk_iff]
structure IsStatement (line : String) : Prop where
  noFunction : functionHeader? line = none
  noContract : isContractHeader line = false
  noDeclaration : declaration? line = none
  noPragma : pragmaConstraint? line = none

instance (line : String) : Decidable (IsStatement line) :=
  decidable_of_iff' _ (isStatement_iff line)

/-- All function bodies hold nothing but statements. -/
def PlainBodies (lines : List String) : Prop :=
  ∀ body ∈ bodies lines, ∀ line ∈ body, IsStatement line

instance (lines : List String) : Decidable (PlainBodies lines) :=
  inferInstanceAs (Decidable (∀ body ∈ bodies lines, ∀ line ∈ body, IsStatement line))

theorem bodies_append_of_plain (others : ∀ line ∈ plain, functionHeader? line = none) : bodies
    (plain ++ rest) = bodies rest := by
  induction plain with
  | nil => rfl
  | cons _ _ ih =>
    obtain ⟨here, later⟩ := forall_mem_cons.mp others
    rw [cons_append, bodies, here]
    exact ih later

/-- A listing whose functions follow one another and hold nothing but statements. -/
inductive Sectioned : List String → Prop where
  | nil : Sectioned []
  | outside {line : String} {rest : List String} (other : functionHeader? line = none)
      (sectioned : Sectioned rest) : Sectioned (line :: rest)
  | function {line : String} {header : FunctionHeader} {body tail : List String}
      (found : functionHeader? line = some header) (statements : ∀ line ∈ body, IsStatement line)
      (inside : header.closing ∉ body) (ends : ∀ next ∈ tail.head?, next = header.closing)
      (sectioned : Sectioned tail) : Sectioned (line :: (body ++ tail))

/-- If function bodies hold nothing but statements, the functions follow one another. -/
theorem PlainBodies.sectioned {lines : List String} (plain : PlainBodies lines) :
    Sectioned lines := by
  match lines with
  | [] => exact .nil
  | line :: rest =>
    cases found : functionHeader? line with
    | none =>
      have later : PlainBodies rest := by
        rwa [PlainBodies, bodies, found] at plain
      exact .outside found later.sectioned
    | some header =>
      rw [PlainBodies, bodies, found] at plain
      obtain ⟨ofBody, ofRest⟩ := forall_mem_cons.mp plain
      have later : PlainBodies (rest.dropWhile (· != header.closing)) := by
        have others := fun line mem => (ofBody line mem).noFunction
        rw [← takeWhile_append_dropWhile (p := (· != header.closing)) (l := rest),
          bodies_append_of_plain others] at ofRest
        exact ofRest
      have shorter : (rest.dropWhile (· != header.closing)).length < (line :: rest).length :=
        Nat.lt_succ_of_le (dropWhile_suffix _).length_le
      rw [← takeWhile_append_dropWhile (p := (· != header.closing)) (l := rest)]
      refine .function found ofBody ?_ ?_ later.sectioned
      · intro mem
        simpa using mem_takeWhile_imp mem
      · intro _ isNext
        have stops := head?_dropWhile_not (· != header.closing) rest
        rw [isNext] at stops
        simpa using stops
termination_by lines.length
decreasing_by
  · exact Nat.lt_succ_self _
  · exact shorter

/-! ### Rewriting -/

/-- The listing with each function body rewritten. -/
def rewriteBodies (rewrite : List String → List String) : List String → List String
  | [] => []
  | line :: rest =>
    match functionHeader? line with
    | none => line :: rewriteBodies rewrite rest
    | some header =>
      line :: (rewrite (rest.takeWhile (· != header.closing)) ++
        rewriteBodies rewrite (rest.dropWhile (· != header.closing)))
termination_by lines => lines.length
decreasing_by
  · exact Nat.lt_succ_self _
  · exact Nat.lt_succ_of_le (dropWhile_suffix _).length_le

@[simp] theorem rewriteBodies_nil (rewrite : List String → List String) :
    rewriteBodies rewrite [] = [] := by
  rw [rewriteBodies]

theorem rewriteBodies_outside (other : functionHeader? line = none)
    (rewrite : List String → List String) :
    rewriteBodies rewrite (line :: rest) = line :: rewriteBodies rewrite rest := by
  rw [rewriteBodies, other]

theorem cut_closing (inside : closing ∉ body) (ends : ∀ next ∈ tail.head?, next = closing) :
    (body ++ tail).takeWhile (· != closing) = body ∧
      (body ++ tail).dropWhile (· != closing) = tail := by
  have ofBody : ∀ line ∈ body, (line != closing) := by
    intro line mem
    simpa using fun same : line = closing => inside (same ▸ mem)
  rw [takeWhile_append_of_pos ofBody, dropWhile_append_of_pos ofBody]
  cases tail with
  | nil => exact ⟨append_nil _, rfl⟩
  | cons next =>
    cases ends next rfl
    simp

theorem rewriteBodies_function (found : functionHeader? line = some header)
    (inside : header.closing ∉ body) (ends : ∀ next ∈ tail.head?, next = header.closing)
    (rewrite : List String → List String) :
    rewriteBodies rewrite (line :: (body ++ tail)) =
      line :: (rewrite body ++ rewriteBodies rewrite tail) := by
  obtain ⟨isBody, isTail⟩ := cut_closing inside ends
  rw [rewriteBodies, found]
  simp only [isBody, isTail]

theorem bodies_function (found : functionHeader? line = some header)
    (statements : ∀ line ∈ body, IsStatement line) (inside : header.closing ∉ body)
    (ends : ∀ next ∈ tail.head?, next = header.closing) :
    bodies (line :: (body ++ tail)) = body :: bodies tail := by
  rw [bodies, found]
  simp only [(cut_closing inside ends).1,
    bodies_append_of_plain fun line mem => (statements line mem).noFunction]

/-- The listing with the bodies of its functions, which follow one another and hold no headers. -/
inductive Sections : List String → List (List String) → Prop where
  | nil : Sections [] []
  | outside {line : String} {rest : List String} {found : List (List String)}
      (other : functionHeader? line = none) (later : Sections rest found) :
      Sections (line :: rest) found
  | function {line : String} {header : FunctionHeader} {body tail : List String}
      {others : List (List String)} (found : functionHeader? line = some header)
      (plain : ∀ line ∈ body, functionHeader? line = none) (inside : header.closing ∉ body)
      (ends : ∀ next ∈ tail.head?, next = header.closing) (later : Sections tail others) :
      Sections (line :: (body ++ tail)) (body :: others)

theorem Sectioned.sections {lines : List String} (sectioned : Sectioned lines) :
    Sections lines (bodies lines) := by
  induction sectioned with
  | nil => exact .nil
  | outside other _ ih =>
    rw [bodies, other]
    exact .outside other ih
  | function found statements inside ends _ ih =>
    rw [bodies_function found statements inside ends]
    exact .function found (fun line mem => (statements line mem).noFunction) inside ends ih

theorem head?_rewriteBodies (rewrite : List String → List String) (lines : List String) :
    (rewriteBodies rewrite lines).head? = lines.head? := by
  cases lines with
  | nil => rw [rewriteBodies_nil]
  | cons line =>
    rw [rewriteBodies]
    cases functionHeader? line with
    | none | some => rfl

section

variable {rewrite : List String → List String} {lines : List String}

/-- Rewritten bodies agree exactly if the listings do. -/
theorem rewriteBodies_eq_iff {found : List (List String)} (sections : Sections lines found)
    (sameLength : ∀ body, (rewrite body).length = (other body).length) :
    rewriteBodies rewrite lines = rewriteBodies other lines ↔
      ∀ body ∈ found, rewrite body = other body := by
  induction sections with
  | nil => simp
  | outside isOther _ ih =>
    rw [rewriteBodies_outside isOther, rewriteBodies_outside isOther, cons_inj_right, ih]
  | function found _ inside ends _ ih =>
    rw [rewriteBodies_function found inside ends, rewriteBodies_function found inside ends,
      cons_inj_right, forall_mem_cons, ← ih]
    exact ⟨fun same => append_inj same (sameLength _),
      fun ⟨sameBody, sameTail⟩ => by rw [sameBody, sameTail]⟩

theorem rewriteBodies_id {found : List (List String)} (sections : Sections lines found) :
    rewriteBodies id lines = lines := by
  induction sections with
  | nil => rw [rewriteBodies_nil]
  | outside other _ ih => rw [rewriteBodies_outside other, ih]
  | function found _ inside ends _ ih =>
    rw [rewriteBodies_function found inside ends, ih]
    rfl

section

variable (perm : ∀ body, (rewrite body).Perm body)
include perm

theorem rewriteBodies_perm {found : List (List String)} (sections : Sections lines found) :
    (rewriteBodies rewrite lines).Perm lines := by
  induction sections with
  | nil => rw [rewriteBodies_nil]
  | outside other _ ih =>
    rw [rewriteBodies_outside other]
    exact ih.cons _
  | function found _ inside ends _ ih =>
    rw [rewriteBodies_function found inside ends]
    exact ((perm _).append ih).cons _

/-- With bodies rewritten, the functions still follow one another. -/
theorem Sectioned.rewriteBodies (sectioned : Sectioned lines) :
    Sectioned (rewriteBodies rewrite lines) := by
  induction sectioned with
  | nil =>
    rw [rewriteBodies_nil]
    exact .nil
  | outside other _ ih =>
    rw [rewriteBodies_outside other]
    exact .outside other ih
  | function found statements inside ends _ ih =>
    rw [rewriteBodies_function found inside ends]
    refine .function found ?_ ?_ ?_ ih
    · exact fun line mem => statements line ((perm _).mem_iff.mp mem)
    · exact fun mem => inside ((perm _).mem_iff.mp mem)
    · rwa [head?_rewriteBodies]

theorem rewriteBodies_rewriteBodies (sectioned : Sectioned lines) :
    Listing.rewriteBodies again (Listing.rewriteBodies rewrite lines) =
      Listing.rewriteBodies (again ∘ rewrite) lines := by
  induction sectioned with
  | nil => simp only [rewriteBodies_nil]
  | outside other _ ih =>
    rw [rewriteBodies_outside other, rewriteBodies_outside other, rewriteBodies_outside other, ih]
  | function found _ inside ends _ ih =>
    have insideRewritten := fun mem => inside ((perm _).mem_iff.mp mem)
    rw [rewriteBodies_function found inside ends, rewriteBodies_function found inside ends,
      rewriteBodies_function found insideRewritten (by rwa [head?_rewriteBodies]),
      ih]
    rfl

/-- What is read off the lines but not off statements is the same with bodies rewritten. -/
theorem filterMap_rewriteBodies {α : Type} {read? : String → Option α}
    (unread : ∀ line, IsStatement line → read? line = none) (sectioned : Sectioned lines) :
    (Listing.rewriteBodies rewrite lines).filterMap read? = lines.filterMap read? := by
  induction sectioned with
  | nil => rw [rewriteBodies_nil]
  | outside other _ ih =>
    rw [rewriteBodies_outside other, filterMap_cons, filterMap_cons, ih]
  | @function line header body tail found statements inside ends sectioned ih =>
    have nothing : ∀ some : List String, (∀ line ∈ some, line ∈ body) →
        some.filterMap read? = [] := fun some subset =>
      filterMap_eq_nil_iff.mpr fun line mem =>
        unread line (statements line (subset line mem))
    rw [rewriteBodies_function found inside ends, filterMap_cons, filterMap_cons,
      filterMap_append, filterMap_append, ih,
      nothing (rewrite body) fun line => (perm body).mem_iff.mp, nothing body fun _ => id]

end

end

/-! ### Declarations -/

theorem getLast?_of_suffix (suffix : rest <:+ whole)
    (isLast : rest.getLast? = some last) : whole.getLast? = some last := by
  obtain ⟨-, rfl⟩ := suffix
  rw [getLast?_append, isLast, Option.some_or]

theorem suffix_of_after? (found : after? start chars = some rest) : rest <:+ chars :=
  ⟨_, (after?_eq_some.mp found).symm⟩

theorem getLast?_of_declarationFrom?
    (declares : declarationFrom? type chars = some found) : chars.getLast? = some ';' := by
  obtain ⟨_, _, rfl, ends, -⟩ := declarationFrom?_eq_some.mp declares
  obtain ⟨-, visibility, -, value, -, rfl⟩ := declarationEnd?_eq_some.mp ends
  cases value <;> simp [declarationEnding, valueEnding, getLast?_cons]

theorem getLast?_of_declaration? (declares : declaration? line = some found) :
    line.toList.getLast? = some ';' := by
  unfold declaration? at declares
  dsimp only at declares
  split at declares
  · contradiction
  · cases isRest : line.toList.dropWhile isBlankChar with
    | nil =>
      rw [isRest] at declares
      contradiction
    | cons c rest =>
      rw [isRest] at declares
      dsimp only at declares
      split at declares
      · contradiction
      · obtain ⟨_, from?, -⟩ := Option.bind_eq_some_iff.mp declares
        have behind : rest <:+ line.toList :=
          ((suffix_cons c rest).trans (isRest ▸ suffix_refl _)).trans (dropWhile_suffix isBlankChar)
        exact getLast?_of_suffix behind (getLast?_of_declarationFrom? from?)

theorem declaration?_eq_none_of_last
    (ends : line.toList.getLast? = some last) (other : last ≠ ';') : declaration? line = none := by
  cases declares : declaration? line with
  | none => rfl
  | some =>
    rw [getLast?_of_declaration? declares] at ends
    exact absurd (Option.some.inj ends).symm other

theorem functionHeader?_of_declaration? (declares : declaration? line = some found) :
    functionHeader? line = none :=
  functionHeader?_of_last (getLast?_of_declaration? declares) (by decide)

theorem declaration?_of_functionHeader?
    (found : functionHeader? line = some header) : declaration? line = none := by
  cases declares : declaration? line with
  | none => rfl
  | some =>
    rw [functionHeader?_of_declaration? declares] at found
    contradiction

theorem getLast?_closing (header : FunctionHeader) :
    header.closing.toList.getLast? = some '\x7d' := by
  simp [FunctionHeader.closing]

theorem packWith_cons (other : declaration? line = none) : packWith enumNames
    (line :: rest) = line :: packWith enumNames rest := by
  rw [packWith, layoutParts_other other, arrange_nil, nil_append]

theorem packWith_append (others : ∀ line ∈ plain, declaration? line = none)
    (enumNames : List String) (rest : List String) :
    packWith enumNames (plain ++ rest) = plain ++ packWith enumNames rest := by
  induction plain with
  | nil => rfl
  | cons _ _ ih =>
    obtain ⟨here, later⟩ := forall_mem_cons.mp others
    rw [cons_append, packWith_cons here, ih later, cons_append]

theorem rewriteBodies_append (others : ∀ line ∈ plain, functionHeader? line = none)
    (rewrite : List String → List String) (rest : List String) :
    rewriteBodies rewrite (plain ++ rest) = plain ++ rewriteBodies rewrite rest := by
  induction plain with
  | nil => rfl
  | cons _ _ ih =>
    obtain ⟨here, later⟩ := forall_mem_cons.mp others
    rw [cons_append, rewriteBodies_outside here, ih later, cons_append]

/-- A run of declarations holds no header. -/
theorem functionHeader?_of_mem_arrange (lines : List String) :
    ∀ line ∈ arrange enumNames (layoutParts enumNames lines).1, functionHeader? line = none := by
  intro _ mem
  obtain ⟨_, isEntry, rfl⟩ := mem_map.mp mem
  exact functionHeader?_of_declaration?
    (declaration?_of_mem_layoutParts ((arranged_perm _).mem_iff.mp isEntry))

/-- Packing keeps the brace that a function ends with. -/
theorem ends_packWith (ends : ∀ next ∈ tail.head?, next = header.closing) :
    ∀ next ∈ (packWith enumNames tail).head?, next = header.closing := by
  cases tail with
  | nil => simp [packWith, layoutParts]
  | cons next =>
    cases ends next rfl
    rw [packWith_cons (declaration?_eq_none_of_last (getLast?_closing header) (by decide))]
    exact ends

theorem packWith_rewriteBodies_of (parts : layoutParts enumNames (rewriteBodies rewrite lines) =
      ((layoutParts enumNames lines).1, rewriteBodies rewrite (layoutParts enumNames lines).2)) :
    packWith enumNames (rewriteBodies rewrite lines) =
      rewriteBodies rewrite (packWith enumNames lines) := by
  rw [packWith, parts, packWith, rewriteBodies_append (functionHeader?_of_mem_arrange _)]

/-- The runs of declarations are those of the listing, whatever becomes of the bodies. -/
theorem layoutParts_rewriteBodies (perm : ∀ body, (rewrite body).Perm body)
    (sectioned : Sectioned lines) :
    layoutParts enumNames (rewriteBodies rewrite lines) =
      ((layoutParts enumNames lines).1, rewriteBodies rewrite (layoutParts enumNames lines).2) := by
  induction sectioned with
  | nil => simp [layoutParts]
  | @outside line rest other sectioned ih =>
    rw [rewriteBodies_outside other]
    cases declares : declaration? line with
    | some =>
      rw [layoutParts_entry declares, layoutParts_entry declares, ih]
    | none =>
      rw [layoutParts_other declares, layoutParts_other declares,
        rewriteBodies_outside other, packWith_rewriteBodies_of ih]
  | @function line header body tail found statements inside ends sectioned ih =>
    have noDeclarations : ∀ line ∈ rewrite body, declaration? line = none :=
      fun line mem => (statements line ((perm body).mem_iff.mp mem)).noDeclaration
    have declares := declaration?_of_functionHeader? found
    rw [rewriteBodies_function found inside ends, layoutParts_other declares,
      layoutParts_other declares, packWith_append noDeclarations,
      packWith_append fun line mem => (statements line mem).noDeclaration,
      rewriteBodies_function found inside (ends_packWith ends),
      packWith_rewriteBodies_of ih]

/-- Declarations can be packed before or after bodies are rewritten. -/
theorem packWith_rewriteBodies (perm : ∀ body, (rewrite body).Perm body)
    (sectioned : Sectioned lines) :
    packWith enumNames (rewriteBodies rewrite lines) =
      rewriteBodies rewrite (packWith enumNames lines) :=
  packWith_rewriteBodies_of (layoutParts_rewriteBodies perm sectioned)

/-! ### Moving updates -/

/-- A function body with its updates moved. -/
def moveInBody (tables : List String) (body : List String) : List String :=
  (reorderBody "" tables body).1

theorem reorderBody_fst (tables body : List String) :
    (reorderBody function tables body).1 = moveInBody tables body := by
  unfold moveInBody reorderBody reorderGroups
  split
  · rfl
  · rfl

theorem moveInBody_perm (tables body : List String) : (moveInBody tables body).Perm body := by
  have kept := (reorderGroups_perm "" tables (statementsOf body)).flatten
  rwa [statementsOf_flatten] at kept

/-- A function between the lines ahead of it and those from its closing brace on. -/
theorem reorderFunction_between (line : String) (body tail : List String) :
    (reorderFunction tables (front ++ [line] ++ body ++ tail)
        ⟨name, front.length, front.length + 1 + body.length⟩).1 =
      front ++ [line] ++ moveInBody tables body ++ tail := by
  have ahead : (front ++ [line]).length = front.length + 1 := by simp
  have upToBody : (front ++ [line] ++ body).length = front.length + 1 + body.length := by
    rw [length_append, ahead]
  have within : FunctionSpan.Within ⟨name, front.length, front.length + 1 + body.length⟩
      (front ++ [line] ++ body ++ tail).length := by
    rw [length_append, upToBody]
    exact ⟨by simp only; omega, by simp⟩
  have isBody : bodyOf (front ++ [line] ++ body ++ tail)
      ⟨name, front.length, front.length + 1 + body.length⟩ = body := by
    rw [bodyOf, take_left' upToBody, drop_left' ahead]
  rw [reorderFunction_eq within, isBody, reorderBody_fst, drop_left' upToBody,
    append_assoc (front ++ [line]) body, take_left' ahead]

/-- Functions from a place on are rewritten, the last one first, with the lines ahead kept. -/
theorem foldr_reorderNext_fst {found : List (List String)}
    (sections : Sections lines found) (front : List String) :
    ((functionSpansFrom front.length lines).foldr (reorderNext tables) (front ++ lines, [])).1 =
      front ++ rewriteBodies (moveInBody tables) lines := by
  induction sections generalizing front with
  | nil => simp [functionSpansFrom]
  | @outside line rest _ other later ih =>
    have later := ih (front ++ [line])
    rw [functionSpansFrom, other, rewriteBodies_outside other]
    simpa using later
  | @function line header body tail _ found plain inside ends _ ih =>
    have later := ih (front ++ [line] ++ body)
    have isPlace : (front ++ [line] ++ body).length = front.length + 1 + body.length := by
      rw [length_append, length_append, length_singleton]
    have isLines : front ++ line :: (body ++ tail) = front ++ [line] ++ body ++ tail := by simp
    have isClosing : header.indent ++ "\x7d" = header.closing := rfl
    rw [isPlace] at later
    rw [functionSpansFrom, found, functionSpansFrom_append_of_plain plain, isLines,
      rewriteBodies_function found inside ends]
    simp only [isClosing, (cut_closing inside ends).1, foldr_cons]
    rw [reorderNext, later, reorderFunction_between]
    simp

theorem moveInBody_nil (body : List String) : moveInBody [] body = body := by
  have noneMoves : ¬ Movable [] (statementsOf body) := by
    rintro ⟨_, _, _, _, _, -, -, -, goes⟩
    obtain ⟨_, updated, -⟩ := goesAhead_iff.mp goes
    obtain ⟨_, rfl, _⟩ := updatedTable?_eq_some updated
    simp [updatedTable?] at updated
  rw [moveInBody, reorderBody, reorderGroups_eq_self_iff.mpr noneMoves, statementsOf_flatten]

/-- If function bodies hold nothing but statements, moving updates rewrites each of them. -/
theorem reorderCalls_rewrites {found : List (List String)} (sections : Sections lines found) :
    (reorderCalls lines).1 = rewriteBodies (moveInBody (tableVariables lines)) lines := by
  by_cases none : tableVariables lines = []
  · have same : (reorderCalls lines).1 = lines := by
      rw [reorderCalls, none]
      rfl
    have still : moveInBody [] = id := funext moveInBody_nil
    rw [same, none, still, rewriteBodies_id sections]
  · rw [reorderCalls_eq_foldr none]
    exact foldr_reorderNext_fst _ sections []

/-- The variables of a listing are read off its declarations. -/
theorem variablesWith_congr (same : others.filterMap declaration? = lines.filterMap declaration?) :
    variablesWith test others = variablesWith test lines := by
  rw [variablesWith, variablesWith, stateVariables, stateVariables, same]

theorem tableVariables_reorderCalls (sectioned : Sectioned lines) :
    tableVariables (reorderCalls lines).1 = tableVariables lines := by
  rw [reorderCalls_rewrites sectioned.sections]
  exact variablesWith_congr (filterMap_rewriteBodies (moveInBody_perm _)
    (fun _ statement => statement.noDeclaration) sectioned)

theorem Sectioned.reorderCalls (sectioned : Sectioned lines) :
    Sectioned (reorderCalls lines).1 := by
  rw [reorderCalls_rewrites sectioned.sections]
  exact sectioned.rewriteBodies (moveInBody_perm _)

/-- Updates move again exactly if they do so in one of the bodies. -/
theorem reorderCalls_reorderCalls_iff (sectioned : Sectioned lines)
    (opens : ∀ body ∈ bodies lines, ∀ first ∈ body.head?, closes first = false) :
    (reorderCalls (reorderCalls lines).1).1 = (reorderCalls lines).1 ↔
      ∀ body ∈ bodies lines, ¬ Movable (tableVariables lines)
        (movedFront (tableVariables lines) (statementsOf body)) := by
  have perm := moveInBody_perm (tableVariables lines)
  rw [reorderCalls_rewrites sectioned.reorderCalls.sections, tableVariables_reorderCalls sectioned,
    reorderCalls_rewrites sectioned.sections, rewriteBodies_rewriteBodies perm sectioned]
  refine (rewriteBodies_eq_iff sectioned.sections fun body => (perm _).length_eq).trans ?_
  refine forall_congr' fun body => forall_congr' fun mem => ?_
  exact reorderBody_reorderBody_iff (opens body mem)

/-! ### Lines behind a contract header -/

def behindHeader (lines : List String) : List String :=
  (lines.dropWhile fun line => !isContractHeader line).tail

theorem behindHeader_cons (line : String) :
    behindHeader (line :: rest) = if isContractHeader line then rest else behindHeader rest := by
  unfold behindHeader
  cases isHeader : isContractHeader line with
  | true => rw [dropWhile_cons_of_neg (by simp [isHeader])]; rfl
  | false => rw [dropWhile_cons_of_pos (by simp [isHeader])]; rfl

theorem behindHeader_append (others : ∀ line ∈ plain, isContractHeader line = false) : behindHeader
    (plain ++ rest) = behindHeader rest := by
  unfold behindHeader
  rw [dropWhile_append_of_pos (by simpa using others)]

/-- Rewriting bodies exchanges no lines with what is ahead of the first contract header. -/
theorem behindHeader_rewriteBodies_perm (perm : ∀ body, (rewrite body).Perm body)
    (sectioned : Sectioned lines) :
    (behindHeader (rewriteBodies rewrite lines)).Perm (behindHeader lines) := by
  induction sectioned with
  | nil => rw [rewriteBodies_nil]
  | outside other sectioned ih =>
    rw [rewriteBodies_outside other, behindHeader_cons, behindHeader_cons]
    split
    · exact rewriteBodies_perm perm sectioned.sections
    · exact ih
  | @function line header body tail found statements inside ends sectioned ih =>
    have ofRewritten : ∀ line ∈ rewrite body, isContractHeader line = false :=
      fun line mem => (statements line ((perm body).mem_iff.mp mem)).noContract
    rw [rewriteBodies_function found inside ends, behindHeader_cons, behindHeader_cons]
    split
    · exact (perm body).append (rewriteBodies_perm perm sectioned.sections)
    · rw [behindHeader_append ofRewritten,
        behindHeader_append fun line mem => (statements line mem).noContract]
      exact ih

end ContractForge.Listing
