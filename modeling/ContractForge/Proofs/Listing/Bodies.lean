import ContractForge.Proofs.Listing.Hazard
import Mathlib.Data.List.TakeWhile

/-!
# Functions that follow one another

Updates are moved function by function, the last function first, and a function
is found again by the places of its header and its closing brace. Moving keeps
every line outside the function in its place. So if the functions of a listing
follow one another, each body is rewritten as if it stood alone, which is what
`reorderCalls_bodies` says. The reports of a listing can then be read off its
bodies one by one.
-/

namespace ContractForge.Listing

open Text List

variable {tables lines body : List String} {span : FunctionSpan} {indent function : String}
  {groups : List Group}

/-! ### Bodies -/

/-- The lines between the header of a function and its closing brace. -/
def bodyOf (lines : List String) (span : FunctionSpan) : List String :=
  (lines.take span.closing).drop (span.header + 1)

/-- The statements of a function body, which is indented like its first line. -/
def statementsOf : List String → List Group
  | [] => []
  | first :: rest =>
    statementGroups (String.ofList (first.toList.takeWhile isSpace)) (first :: rest)

/-- A function body with its updates moved, and what was reported. -/
def reorderBody (function : String) (tables : List String) (body : List String) :
    List String × List Diagnostic :=
  let reordered := reorderGroups function tables (statementsOf body)
  (reordered.1.flatten, reordered.2)

theorem statementParts_flatten (indent : String) (lines : List String) :
    (statementParts indent lines).1 ++ (statementParts indent lines).2.flatten = lines := by
  induction lines with
  | nil => rfl
  | cons line _ ih =>
    unfold statementParts
    cases startsStatement indent line <;> simp [ih]

/-- Cutting a body into statements loses no line. -/
theorem statementsOf_flatten (body : List String) : (statementsOf body).flatten = body := by
  cases body with
  | nil => rfl
  | cons => simp [statementsOf, statementGroups, statementParts_flatten]

theorem reorderGroups_perm (function : String) (tables : List String) (groups : List Group) :
    (reorderGroups function tables groups).1.Perm groups := by
  rw [reorderGroups_eq_map]
  refine ((arrangement_perm tables groups).map _).trans ?_
  rw [map_groupAt_range _ (Nat.le_refl _), take_length]

theorem reorderBody_length (function : String) (tables : List String) (body : List String) :
    (reorderBody function tables body).1.length = body.length := by
  have kept := (reorderGroups_perm function tables (statementsOf body)).flatten.length_eq
  rw [statementsOf_flatten] at kept
  exact kept

/-! ### Cutting -/

/-- Each statement starts where a statement can start, and nowhere else in it could one. -/
def Cut (indent : String) (groups : List Group) : Prop :=
  ∀ group ∈ groups, ∃ first rest, group = first :: rest ∧ startsStatement indent first = true ∧
    ∀ line ∈ rest, startsStatement indent line = false

theorem statementParts_append (inside : ∀ line ∈ leading, startsStatement indent line = false) :
    statementParts indent (leading ++ rest) =
      (leading ++ (statementParts indent rest).1, (statementParts indent rest).2) := by
  induction leading with
  | nil => rfl
  | cons _ _ ih =>
    obtain ⟨ofLine, ofOthers⟩ := forall_mem_cons.mp inside
    rw [cons_append, statementParts, ih ofOthers]
    simp [ofLine]

theorem Cut.statementParts_flatten (cut : Cut indent groups) :
    statementParts indent groups.flatten = ([], groups) := by
  induction groups with
  | nil => rfl
  | cons _ _ ih =>
    obtain ⟨⟨_, _, rfl, starts, inside⟩, ofOthers⟩ := forall_mem_cons.mp cut
    rw [flatten_cons, cons_append, statementParts, statementParts_append inside, ih ofOthers]
    simp [starts]

theorem Cut.statementGroups_flatten (cut : Cut indent groups) :
    statementGroups indent groups.flatten = groups := by
  cases groups with
  | nil => rfl
  | cons =>
    obtain ⟨⟨_, _, rfl, -, inside⟩, ofOthers⟩ := forall_mem_cons.mp cut
    rw [flatten_cons, cons_append, statementGroups, statementParts_append inside,
      Cut.statementParts_flatten ofOthers]
    simp

/-! ### One function -/

/-- A function lies within a listing of the given length. -/
def FunctionSpan.Within (span : FunctionSpan) (length : Nat) : Prop :=
  span.header < span.closing ∧ span.closing ≤ length

theorem exists_of_mem_functionSpansFrom (mem : span ∈ functionSpansFrom place lines) :
    ∃ front line rest header, lines = front ++ line :: rest ∧ functionHeader? line = some header ∧
      span = ⟨header.name, place + front.length,
        place + front.length + 1 + (rest.takeWhile (· != header.indent ++ "\x7d")).length⟩ := by
  induction lines generalizing place with
  | nil => contradiction
  | cons first others ih =>
    rw [functionSpansFrom] at mem
    have isSpan : (∃ header, functionHeader? first = some header ∧ span = ⟨header.name, place,
        place + 1 + (others.takeWhile (· != header.indent ++ "\x7d")).length⟩) ∨
        span ∈ functionSpansFrom (place + 1) others := by
      split at mem
      · exact .inr mem
      · rename_i found
        exact (mem_cons.mp mem).imp_left fun isFirst => ⟨_, found, isFirst⟩
    obtain ⟨header, found, rfl⟩ | later := isSpan
    · exact ⟨[], first, others, header, rfl, found, rfl⟩
    · obtain ⟨front, line, rest, header, rfl, isHeader, rfl⟩ := ih later
      have shift : place + 1 + front.length = place + (first :: front).length := by
        rw [length_cons]
        omega
      rw [shift]
      exact ⟨first :: front, line, rest, header, rfl, isHeader, rfl⟩

theorem functionSpansFrom_bounds (mem : span ∈ functionSpansFrom place lines) :
    place ≤ span.header ∧ span.Within (place + lines.length) := by
  obtain ⟨front, _, rest, header, rfl, -, rfl⟩ := exists_of_mem_functionSpansFrom mem
  have short : (rest.takeWhile (· != header.indent ++ "\x7d")).length ≤ rest.length :=
    (takeWhile_sublist _).length_le
  simp only [FunctionSpan.Within, length_append, length_cons]
  omega

theorem functionSpans_within (mem : span ∈ functionSpans lines) : span.Within lines.length := by
  simpa using (functionSpansFrom_bounds mem).2

/-- Only the body of the function is rewritten. -/
theorem reorderFunction_eq (within : span.Within lines.length) :
    reorderFunction tables lines span =
      (lines.take (span.header + 1) ++
        (reorderBody span.name tables (bodyOf lines span)).1 ++ lines.drop span.closing,
        (reorderBody span.name tables (bodyOf lines span)).2) := by
  unfold reorderFunction
  simp only
  cases body : bodyOf lines span with
  | nil =>
    have empty : (lines.take span.closing).drop (span.header + 1) = [] := body
    have closes : span.closing = span.header + 1 := by
      have := congrArg List.length empty
      simp only [length_drop, length_take, length_nil] at this
      obtain ⟨_, _⟩ := within
      omega
    simp [reorderBody, statementsOf, reorderGroups, closes]
  | cons first rest =>
    have found : (lines.take span.closing).drop (span.header + 1) = first :: rest := body
    rw [found]
    rfl

/-- A body depends only on the lines up to its end. -/
theorem bodyOf_eq_of_take (same : others.take bound = lines.take bound)
    (ends : span.closing ≤ bound) : bodyOf others span = bodyOf lines span := by
  have shorter (listing : List String) :
      listing.take span.closing = (listing.take bound).take span.closing := by
    rw [take_take, Nat.min_eq_left ends]
  rw [bodyOf, bodyOf, shorter others, shorter lines, same]

/-- A body depends only on the lines from its header on. -/
theorem bodyOf_eq_of_drop (same : others.drop bound = lines.drop bound)
    (starts : bound ≤ span.header) : bodyOf others span = bodyOf lines span := by
  have later (listing : List String) :
      listing.drop (span.header + 1) = (listing.drop bound).drop (span.header + 1 - bound) := by
    rw [drop_drop, Nat.add_sub_of_le (by omega)]
  rw [bodyOf, bodyOf, drop_take, drop_take, later others, later lines, same]

section

variable {tables lines : List String} {span : FunctionSpan} (within : span.Within lines.length)
include within

theorem bodyOf_length : (bodyOf lines span).length = span.closing - (span.header + 1) := by
  rw [bodyOf, length_drop, length_take, Nat.min_eq_left within.2]

theorem reorderFunction_take (ends : bound ≤ span.header) :
    (reorderFunction tables lines span).1.take bound = lines.take bound := by
  have inside : bound ≤ (lines.take (span.header + 1)).length := by
    rw [length_take]
    obtain ⟨_, _⟩ := within
    omega
  rw [reorderFunction_eq within, append_assoc, take_append_of_le_length inside,
    take_take, Nat.min_eq_left (by omega)]

/-- The rewritten listing up to the end of the body is as long as it was. -/
theorem length_front :
    (lines.take (span.header + 1) ++
      (reorderBody span.name tables (bodyOf lines span)).1).length = span.closing := by
  rw [length_append, reorderBody_length, bodyOf_length within, length_take]
  obtain ⟨_, _⟩ := within
  omega

theorem reorderFunction_drop :
    (reorderFunction tables lines span).1.drop span.closing = lines.drop span.closing := by
  rw [reorderFunction_eq within]
  exact drop_left' (length_front within)

theorem reorderFunction_length : (reorderFunction tables lines span).1.length = lines.length := by
  have front : (reorderFunction tables lines span).1.length =
      span.closing + (lines.drop span.closing).length := by
    rw [reorderFunction_eq within, length_append, length_front within]
  rw [front, length_drop]
  exact Nat.add_sub_of_le within.2

theorem bodyOf_reorderFunction :
    bodyOf (reorderFunction tables lines span).1 span =
      (reorderBody span.name tables (bodyOf lines span)).1 := by
  have start : (lines.take (span.header + 1)).length = span.header + 1 := by
    rw [length_take]
    obtain ⟨_, _⟩ := within
    omega
  rw [reorderFunction_eq within, bodyOf, take_left' (length_front within), drop_left' start]

end

/-! ### All functions -/

/-- No function of the listing starts before the one ahead of it has ended. -/
def FollowOneAnother (lines : List String) : Prop :=
  (functionSpans lines).Pairwise fun earlier later => earlier.closing ≤ later.header

instance (lines : List String) : Decidable (FollowOneAnother lines) :=
  inferInstanceAs (Decidable (List.Pairwise _ _))

/-- Move the updates of one more function. -/
def reorderNext (tables : List String) (span : FunctionSpan)
    (done : List String × List Diagnostic) : List String × List Diagnostic :=
  ((reorderFunction tables done.1 span).1, done.2 ++ (reorderFunction tables done.1 span).2)

theorem reorderCalls_eq_foldr (some : tableVariables lines ≠ []) : reorderCalls lines =
      (functionSpans lines).foldr (reorderNext (tableVariables lines)) (lines, []) := by
  have listed : (tableVariables lines).isEmpty = false := by simpa using some
  rw [reorderCalls]
  simp only [listed, foldl_reverse]
  rfl

def bodyReports (tables lines : List String) (span : FunctionSpan) : List Diagnostic :=
  (reorderBody span.name tables (bodyOf lines span)).2

/-- Rewriting functions that follow one another, the last one first: the length and everything
ahead of the functions is kept, each body is rewritten as it was, and the reports are those of
the bodies. -/
theorem foldr_reorderNext {spans : List FunctionSpan}
    (within : ∀ span ∈ spans, span.Within lines.length)
    (follow : spans.Pairwise fun earlier later => earlier.closing ≤ later.header) :
    let result := spans.foldr (reorderNext tables) (lines, [])
    result.1.length = lines.length ∧
      (∀ bound, (∀ span ∈ spans, bound ≤ span.header) →
        result.1.take bound = lines.take bound) ∧
      (∀ span ∈ spans, bodyOf result.1 span =
        (reorderBody span.name tables (bodyOf lines span)).1) ∧
      result.2 = spans.reverse.flatMap (bodyReports tables lines) := by
  induction spans with
  | nil => simp
  | cons span later ih =>
    obtain ⟨ends, laterFollow⟩ := pairwise_cons.mp follow
    obtain ⟨length, ahead, bodies, reports⟩ :=
      ih (fun other mem => within other (mem_cons_of_mem _ mem)) laterFollow
    simp only [foldr_cons]
    generalize later.foldr (reorderNext tables) (lines, []) = done at *
    have inside : span.Within done.1.length := by
      rw [length]
      exact within span mem_cons_self
    have untouched := bodyOf_eq_of_take (ahead span.closing ends) (Nat.le_refl _)
    refine ⟨?_, ?_, ?_, ?_⟩
    · exact (reorderFunction_length inside).trans length
    · intro bound lowest
      have front : (reorderNext tables span done).1.take bound = done.1.take bound :=
        reorderFunction_take inside (lowest span mem_cons_self)
      exact front.trans (ahead bound fun other mem => lowest other (mem_cons_of_mem _ mem))
    · intro other mem
      rcases mem_cons.mp mem with rfl | mem
      · rw [reorderNext, bodyOf_reorderFunction inside, untouched]
      · have kept : (reorderNext tables span done).1.drop span.closing =
            done.1.drop span.closing := reorderFunction_drop inside
        exact (bodyOf_eq_of_drop kept (ends other mem)).trans (bodies other mem)
    · rw [reorderNext, reports, reverse_cons, flatMap_append, reorderFunction_eq inside, untouched]
      simp [bodyReports]

/-- In a listing whose functions follow one another, each body is rewritten as if it stood
alone. -/
theorem reorderCalls_bodies (some : tableVariables lines ≠ []) (follow : FollowOneAnother lines) :
    (∀ span ∈ functionSpans lines, bodyOf (reorderCalls lines).1 span =
      (reorderBody span.name (tableVariables lines) (bodyOf lines span)).1) ∧
      (reorderCalls lines).2 =
        (functionSpans lines).reverse.flatMap (bodyReports (tableVariables lines) lines) := by
  rw [reorderCalls_eq_foldr some]
  exact (foldr_reorderNext (fun _ => functionSpans_within) follow).2.2

/-! ### Reports -/

/-- It is reported that a function updates a table behind a call. -/
def Warned (function : String) (reports : List Diagnostic) : Prop :=
  ∃ detail, Diagnostic.reentrancy function detail ∈ reports

def OverlookedIn (tables body : List String) : Prop :=
  ∃ call rest, (statementsOf body).dropWhile (fun group => !isExternalCall group) = call :: rest ∧
    Overlooked tables call rest

theorem updatesTable_nil (lines : List String) : updatesTable [] lines = false := by
  rw [updatesTable, any_eq_false]
  intro line _
  cases found : entryTarget? line <;> simp [updatedTable?, found]

theorem not_updateAfterCall_nil (lines : List String) : ¬ UpdateAfterCall [] lines := by
  intro hazard
  have updates := updatesTable_of_updateAfterCall hazard
  rw [updatesTable_nil] at updates
  contradiction

theorem not_overlooked_nil : ¬ Overlooked [] call rest := by
  rintro (hazard | hazard | ⟨-, updates⟩ | ⟨_, -, -, updates⟩)
  · exact not_updateAfterCall_nil _ hazard
  · exact not_updateAfterCall_nil _ hazard
  all_goals
    rw [updatesTable_nil] at updates
    contradiction

/-- A function body about which nothing is reported is hazardous exactly if something in it is
overlooked. -/
theorem reorderBody_updateAfterCall_iff
    (silent : ¬ Warned function (reorderBody function tables body).2) :
    UpdateAfterCall tables (reorderBody function tables body).1 ↔ OverlookedIn tables body := by
  unfold OverlookedIn
  cases found : (statementsOf body).dropWhile fun group => !isExternalCall group with
  | nil =>
    have quiet : isExternalCall body = false := by
      rw [← statementsOf_flatten body, isExternalCall_flatten, any_eq_false]
      simpa using dropWhile_eq_nil_iff.mp found
    have same : (reorderBody function tables body).1 = body := by
      rw [reorderBody, reorderGroups, found]
      exact statementsOf_flatten body
    rw [same]
    simp [not_updateAfterCall_of_not_call quiet]
  | cons call rest =>
    have calls : isExternalCall call := by
      have stops := head?_dropWhile_not (fun group => !isExternalCall group) (statementsOf body)
      simpa [found] using stops
    have quietBefore : ∀ group ∈ (statementsOf body).takeWhile fun group =>
        !isExternalCall group, isExternalCall group = false := by
      intro _ mem
      simpa using mem_takeWhile_imp mem
    have noReasons : (moveUpdates tables { stayed := [call] } rest).reasons = [] := by
      cases reasons : (moveUpdates tables { stayed := [call] } rest).reasons with
      | nil => rfl
      | cons reason =>
        refine absurd ⟨reason, ?_⟩ silent
        simp [reorderBody, reorderGroups, found, reasons]
    have outcome : (reorderBody function tables body).1 =
        (((statementsOf body).takeWhile fun group => !isExternalCall group) ++
          (moveUpdates tables { stayed := [call] } rest).moved ++
          (moveUpdates tables { stayed := [call] } rest).stayed).flatten := by
      rw [reorderBody, reorderGroups, found]
    rw [outcome, silent_updateAfterCall_iff calls quietBefore noReasons]
    constructor
    · exact fun overlooked => ⟨call, rest, rfl, overlooked⟩
    · rintro ⟨_, _, equal, overlooked⟩
      cases equal
      exact overlooked

/-- In a listing whose functions follow one another, a function about which nothing is reported is
hazardous exactly if something in it was overlooked. -/
theorem reorderCalls_updateAfterCall_iff (follow : FollowOneAnother lines)
    (mem : span ∈ functionSpans lines) (silent : ¬ Warned span.name (reorderCalls lines).2) :
    UpdateAfterCall (tableVariables lines) (bodyOf (reorderCalls lines).1 span) ↔
      OverlookedIn (tableVariables lines) (bodyOf lines span) := by
  by_cases none : tableVariables lines = []
  · simp only [none, not_updateAfterCall_nil, OverlookedIn, not_overlooked_nil, and_false,
      exists_const]
  · obtain ⟨bodies, reports⟩ := reorderCalls_bodies none follow
    rw [bodies span mem]
    apply reorderBody_updateAfterCall_iff
    rintro ⟨detail, found⟩
    refine silent ⟨detail, ?_⟩
    rw [reports]
    exact mem_flatMap.mpr ⟨span, mem_reverse.mpr mem, found⟩

end ContractForge.Listing
