import ContractForge.Proofs.Listing.Bodies
import ContractForge.Proofs.Listing.Dependence

/-!
# Moving updates a second time

A function in which no update can go in front of the first call stays as it is
(`reorderGroups_eq_self_iff`). After updates were moved, that is so again, unless one of
them calls out itself: then it is the first call from then on, and a later update, or the
call that used to be the first one, may go in front of it (`reorderGroups_reorderGroups_iff`).
-/

namespace ContractForge.Listing

open Text List

variable {group call : Group} {line : String} {stayed rest : List Group}

/-! ### Updates that can move -/

/-- There is an update that nothing from the first call on keeps behind it. -/
def Movable (tables : List String) (groups : List Group) : Prop :=
  ∃ before call between update after,
    groups = before ++ call :: (between ++ update :: after) ∧
      (∀ group ∈ before, isExternalCall group = false) ∧ isExternalCall call = true ∧
      goesAhead tables (call :: between) update = true

/-- The updates that are moved, and the call that they are moved in front of. -/
def movedFront (tables : List String) (groups : List Group) : List Group :=
  match groups.dropWhile fun group => !isExternalCall group with
  | [] => []
  | call :: rest => (moveUpdates tables { stayed := [call] } rest).moved ++ [call]

variable {tables : List String}

/-- What keeps a statement behind it does so among more statements, too. -/
theorem goesAhead_of_subset (subset : fewer ⊆ more)
    (goes : goesAhead tables more group) : goesAhead tables fewer group := by
  obtain ⟨table, updated, unblocked⟩ := goesAhead_iff.mp goes
  exact goesAhead_iff.mpr ⟨table, updated, fun other mem => unblocked other (subset mem)⟩

/-- An update keeps itself back. -/
theorem not_goesAhead_of_mem (mem : group ∈ stayed) : goesAhead tables stayed group = false := by
  cases goes : goesAhead tables stayed group with
  | false => rfl
  | true =>
    obtain ⟨_, updated, unblocked⟩ := goesAhead_iff.mp goes
    have blocked := unblocked group mem
    obtain ⟨_, rfl, found⟩ := updatedTable?_eq_some updated
    have mentioned := contains_iff_mem.mpr (mem_wordsIn_of_entryTarget? found)
    unfold blockedBy? at blocked
    split at blocked
    · contradiction
    · split at blocked <;> contradiction

/-! ### What moving leaves -/

/-- Each statement is kept back by what stayed before or by a statement in front of it. -/
def Stays (tables : List String) (stayed rest : List Group) : Prop :=
  ∀ between group after, rest = between ++ group :: after →
    goesAhead tables (stayed ++ between) group = false

theorem stays_cons :
    Stays tables stayed (group :: rest) ↔
      goesAhead tables stayed group = false ∧ Stays tables (stayed ++ [group]) rest := by
  constructor
  · refine fun stays => ⟨by simpa using stays [] group rest rfl, ?_⟩
    rintro between update after rfl
    simpa using stays (group :: between) update after rfl
  · rintro ⟨first, stays⟩ between update after isRest
    cases between with
    | nil =>
      cases isRest
      rwa [append_nil]
    | cons _ between =>
      obtain ⟨rfl, isLater⟩ := List.cons.inj isRest
      simpa using stays between update after isLater

/-- What is moved can go ahead of what stayed before, and what stays cannot. -/
theorem exists_moveUpdates (tables : List String) (done : Reordering) (rest : List Group) :
    ∃ moved kept, (moveUpdates tables done rest).moved = done.moved ++ moved ∧
      (moveUpdates tables done rest).stayed = done.stayed ++ kept ∧
      (∀ group ∈ moved, goesAhead tables done.stayed group) ∧ Stays tables done.stayed kept ∧
      (moved = [] ∧ kept = rest ∨ moved ≠ [] ∧ ¬Stays tables done.stayed rest) := by
  induction rest generalizing done with
  | nil => exact ⟨[], [], by simp [moveUpdates], by simp [moveUpdates], by simp,
      by simp [Stays], by simp⟩
  | cons group rest ih =>
    rw [moveUpdates_cons]
    obtain ⟨moved, kept, isMoved, isStayed, goAhead, stays, all⟩ := ih (done.step tables group)
    rw [isMoved, isStayed]
    cases goes : goesAhead tables done.stayed group with
    | true =>
      simp only [Reordering.step, goes, if_true] at goAhead stays ⊢
      exact ⟨group :: moved, kept, by simp, rfl, forall_mem_cons.mpr ⟨goes, goAhead⟩, stays,
        .inr (by simp [stays_cons, goes])⟩
    | false =>
      simp only [Reordering.step, goes, Bool.false_eq_true, if_false] at goAhead stays all ⊢
      refine ⟨moved, group :: kept, rfl, by simp, fun update mem => ?_,
        stays_cons.mpr ⟨goes, stays⟩, by simpa [stays_cons, goes] using all⟩
      exact goesAhead_of_subset (subset_append_left _ _) (goAhead update mem)

/-- Nothing is moved exactly if no statement can go ahead of all before it. -/
theorem moved_eq_iff (rest : List Group) :
    (moveUpdates tables done rest).moved = done.moved ↔ Stays tables done.stayed rest := by
  obtain ⟨moved, kept, isMoved, -, -, stays, ⟨rfl, rfl⟩ | ⟨some, goes⟩⟩ :=
    exists_moveUpdates tables done rest
  · simpa [isMoved] using stays
  · simp [isMoved, some, goes]

/-! ### Functions -/

section

variable {groups before : List Group}

/-- A function calls out nowhere, or there is a first call. -/
theorem quiet_or_calls (groups : List Group) :
    (∀ group ∈ groups, isExternalCall group = false) ∨
      ∃ before call rest, groups = before ++ call :: rest ∧
        (∀ group ∈ before, isExternalCall group = false) ∧ isExternalCall call := by
  cases found : groups.dropWhile fun group => !isExternalCall group with
  | nil => exact .inl (by simpa using dropWhile_eq_nil_iff.mp found)
  | cons call rest =>
    have stops := head?_dropWhile_not (fun group => !isExternalCall group) groups
    refine .inr ⟨groups.takeWhile fun group => !isExternalCall group, call, rest, ?_, ?_, ?_⟩
    · rw [← found, takeWhile_append_dropWhile]
    · exact fun group mem => by simpa using mem_takeWhile_imp mem
    · simpa [found] using stops

theorem takeWhile_first_call (rest : List Group)
    (quiet : ∀ group ∈ before, isExternalCall group = false) (calls : isExternalCall call) :
    (before ++ call :: rest).takeWhile (fun group => !isExternalCall group) = before := by
  rw [takeWhile_append_of_pos (by simpa using quiet),
    takeWhile_cons_of_neg (by simp [calls]), append_nil]

theorem dropWhile_first_call (rest : List Group)
    (quiet : ∀ group ∈ before, isExternalCall group = false) (calls : isExternalCall call) :
    (before ++ call :: rest).dropWhile (fun group => !isExternalCall group) = call :: rest := by
  rw [dropWhile_append_of_pos (by simpa using quiet), dropWhile_cons_of_neg (by simp [calls])]

section

variable (quiet : ∀ group ∈ groups, isExternalCall group = false)
include quiet

theorem reorderGroups_of_quiet : (reorderGroups function tables groups).1 = groups := by
  rw [reorderGroups, dropWhile_eq_nil_iff.mpr (by simpa using quiet)]

theorem movedFront_of_quiet : movedFront tables groups = [] := by
  rw [movedFront, dropWhile_eq_nil_iff.mpr (by simpa using quiet)]

theorem not_movable_of_quiet : ¬ Movable tables groups := by
  rintro ⟨_, call, _, _, _, rfl, -, calls, -⟩
  rw [quiet call (by simp)] at calls
  contradiction

end

section

variable {before : List Group} {call : Group} {rest : List Group}
  (quiet : ∀ group ∈ before, isExternalCall group = false) (calls : isExternalCall call)
include quiet calls

theorem reorderGroups_of_call :
    (reorderGroups function tables (before ++ call :: rest)).1 =
      before ++ (moveUpdates tables { stayed := [call] } rest).moved ++
        (moveUpdates tables { stayed := [call] } rest).stayed := by
  rw [reorderGroups, dropWhile_first_call rest quiet calls, takeWhile_first_call rest quiet calls]

theorem movedFront_of_call :
    movedFront tables (before ++ call :: rest) =
      (moveUpdates tables { stayed := [call] } rest).moved ++ [call] := by
  rw [movedFront, dropWhile_first_call rest quiet calls]

theorem not_movable_iff :
    ¬ Movable tables (before ++ call :: rest) ↔
      (moveUpdates tables { stayed := [call] } rest).moved = [] := by
  rw [moved_eq_iff rest]
  constructor
  · intro none between update after isRest
    cases goes : goesAhead tables ([call] ++ between) update with
    | false => rfl
    | true =>
      exact absurd ⟨before, call, between, update, after, by rw [isRest], quiet, calls, goes⟩ none
  · rintro none ⟨others, _, between, update, after, same, othersQuiet, otherCalls, goes⟩
    -- There is only one first call.
    have sameFront : before = others := by
      rw [← takeWhile_first_call rest quiet calls, same,
        takeWhile_first_call _ othersQuiet otherCalls]
    subst sameFront
    obtain ⟨rfl, isRest⟩ := List.cons.inj (append_cancel_left same)
    have stays := none between update after isRest
    rw [singleton_append, goes] at stays
    contradiction

end

/-- A function stays as it is exactly if no update in it can move. -/
theorem reorderGroups_eq_self_iff :
    (reorderGroups function tables groups).1 = groups ↔ ¬ Movable tables groups := by
  obtain quiet | ⟨_, call, rest, rfl, quiet, calls⟩ := quiet_or_calls groups
  · simp [reorderGroups_of_quiet quiet, not_movable_of_quiet quiet]
  · rw [not_movable_iff quiet calls, reorderGroups_of_call quiet calls, append_assoc]
    obtain ⟨moved, kept, isMoved, isStayed, goAhead, -, all⟩ :=
      exists_moveUpdates tables { stayed := [call] } rest
    rw [isMoved, isStayed, nil_append, singleton_append]
    constructor
    · intro same
      have same := append_cancel_left same
      cases moved with
      | nil => rfl
      | cons update =>
        have goes := goAhead update mem_cons_self
        obtain ⟨rfl, -⟩ := List.cons.inj same
        rw [not_goesAhead_of_mem (mem_singleton_self update)] at goes
        contradiction
    · rintro rfl
      obtain ⟨-, rfl⟩ | ⟨some, -⟩ := all
      · rfl
      · contradiction

/-- Updates move again exactly if one of those that were moved can, or the call that they were
moved in front of. -/
theorem reorderGroups_reorderGroups_iff :
    (reorderGroups again tables (reorderGroups function tables groups).1).1 =
        (reorderGroups function tables groups).1 ↔
      ¬ Movable tables (movedFront tables groups) := by
  rw [reorderGroups_eq_self_iff]
  obtain quiet | ⟨before, call, rest, rfl, quiet, calls⟩ := quiet_or_calls groups
  · have noFront : ¬ Movable tables [] := not_movable_of_quiet (by simp)
    simp [reorderGroups_of_quiet quiet, movedFront_of_quiet quiet,
      not_movable_of_quiet quiet, noFront]
  · rw [reorderGroups_of_call quiet calls, movedFront_of_call quiet calls]
    obtain ⟨_, kept, -, isStayed, -, stays, -⟩ :=
      exists_moveUpdates tables { stayed := [call] } rest
    rw [isStayed, singleton_append]
    generalize (moveUpdates tables { stayed := [call] } rest).moved = moved
    obtain quietMoved | ⟨earlier, first, later, rfl, quietEarlier, firstCalls⟩ :=
      quiet_or_calls moved
    · have allQuiet := forall_mem_append.mpr ⟨quiet, quietMoved⟩
      rw [not_movable_iff allQuiet calls, not_movable_iff quietMoved calls, moved_eq_iff,
        moved_eq_iff]
      exact ⟨fun _ => by simp [Stays], fun _ => stays⟩
    · have allQuiet := forall_mem_append.mpr ⟨quiet, quietEarlier⟩
      have output : before ++ (earlier ++ first :: later) ++ call :: kept =
          (before ++ earlier) ++ first :: (later ++ [call] ++ kept) := by simp
      have front : earlier ++ first :: later ++ [call] = earlier ++ first :: (later ++ [call]) := by
        simp
      rw [output, front, not_movable_iff allQuiet firstCalls,
        not_movable_iff quietEarlier firstCalls,
        moved_eq_iff, moved_eq_iff]
      constructor
      · intro none between update after isFront
        exact none between update (after ++ kept) (by rw [isFront]; simp)
      · intro none between update after isOutput
        -- Whatever stayed behind the old first call is still kept back by what kept it back.
        have stillStays : ∀ tail, kept = tail ++ update :: after →
            between = later ++ [call] ++ tail →
              goesAhead tables ([first] ++ between) update = false := by
          rintro tail isKept rfl
          refine Bool.eq_false_iff.mpr fun goes => ?_
          have stays := stays tail update after isKept
          rw [goesAhead_of_subset (by simp) goes] at stays
          contradiction
        obtain ⟨tail, isBetween, isKept⟩ | ⟨tail, isFront, isAfter⟩ :=
          append_eq_append_iff.mp isOutput
        · exact stillStays tail isKept isBetween
        · cases tail with
          | nil => exact stillStays [] isAfter.symm (by simpa using isFront.symm)
          | cons _ tail =>
            obtain ⟨rfl, -⟩ := List.cons.inj isAfter
            exact none between update tail isFront

end

/-! ### Cutting again -/

theorem cut_statementParts (lines : List String) :
    (∀ line ∈ (statementParts indent lines).1, startsStatement indent line = false) ∧
      Cut indent (statementParts indent lines).2 := by
  induction lines with
  | nil => exact ⟨by simp [statementParts], by simp [statementParts, Cut]⟩
  | cons line _ ih =>
    obtain ⟨inside, cut⟩ := ih
    unfold statementParts
    cases starts : startsStatement indent line with
    | true => exact ⟨by simp, forall_mem_cons.mpr ⟨⟨line, _, rfl, starts, inside⟩, cut⟩⟩
    | false => exact ⟨forall_mem_cons.mpr ⟨starts, inside⟩, cut⟩

/-! ### Indentation -/

def closes (line : String) : Bool :=
  (line.toList.dropWhile isSpace).head? == some '\x7d'

/-- The white space that a line starts with. -/
def indentOf (line : String) : String :=
  String.ofList (line.toList.takeWhile isSpace)

theorem isSpace_of_isNameStart (starts : isNameStart c) : isSpace c = false :=
  isSpace_of_isWordChar (isWordChar_of_isNameStart starts)

theorem toList_eq_indentOf_append (line : String) :
    line.toList = (indentOf line).toList ++ line.toList.dropWhile isSpace := by
  rw [indentOf, String.toList_ofList, takeWhile_append_dropWhile]

theorem startsStatement_indentOf (opens : closes line = false) :
    startsStatement (indentOf line) line := by
  unfold startsStatement
  rw [after?_eq_some.mpr (toList_eq_indentOf_append line)]
  have stops := head?_dropWhile_not isSpace line.toList
  cases rest : line.toList.dropWhile isSpace with
  | nil => rfl
  | cons c =>
    have notSpace : isSpace c = false := by simpa [rest] using stops
    have notBlank : isBlankChar c = false :=
      Bool.eq_false_iff.mpr fun blank => by simp [isSpace_of_isBlankChar blank] at notSpace
    have notBrace : c ≠ '\x7d' := by simpa [closes, rest] using opens
    simp [notBlank, notBrace]

/-- A line that updates a table and starts a statement is indented like the statement. -/
theorem indentOf_of_entryTarget?
    (blank : ∀ c ∈ indent.toList, isSpace c) (starts : startsStatement indent line)
    (found : entryTarget? line = some table) : indentOf line = indent ∧ closes line = false := by
  obtain ⟨first, others, shape, named⟩ := head_of_entryTarget? found
  have notSpace := isSpace_of_isNameStart named
  have split : line.toList = line.toList.takeWhile isBlankChar ++ first :: others := by
    rw [← shape, takeWhile_append_dropWhile]
  have allBlank : ∀ c ∈ line.toList.takeWhile isBlankChar, isSpace c :=
    fun c mem => isSpace_of_isBlankChar (mem_takeWhile_imp mem)
  have taken : line.toList.takeWhile isSpace = line.toList.takeWhile isBlankChar := by
    conv_lhs => rw [split]
    rw [takeWhile_append_of_pos allBlank, takeWhile_cons_of_neg (by simp [notSpace]), append_nil]
  have dropped : line.toList.dropWhile isSpace = first :: others := by
    rw [split, dropWhile_append_of_pos allBlank, dropWhile_cons_of_neg (by simp [notSpace])]
  refine ⟨?_, ?_⟩
  · unfold startsStatement at starts
    cases behind : after? indent line.toList with
    | none => simp [behind] at starts
    | some rest =>
      have whole := after?_eq_some.mp behind
      -- The statement starts right behind the indentation, and not with white space.
      have ended : rest.takeWhile isSpace = [] := by
        cases rest with
        | nil => rfl
        | cons c =>
          have notBlank : isBlankChar c = false := by
            simp only [behind, Bool.not_eq_true', Bool.or_eq_false_iff] at starts
            exact starts.1
          refine takeWhile_cons_of_neg fun space => ?_
          have inFront : c ∈ line.toList.takeWhile isSpace := by
            rw [whole, takeWhile_append_of_pos blank, takeWhile_cons_of_pos space]
            simp
          rw [taken] at inFront
          simp [mem_takeWhile_imp inFront] at notBlank
      rw [indentOf, whole, takeWhile_append_of_pos blank, ended, append_nil, String.ofList_toList]
  · have notBrace : first ≠ '\x7d' := by
      rintro rfl
      contradiction
    simp [closes, dropped, notBrace]

/-! ### Bodies -/

section

/-- A body that does not start with a closing brace is cut into statements of one indentation. -/
theorem cut_statementsOf {rest : List String} (opens : closes first = false) :
    Cut (indentOf first) (statementsOf (first :: rest)) := by
  obtain ⟨inside, cut⟩ := cut_statementParts rest
  exact forall_mem_cons.mpr ⟨⟨first, _, rfl, startsStatement_indentOf opens, inside⟩, cut⟩

/-- The first statement stays the first, unless an update comes to stand in front of it. -/
theorem head_reorderGroups (tables : List String) (rest : List Group) :
    ∃ head tail, (reorderGroups function tables (first :: rest)).1 = head :: tail ∧
      (head = first ∨ head ∈ first :: rest ∧ ∃ table, updatedTable? tables head = some table) := by
  obtain quiet | ⟨before, call, later, isGroups, quiet, calls⟩ := quiet_or_calls (first :: rest)
  · exact ⟨first, rest, reorderGroups_of_quiet quiet, .inl rfl⟩
  · have members := (reorderGroups_perm function tables (first :: rest)).subset
    have output : (reorderGroups function tables (first :: rest)).1 =
        before ++ (moveUpdates tables { stayed := [call] } later).moved ++
          (moveUpdates tables { stayed := [call] } later).stayed := by
      rw [isGroups, reorderGroups_of_call quiet calls]
    rw [output] at members ⊢
    cases before with
    | cons =>
      obtain ⟨rfl, -⟩ := List.cons.inj isGroups
      exact ⟨first, _, rfl, .inl rfl⟩
    | nil =>
      obtain ⟨rfl, -⟩ := List.cons.inj isGroups
      obtain ⟨moved, kept, isMoved, isStayed, goAhead, -, -⟩ :=
        exists_moveUpdates tables { stayed := [first] } later
      rw [isMoved, isStayed] at members ⊢
      cases moved with
      | nil => exact ⟨first, kept, rfl, .inl rfl⟩
      | cons update =>
        obtain ⟨table, updated, -⟩ := goesAhead_iff.mp (goAhead update mem_cons_self)
        exact ⟨update, _, rfl, .inr ⟨members (by simp), table, updated⟩⟩

/-- Cutting the reordered body gives its statements back. -/
theorem statementsOf_reorderBody (tables : List String)
    (opens : ∀ first ∈ body.head?, closes first = false) :
    statementsOf (reorderBody function tables body).1 =
        (reorderGroups function tables (statementsOf body)).1 ∧
      ∀ first ∈ (reorderBody function tables body).1.head?, closes first = false := by
  cases body with
  | nil => exact ⟨rfl, by simp [reorderBody, statementsOf, reorderGroups]⟩
  | cons first rest =>
    have opens : closes first = false := opens first rfl
    have blank : ∀ c ∈ (indentOf first).toList, isSpace c := by
      simpa [indentOf] using fun c => mem_takeWhile_imp
    have cut : Cut (indentOf first) (statementsOf (first :: rest)) := cut_statementsOf opens
    have reorderedCut : Cut (indentOf first)
        (reorderGroups function tables (statementsOf (first :: rest))).1 :=
      fun group mem => cut group ((reorderGroups_perm _ _ _).mem_iff.mp mem)
    obtain ⟨leading, others, isStatements⟩ :
        ∃ leading others, statementsOf (first :: rest) = (first :: leading) :: others :=
      ⟨_, _, rfl⟩
    rw [reorderBody]
    rw [isStatements] at cut reorderedCut ⊢
    obtain ⟨head, _, isReordered, isHead⟩ :=
      head_reorderGroups tables others
    rw [isReordered] at reorderedCut ⊢
    -- The new first line is indented like the old one.
    have ofHead : ∃ line more, head = line :: more ∧ indentOf line = indentOf first ∧
        closes line = false := by
      obtain rfl | ⟨isMember, _, updated⟩ := isHead
      · exact ⟨first, leading, rfl, rfl, opens⟩
      · obtain ⟨line, rfl, found⟩ := updatedTable?_eq_some updated
        obtain ⟨_, _, same, starts, -⟩ := cut [line] isMember
        cases same
        obtain ⟨sameIndent, lineOpens⟩ := indentOf_of_entryTarget? blank starts found
        exact ⟨line, [], rfl, sameIndent, lineOpens⟩
    obtain ⟨_, _, rfl, sameIndent, lineOpens⟩ := ofHead
    refine ⟨?_, by simpa using lineOpens⟩
    have again := reorderedCut.statementGroups_flatten
    rw [← sameIndent] at again
    exact again

/-- The updates of a body move again exactly if one of those that were moved can, or the call that
they were moved in front of. -/
theorem reorderBody_reorderBody_iff (opens : ∀ first ∈ body.head?, closes first = false) :
    (reorderBody again tables (reorderBody function tables body).1).1 =
        (reorderBody function tables body).1 ↔
      ¬ Movable tables (movedFront tables (statementsOf body)) := by
  obtain ⟨cutOnce, opensOnce⟩ := statementsOf_reorderBody tables opens
  obtain ⟨cutTwice, -⟩ := statementsOf_reorderBody tables opensOnce
  rw [← reorderGroups_reorderGroups_iff]
  constructor
  · intro same
    rw [← cutOnce, ← cutTwice, same]
  · intro same
    rw [reorderBody, cutOnce, same]
    rfl

end

end ContractForge.Listing
