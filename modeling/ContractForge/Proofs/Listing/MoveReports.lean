import ContractForge.Proofs.Listing.Dependence
import ContractForge.Proofs.Listing.Hazard
import Mathlib.Data.List.Forall2
import Mathlib.Data.List.TakeWhile

/-!
# What moving updates does and reports

The places of the statements behind the first call are divided into those that go
ahead and those that stay (`splitPlaces`). `Explains` says what a report about a
statement that stays has to name, and `moveUpdates_reports` that there is one
report for each statement that needs one. `reorderGroups_reports` puts this
together with the order of the statements.
-/

namespace ContractForge.Listing

open List

/-- Whether a statement behind the first call has to be reported if it stays: it updates a table,
in its only line or in a line below its first one. -/
def needsReport (tables : List String) (group : Group) : Bool :=
  isUpdate tables group || !(nestedUpdates tables group).isEmpty

/-- What is reported about the statement at a place that stays: which of the statements that stay
in front of it keeps it there, or what it updates inside. -/
def Explains (tables : List String) (groups : List Group) (behind : List Nat) (place : Nat)
    (reason : String) : Prop :=
  match updatedTable? tables (groupAt groups place) with
  | some table => ∃ passed ∈ behind, passed < place ∧
      blockedBy? table (wordsIn (groupAt groups place)) (groupAt groups passed) = some reason
  | none =>
    let names := nestedUpdates tables (groupAt groups place)
    reason = s!"the update of {Text.commaSeparated names} is inside a conditional or loop"

section

variable {tables : List String} {groups : List Group}

/-- A statement that stays is reported once if it needs a report, and not at all otherwise. -/
theorem stayReasons_explains
    (stays : goesAhead tables (places.map (groupAt groups)) (groupAt groups place) = false)
    (known : places ⊆ behind) (before : ∀ passed ∈ places, passed < place) :
    Forall₂ (Explains tables groups behind)
      ([place].filter fun place => needsReport tables (groupAt groups place))
      (stayReasons tables (places.map (groupAt groups)) (groupAt groups place)) := by
  unfold goesAhead at stays
  unfold stayReasons
  cases updated : updatedTable? tables (groupAt groups place) with
  | none =>
    cases nested : nestedUpdates tables (groupAt groups place) with
    | nil => simp [needsReport, isUpdate, updated, nested]
    | cons =>
      simp [needsReport, updated, nested, Explains]
  | some table =>
    cases blocked : blockingReason? table (places.map (groupAt groups)) (groupAt groups place) with
    | none => simp [updated, blocked] at stays
    | some reason =>
      obtain ⟨_, mem, found⟩ := exists_of_findSome?_eq_some blocked
      obtain ⟨passed, inPlaces, rfl⟩ := mem_map.mp mem
      have explains : Explains tables groups behind place reason := by
        simp only [Explains, updated]
        exact ⟨passed, known inPlaces, before passed inPlaces, found⟩
      simpa [needsReport, isUpdate, updated, blocked] using explains

/-- The statements that stay are reported one by one, those that need no report left out. -/
theorem moveUpdates_reports {rest : List Group} {place : Nat} {done : Reordering}
    {places behind : List Nat} (suffix : groups.drop place = rest)
    (stayed : done.stayed = places.map (groupAt groups))
    (isBehind : behind = places ++ (splitPlaces tables done.stayed place rest).2)
    (before : ∀ passed ∈ places, passed < place) :
    ∃ reasons, (moveUpdates tables done rest).reasons = done.reasons ++ reasons ∧
      Forall₂ (Explains tables groups behind)
        ((splitPlaces tables done.stayed place rest).2.filter fun place =>
          needsReport tables (groupAt groups place)) reasons := by
  induction rest generalizing done place places with
  | nil => exact ⟨[], by simp [moveUpdates], by simp [splitPlaces]⟩
  | cons group _ ih =>
    obtain ⟨here, after⟩ := groupAt_of_drop suffix
    rw [moveUpdates_cons]
    cases ahead : goesAhead tables done.stayed group with
    | true =>
      simp only [splitPlaces, ahead, Reordering.step] at isBehind ⊢
      exact ih after stayed isBehind fun passed mem => (before passed mem).trans (by omega)
    | false =>
      simp only [splitPlaces, ahead, Reordering.step, Bool.false_eq_true, if_false] at isBehind ⊢
      have stayedNow : done.stayed ++ [group] = (places ++ [place]).map (groupAt groups) := by
        simp [stayed, here]
      have beforeNow : ∀ passed ∈ places ++ [place], passed < place + 1 := by
        intro passed mem
        rcases mem_append.mp mem with mem | mem
        · exact (before passed mem).trans (by omega)
        · rw [mem_singleton.mp mem]
          omega
      obtain ⟨reasons, isReasons, explained⟩ := @ih (place + 1)
        { done with stayed := done.stayed ++ [group],
                    reasons := done.reasons ++ stayReasons tables done.stayed group } _
        after stayedNow (by simpa using isBehind) beforeNow
      refine ⟨stayReasons tables done.stayed group ++ reasons, by rw [isReasons, append_assoc], ?_⟩
      rw [← singleton_append, filter_append]
      refine rel_append ?_ explained
      rw [stayed, ← here] at ahead ⊢
      refine stayReasons_explains ahead ?_ before
      rw [isBehind]
      exact subset_append_left _ _

end

/-- Without a call nothing changes. With a first call at a place, the statements in front of it
keep their places. Of those from the call on, some go ahead and the others stay, both in their old
order. What goes ahead is an update of one line from behind the call, and whatever stays though it
stood between the call and the update does not leave the function, does not mention the table and
declares no name that the update mentions. There is one warning for each update and each compound
statement with updates inside that stays behind the call, and a note if anything went ahead. -/
theorem reorderGroups_reports (function : String) (tables : List String) (groups : List Group) :
    match groups.findIdx? isExternalCall with
    | none => reorderGroups function tables groups = (groups, [])
    | some first => ∃ (ahead behind : List Nat) (reasons : List String),
      reorderGroups function tables groups =
        (groups.take first ++ ahead.map (groupAt groups) ++ behind.map (groupAt groups),
          reasons.map (Diagnostic.reentrancy function) ++
            if ahead = [] then [] else [Diagnostic.reordered function]) ∧
      ahead.Pairwise (· < ·) ∧ behind.Pairwise (· < ·) ∧
      (ahead ++ behind).Perm (List.range' first (groups.length - first)) ∧
      (∀ moved ∈ ahead, first < moved ∧ ∃ line table, groupAt groups moved = [line] ∧
        updatedTable? tables [line] = some table ∧
        ∀ passed ∈ behind, passed < moved →
          exitsEarly (groupAt groups passed) = false ∧ table ∉ wordsIn (groupAt groups passed) ∧
          ∀ name ∈ declaredNames (groupAt groups passed), name ∉ wordsIn [line]) ∧
      List.Forall₂ (Explains tables groups behind)
        (behind.filter fun place => first < place && needsReport tables (groupAt groups place))
        reasons := by
  split
  case h_1 silent =>
    have quiet := findIdx?_eq_none_iff.mp silent
    have back : groups.dropWhile (fun group => !isExternalCall group) = [] := by
      simpa [dropWhile_eq_nil_iff] using quiet
    simp only [reorderGroups, back]
  case h_2 first found =>
  obtain ⟨inside, isFirst⟩ := findIdx?_eq_some_iff_findIdx_eq.mp found
  obtain ⟨call, rest, suffix⟩ : ∃ call rest, groups.drop first = call :: rest :=
    exists_cons_of_ne_nil (by simpa using inside)
  obtain ⟨here, after⟩ := groupAt_of_drop suffix
  have front : groups.takeWhile (fun group => !isExternalCall group) = groups.take first := by
    simp [takeWhile_eq_take_findIdx_not, isFirst]
  have back : groups.dropWhile (fun group => !isExternalCall group) = call :: rest := by
    simp [dropWhile_eq_drop_findIdx_not, isFirst, suffix]
  have places := moveUpdates_eq_places tables (first + 1) { stayed := [call] } after
  obtain ⟨reasons, isReasons, explained⟩ := @moveUpdates_reports tables _ _ _
    { stayed := [call] } [first] _ after (by rw [map_singleton, here]) rfl (by simp)
  obtain ⟨aheadSub, behindSub, perm⟩ := splitPlaces_places [call] (first + 1)
  have unblocked := splitPlaces_unblocked tables [call] (first + 1) after
  have count : groups.length - first = rest.length + 1 := by
    rw [← length_drop, suffix, length_cons]
  have later := fun place (member : place ∈ (splitPlaces tables [call] (first + 1) rest).2) =>
    (mem_range'_1.mp (behindSub.subset member)).1
  generalize splitPlaces tables [call] (first + 1) rest = parts at *
  obtain ⟨ahead, behind⟩ := parts
  simp only at *
  refine ⟨ahead, first :: behind, reasons, ?_, .sublist aheadSub pairwise_lt_range', ?_, ?_,
    ?_, ?_⟩
  · simp only [reorderGroups, front, back]
    simp [places, isReasons, here]
  · exact pairwise_cons.mpr ⟨later, .sublist behindSub pairwise_lt_range'⟩
  · rw [count, range'_succ]
    exact perm_middle.trans (perm.cons first)
  · intro moved goes
    obtain ⟨table, updated, byCall, byOthers⟩ := unblocked moved goes
    obtain ⟨line, isLine, -⟩ := updatedTable?_eq_some updated
    rw [isLine] at updated byCall byOthers
    refine ⟨(mem_range'_1.mp (aheadSub.subset goes)).1, line, table, isLine, updated, ?_⟩
    intro passed stays sooner
    apply blockedBy?_eq_none.mp
    rcases mem_cons.mp stays with rfl | stays
    · rw [here]
      exact byCall call mem_cons_self
    · exact byOthers passed stays sooner
  · rw [filter_cons_of_neg (by simp)]
    refine (filter_congr fun place member => ?_) ▸ explained
    simp [show first < place from later place member]

end ContractForge.Listing
