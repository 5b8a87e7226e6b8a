import ContractForge.Proofs.Listing.Arrangement

/-!
# Updates that are left behind a call

A function is hazardous if a line that updates a table stands behind a line that
calls out. Moving updates should leave no such function unreported. It reports
what it could not move, but it looks only at the statements behind the first
statement that calls out. `Overlooked` lists what it does not look at: that
statement itself, and calls inside the updates that it moves.

The main statement of this module, `silent_updateAfterCall_iff`, says that a
function about which nothing is reported is hazardous exactly if it is
overlooked.
-/

namespace ContractForge.Listing

open List

variable {tables lines : List String} {groups rest : List Group} {group call : Group}

/-! ### Lines -/

def updatesTable (tables : List String) (lines : List String) : Bool :=
  lines.any fun line => (updatedTable? tables [line]).isSome

/-- A line that updates a table stands behind a line that calls out. -/
def UpdateAfterCall (tables : List String) (lines : List String) : Prop :=
  ∃ call update, [call, update].Sublist lines ∧ isExternalCall [call] = true ∧
    updatesTable tables [update] = true

theorem isExternalCall_append :
    isExternalCall (left ++ right) = (isExternalCall left || isExternalCall right) := by
  simp [isExternalCall]

theorem isExternalCall_iff : isExternalCall lines ↔ ∃ line ∈ lines, isExternalCall [line] := by
  simp [isExternalCall]

theorem isExternalCall_flatten : isExternalCall groups.flatten = groups.any isExternalCall := by
  induction groups with
  | nil => rfl
  | cons _ _ ih =>
    rw [flatten_cons, isExternalCall_append, ih, any_cons]

theorem updatesTable_append (tables : List String) (left right : List String) :
    updatesTable tables (left ++ right) =
      (updatesTable tables left || updatesTable tables right) := by
  simp [updatesTable]

theorem updatesTable_iff :
    updatesTable tables lines ↔ ∃ line ∈ lines, updatesTable tables [line] := by
  simp [updatesTable]

/-- A text put together of two parts is hazardous if one of them is, or if the first calls out
and the second updates a table. -/
theorem updateAfterCall_append :
    UpdateAfterCall tables (left ++ right) ↔
      UpdateAfterCall tables left ∨ UpdateAfterCall tables right ∨
        isExternalCall left ∧ updatesTable tables right := by
  constructor
  · rintro ⟨_, _, sub, calls, updates⟩
    obtain ⟨first, second, equal, inLeft, inRight⟩ := sublist_append_iff.mp sub
    match first, second, equal with
    | [], [_, _], rfl => exact .inr (.inl ⟨_, _, inRight, calls, updates⟩)
    | [_], [_], rfl =>
      exact .inr (.inr ⟨isExternalCall_iff.mpr ⟨_, singleton_sublist.mp inLeft, calls⟩,
        updatesTable_iff.mpr ⟨_, singleton_sublist.mp inRight, updates⟩⟩)
    | [_, _], [], rfl => exact .inl ⟨_, _, inLeft, calls, updates⟩
  · rintro (⟨call, update, sub, calls, updates⟩ | ⟨call, update, sub, calls, updates⟩ |
      ⟨calls, updates⟩)
    · exact ⟨call, update, sub.trans (sublist_append_left left right), calls, updates⟩
    · exact ⟨call, update, sub.trans (sublist_append_right left right), calls, updates⟩
    · obtain ⟨call, inLeft, calls⟩ := isExternalCall_iff.mp calls
      obtain ⟨update, inRight, updates⟩ := updatesTable_iff.mp updates
      exact ⟨call, update, (singleton_sublist.mpr inLeft).append
        (singleton_sublist.mpr inRight), calls, updates⟩

theorem not_updateAfterCall_of_not_call (quiet : isExternalCall lines = false) :
    ¬ UpdateAfterCall tables lines := by
  rintro ⟨call, _, sub, calls, -⟩
  have found := isExternalCall_iff.mpr ⟨call, sub.subset (by simp), calls⟩
  rw [quiet] at found
  contradiction

theorem updatesTable_of_updateAfterCall (hazard : UpdateAfterCall tables lines) :
    updatesTable tables lines := by
  obtain ⟨_, update, sub, -, updates⟩ := hazard
  exact updatesTable_iff.mpr ⟨update, sub.subset (by simp), updates⟩

/-! ### Statements about which nothing is reported -/

def isUpdate (tables : List String) (group : Group) : Bool :=
  (updatedTable? tables group).isSome

/-- A statement is left in place without a report only if it is no update and no line below its
first one is. -/
theorem quiet_of_stays (stays : goesAhead tables stayed group = false)
    (silent : stayReasons tables stayed group = []) :
    isUpdate tables group = false ∧ nestedUpdates tables group = [] := by
  unfold goesAhead at stays
  unfold stayReasons at silent
  unfold isUpdate
  cases updated : updatedTable? tables group with
  | none =>
    rw [updated] at silent
    cases nested : nestedUpdates tables group with
    | nil => exact ⟨rfl, rfl⟩
    | cons => simp [nested] at silent
  | some table =>
    simp only [updated] at stays silent
    cases reason : blockingReason? table stayed group with
    | none => simp [reason] at stays
    | some => simp [reason] at silent

/-- Reports are only added. -/
theorem moveUpdates_reasons_prefix (tables : List String) (done : Reordering)
    (rest : List Group) : done.reasons <+: (moveUpdates tables done rest).reasons := by
  induction rest generalizing done with
  | nil => exact prefix_refl _
  | cons group _ ih =>
    rw [moveUpdates_cons]
    refine IsPrefix.trans ?_ (ih _)
    unfold Reordering.step
    split
    · exact prefix_refl _
    · exact prefix_append _ _

/-- If nothing is reported, all updates were moved, and what stayed updates nothing below its
first line. -/
theorem moveUpdates_of_silent (silent : (moveUpdates tables done rest).reasons = []) :
    (moveUpdates tables done rest).moved = done.moved ++ rest.filter (isUpdate tables) ∧
      (moveUpdates tables done rest).stayed =
        done.stayed ++ rest.filter (fun group => !isUpdate tables group) ∧
      ∀ group ∈ rest, isUpdate tables group = false → nestedUpdates tables group = [] := by
  induction rest generalizing done with
  | nil => simp [moveUpdates]
  | cons group rest ih =>
    rw [moveUpdates_cons] at silent ⊢
    obtain ⟨moved, stayed, quiet⟩ := ih silent
    have stepSilent : (done.step tables group).reasons = [] := by
      have added := moveUpdates_reasons_prefix tables (done.step tables group) rest
      rw [silent] at added
      exact prefix_nil.mp added
    cases ahead : goesAhead tables done.stayed group with
    | true =>
      obtain ⟨_, updated, -⟩ := goesAhead_iff.mp ahead
      have update : isUpdate tables group := by simp [isUpdate, updated]
      refine ⟨?_, ?_, ?_⟩
      · simpa [Reordering.step, ahead, update] using moved
      · simpa [Reordering.step, ahead, update] using stayed
      · exact forall_mem_cons.mpr ⟨by simp [update], quiet⟩
    | false =>
      simp only [Reordering.step, ahead] at moved stayed stepSilent
      obtain ⟨notUpdate, unnested⟩ :=
        quiet_of_stays ahead (append_eq_nil_iff.mp stepSilent).2
      refine ⟨?_, ?_, ?_⟩
      · simpa [Reordering.step, ahead, notUpdate] using moved
      · simpa [Reordering.step, ahead, notUpdate] using stayed
      · exact forall_mem_cons.mpr ⟨fun _ => unnested, quiet⟩

/-! ### What is overlooked -/

/-- What is not looked at, given the first statement that calls out and the statements behind
it. -/
inductive Overlooked (tables : List String) (call : Group) (rest : List Group) : Prop where
  /-- The statement updates a table itself, behind its call. -/
  | inside (hazard : UpdateAfterCall tables call)
  /-- Of two updates behind the statement, the first one calls out. -/
  | moved (hazard : UpdateAfterCall tables (rest.filter (isUpdate tables)).flatten)
  /-- An update behind the statement calls out, and the statement updates a table. -/
  | passed (calls : isExternalCall (rest.filter (isUpdate tables)).flatten = true)
      (updates : updatesTable tables call = true)
  /-- The first line of a compound statement updates a table. -/
  | opening (group : Group) (member : group ∈ rest) (compound : 2 ≤ group.length)
      (updates : updatesTable tables (group.take 1) = true)

/-- A compound statement without nested updates can update a table in its first line only. -/
theorem updatesTable_of_unnested (unnested : nestedUpdates tables group = []) :
    updatesTable tables group = updatesTable tables (group.take 1) := by
  cases group with
  | nil => rfl
  | cons first nested =>
    have below : updatesTable tables nested = false := by
      rw [Bool.eq_false_iff]
      intro updates
      obtain ⟨line, mem, found⟩ := any_eq_true.mp updates
      obtain ⟨table, updated⟩ := Option.isSome_iff_exists.mp found
      have listed : table ∈ nestedUpdates tables (first :: nested) := by
        rw [nestedUpdates, mem_eraseDups]
        exact mem_filterMap.mpr ⟨line, mem, updated⟩
      rw [unnested] at listed
      contradiction
    have split := updatesTable_append tables [first] nested
    simpa [below] using split

/-- What stays without a report updates a table only in the first line of a compound
statement. -/
theorem updatesTable_stayed_iff
    (quiet : ∀ group ∈ rest, isUpdate tables group = false → nestedUpdates tables group = []) :
    updatesTable tables (rest.filter fun group => !isUpdate tables group).flatten ↔
      ∃ group ∈ rest, 2 ≤ group.length ∧ updatesTable tables (group.take 1) := by
  constructor
  · intro updates
    obtain ⟨line, mem, found⟩ := updatesTable_iff.mp updates
    obtain ⟨group, inFilter, inGroup⟩ := mem_flatten.mp mem
    obtain ⟨inRest, notUpdate⟩ := mem_filter.mp inFilter
    have notUpdate : isUpdate tables group = false := by simpa using notUpdate
    have groupUpdates : updatesTable tables group :=
      updatesTable_iff.mpr ⟨line, inGroup, found⟩
    refine ⟨group, inRest, ?_, ?_⟩
    · match group with
      | [] => contradiction
      | [only] =>
        simp only [updatesTable, any_cons, any_nil, Bool.or_false] at groupUpdates
        rw [isUpdate, groupUpdates] at notUpdate
        contradiction
      | _ :: _ :: _ => simp
    · rw [← updatesTable_of_unnested (quiet group inRest notUpdate)]
      exact groupUpdates
  · rintro ⟨group, inRest, compound, updates⟩
    obtain ⟨line, inTake, found⟩ := updatesTable_iff.mp updates
    have notUpdate : isUpdate tables group = false := by
      match group, compound with
      | first :: second :: others, _ => rfl
    refine updatesTable_iff.mpr ⟨line, mem_flatten.mpr ⟨group, ?_, ?_⟩, found⟩
    · exact mem_filter.mpr ⟨inRest, by simp [notUpdate]⟩
    · exact mem_of_mem_take inTake

/-- A function about which nothing is reported is hazardous exactly if it is overlooked. -/
theorem silent_updateAfterCall_iff (calls : isExternalCall call)
    (quietBefore : ∀ group ∈ before, isExternalCall group = false)
    (silent : (moveUpdates tables { stayed := [call] } rest).reasons = []) :
    UpdateAfterCall tables (before ++ (moveUpdates tables { stayed := [call] } rest).moved ++
        (moveUpdates tables { stayed := [call] } rest).stayed).flatten ↔
      Overlooked tables call rest := by
  obtain ⟨moved, stayed, quiet⟩ := moveUpdates_of_silent silent
  have noCall : isExternalCall before.flatten = false := by
    rw [isExternalCall_flatten, any_eq_false]
    intro group mem
    simp [quietBefore group mem]
  have stays := updatesTable_stayed_iff quiet
  rw [moved, stayed]
  simp only [nil_append, flatten_append, flatten_cons, flatten_nil,
    append_assoc, updateAfterCall_append, updatesTable_append,
    Bool.or_eq_true, noCall, not_updateAfterCall_of_not_call noCall, calls, false_or,
    Bool.false_eq_true, false_and, or_false, true_and]
  constructor
  · rintro (hazard | (hazard | hazard | updates) | ⟨callsOut, updates | updates⟩)
    · exact .moved hazard
    · exact .inside hazard
    · obtain ⟨group, mem, compound, updates⟩ := stays.mp (updatesTable_of_updateAfterCall hazard)
      exact .opening group mem compound updates
    · obtain ⟨group, mem, compound, updates⟩ := stays.mp updates
      exact .opening group mem compound updates
    · exact .passed callsOut updates
    · obtain ⟨group, mem, compound, updates⟩ := stays.mp updates
      exact .opening group mem compound updates
  · rintro (hazard | hazard | ⟨callsOut, updates⟩ | ⟨group, mem, compound, updates⟩)
    · exact .inr (.inl (.inl hazard))
    · exact .inl hazard
    · exact .inr (.inr ⟨callsOut, .inl updates⟩)
    · exact .inr (.inl (.inr (.inr (stays.mpr ⟨group, mem, compound, updates⟩))))

end ContractForge.Listing
