import ContractForge.Listing.CallOrder

/-!
# The arrangement of a function after its updates were moved

`moveUpdates` decides statement by statement what goes in front of the first
call. `Reordering.step` says once what it does with one statement; everything
about the moved and the remaining statements follows from it.

Statements may be equal as texts, so their order is described by their places:
`arrangement` lists the places of the statements in their new order, and
`reorderGroups_eq_map` says that this order is the one of `reorderGroups`.
-/

namespace ContractForge.Listing

open List

/-! ### One statement -/

/-- Whether a statement goes in front of the first call, given what stayed behind it so far. -/
def goesAhead (tables : List String) (stayed : List Group) (group : Group) : Bool :=
  (updatedTable? tables group).any fun table => (blockingReason? table stayed group).isNone

/-- What is reported about a statement that stays behind the first call. -/
def stayReasons (tables : List String) (stayed : List Group) (group : Group) : List String :=
  match updatedTable? tables group with
  | none =>
    match nestedUpdates tables group with
    | [] => []
    | names => [s!"the update of {Text.commaSeparated names} is inside a conditional or loop"]
  | some table => (blockingReason? table stayed group).toList

/-- The outcome after one more statement. -/
def Reordering.step (tables : List String) (done : Reordering) (group : Group) : Reordering :=
  if goesAhead tables done.stayed group then { done with moved := done.moved ++ [group] }
  else
    { done with
      stayed := done.stayed ++ [group]
      reasons := done.reasons ++ stayReasons tables done.stayed group }

/-- Moving updates takes one step for each statement. -/
theorem moveUpdates_cons :
    moveUpdates tables done (group :: rest) =
      moveUpdates tables (done.step tables group) rest := by
  rw [moveUpdates]
  unfold Reordering.step goesAhead stayReasons
  cases updatedTable? tables group with
  | none =>
    cases nestedUpdates tables group with
    | nil | cons => simp
  | some table =>
    cases reason : blockingReason? table done.stayed group with
    | none | some => simp [reason]

/-- A statement goes ahead only if it updates a table and nothing that stayed blocks it. -/
theorem goesAhead_iff :
    goesAhead tables stayed group ↔
      ∃ table, updatedTable? tables group = some table ∧
        ∀ other ∈ stayed, blockedBy? table (wordsIn group) other = none := by
  simp [goesAhead, blockingReason?, Option.any_eq_true]

/-! ### Places -/

def groupAt (groups : List Group) (place : Nat) : Group :=
  groups.getD place []

/-- The places of the statements that go ahead and of those that stay, from the given place
on. -/
def splitPlaces (tables : List String) (stayed : List Group) (place : Nat) :
    List Group → List Nat × List Nat
  | [] => ([], [])
  | group :: rest =>
    if goesAhead tables stayed group then
      let (ahead, behind) := splitPlaces tables stayed (place + 1) rest
      (place :: ahead, behind)
    else
      let (ahead, behind) := splitPlaces tables (stayed ++ [group]) (place + 1) rest
      (ahead, place :: behind)

/-- The places of the statements of a function in the order in which they stand after updates
were moved. -/
def arrangement (tables : List String) (groups : List Group) : List Nat :=
  let first := (groups.takeWhile fun group => !isExternalCall group).length
  match groups.drop first with
  | [] => List.range groups.length
  | call :: rest =>
    let (ahead, behind) := splitPlaces tables [call] (first + 1) rest
    List.range first ++ ahead ++ first :: behind

theorem groupAt_of_drop (suffix : groups.drop place = group :: rest) :
    groupAt groups place = group ∧ groups.drop (place + 1) = rest := by
  have found : groups[place]? = some group := by
    rw [← head?_drop, suffix, head?_cons]
  refine ⟨by simp [groupAt, found], ?_⟩
  rw [← tail_drop, suffix, tail_cons]

/-- The statements at the places that go ahead are those that are moved, and the statements at
the other places those that stay. -/
theorem moveUpdates_eq_places (tables : List String) (place : Nat)
    (done : Reordering) (suffix : groups.drop place = rest) :
    let places := splitPlaces tables done.stayed place rest
    (moveUpdates tables done rest).moved = done.moved ++ places.1.map (groupAt groups) ∧
      (moveUpdates tables done rest).stayed = done.stayed ++ places.2.map (groupAt groups) := by
  induction rest generalizing done place with
  | nil => simp [moveUpdates, splitPlaces]
  | cons group _ ih =>
    obtain ⟨here, after⟩ := groupAt_of_drop suffix
    have tail := ih (place + 1) (done.step tables group) after
    rw [moveUpdates_cons]
    by_cases ahead : goesAhead tables done.stayed group
    · simp only [Reordering.step] at tail ⊢
      simpa [splitPlaces, ahead, here] using tail
    · simp only [Reordering.step] at tail ⊢
      simpa [splitPlaces, ahead, here] using tail

/-- The first call and what follows it stand behind the statements that call nothing. -/
theorem drop_length_takeWhile (groups : List Group) :
    groups.drop (groups.takeWhile test).length = groups.dropWhile test := by
  simp [takeWhile_eq_take_findIdx_not, dropWhile_eq_drop_findIdx_not, findIdx_le_length]

theorem map_groupAt_range (count : Nat) (bounded : count ≤ groups.length) :
    (List.range count).map (groupAt groups) = groups.take count := by
  apply ext_getElem
  · simp [bounded]
  · intro place inMap _
    simp only [length_map, length_range] at inMap
    have inside : place < groups.length := by omega
    simp [groupAt, getElem?_eq_getElem inside]

/-- The arrangement is the order in which the statements are written out. -/
theorem reorderGroups_eq_map :
    (reorderGroups function tables groups).1 =
      (arrangement tables groups).map (groupAt groups) := by
  have short : (groups.takeWhile fun group => !isExternalCall group).length ≤ groups.length :=
    (takeWhile_sublist _).length_le
  unfold reorderGroups arrangement
  simp only [drop_length_takeWhile]
  cases dropped : groups.dropWhile fun group => !isExternalCall group with
  | nil => simp [map_groupAt_range]
  | cons call rest =>
    have suffix : groups.drop (groups.takeWhile fun group => !isExternalCall group).length =
        call :: rest := by rw [drop_length_takeWhile, dropped]
    obtain ⟨here, after⟩ := groupAt_of_drop suffix
    obtain ⟨moved, stayed⟩ :=
      moveUpdates_eq_places tables _ { stayed := [call] } after
    have before : groups.take (groups.takeWhile fun group => !isExternalCall group).length =
        groups.takeWhile fun group => !isExternalCall group :=
      (prefix_iff_eq_take.mp <| takeWhile_prefix _).symm
    simp [moved, stayed, map_groupAt_range _ short, before, here]

/-! ### The order of the places -/

/-- The places that go ahead and the places that stay are each in their old order. Every place goes
ahead or stays, and none does both. -/
theorem splitPlaces_places (stayed : List Group) (place : Nat) :
    (splitPlaces tables stayed place rest).1.Sublist (List.range' place rest.length) ∧
      (splitPlaces tables stayed place rest).2.Sublist (List.range' place rest.length) ∧
      ((splitPlaces tables stayed place rest).1 ++ (splitPlaces tables stayed place rest).2).Perm
        (List.range' place rest.length) := by
  induction rest generalizing stayed place with
  | nil => simp [splitPlaces]
  | cons group _ ih =>
    rw [length_cons, range'_succ, splitPlaces]
    by_cases ahead : goesAhead tables stayed group
    · obtain ⟨first, second, perm⟩ := ih stayed (place + 1)
      simp only [ahead]
      exact ⟨first.cons_cons place, second.cons place, perm.cons place⟩
    · obtain ⟨first, second, perm⟩ := ih (stayed ++ [group]) (place + 1)
      simp only [ahead]
      exact ⟨first.cons place, second.cons_cons place, perm_middle.trans (perm.cons place)⟩

/-- A statement that goes ahead updates a table, and nothing that it passes blocks it: neither
what stayed before, nor what stays between. -/
theorem splitPlaces_unblocked (tables : List String) (stayed : List Group)
    (place : Nat) (suffix : groups.drop place = rest) (later : Nat)
    (ahead : later ∈ (splitPlaces tables stayed place rest).1) :
    ∃ table, updatedTable? tables (groupAt groups later) = some table ∧
      (∀ other ∈ stayed, blockedBy? table (wordsIn (groupAt groups later)) other = none) ∧
      ∀ earlier ∈ (splitPlaces tables stayed place rest).2, earlier < later →
        blockedBy? table (wordsIn (groupAt groups later)) (groupAt groups earlier) = none := by
  induction rest generalizing stayed place with
  | nil => simp [splitPlaces] at ahead
  | cons group rest ih =>
    obtain ⟨here, after⟩ := groupAt_of_drop suffix
    by_cases goes : goesAhead tables stayed group
    · simp only [splitPlaces, goes] at ahead ⊢
      rcases mem_cons.mp ahead with rfl | ahead
      · obtain ⟨table, updated, unblocked⟩ := goesAhead_iff.mp goes
        refine ⟨table, by rw [here, updated], by rw [here]; exact unblocked, ?_⟩
        intro _ behind _
        -- What stays stands behind the statement that goes ahead here.
        have bounds := (splitPlaces_places stayed (later + 1)).2.1.subset behind
        have := (mem_range'_1.mp bounds).1
        omega
      · exact ih stayed (place + 1) after ahead
    · simp only [splitPlaces, goes] at ahead ⊢
      obtain ⟨table, updated, unblocked, between⟩ :=
        ih (stayed ++ [group]) (place + 1) after ahead
      refine ⟨table, updated, fun other mem => unblocked other (by simp [mem]), ?_⟩
      intro earlier behind before
      rcases mem_cons.mp behind with rfl | behind
      · rw [here]
        exact unblocked group (by simp)
      · exact between earlier behind before

/-- The new order has every place once. -/
theorem arrangement_perm (tables : List String) (groups : List Group) :
    (arrangement tables groups).Perm (List.range groups.length) := by
  unfold arrangement
  simp only
  split
  · exact .refl _
  · rename_i call rest suffix
    have count := congrArg List.length suffix
    rw [length_drop, length_cons] at count
    have total : groups.length =
        (groups.takeWhile fun group => !isExternalCall group).length + (1 + rest.length) := by
      omega
    rw [append_assoc, total, range_eq_range' , range_eq_range',
      ← range'_append_1, Nat.zero_add, Nat.add_comm 1 rest.length, range'_succ]
    exact (perm_middle.trans ((splitPlaces_places [call] _).2.2.cons _)).append_left _

/-- A pair of places is turned around if the later statement comes to stand first. -/
def Inverted (order : List Nat) (earlier later : Nat) : Prop :=
  earlier < later ∧ [later, earlier].Sublist order

/-- Of three ascending parts the first of which is lowest, only a place of the second can come
to stand before a lower one, and that is in the third. -/
theorem Inverted.mem_of_append (inverted : Inverted (front ++ ahead ++ behind) earlier later)
    (frontAscends : front.Pairwise (· < ·)) (aheadAscends : ahead.Pairwise (· < ·))
    (behindAscends : behind.Pairwise (· < ·))
    (lowest : ∀ low ∈ front, ∀ high ∈ ahead ++ behind, low < high) :
    later ∈ ahead ∧ earlier ∈ behind := by
  have allPairs : (front ++ ahead ++ behind).Pairwise fun second first =>
      first < second → second ∈ ahead ∧ first ∈ behind := by
    rw [append_assoc]
    refine pairwise_append.mpr ⟨frontAscends.imp ?_, pairwise_append.mpr
      ⟨aheadAscends.imp ?_, behindAscends.imp ?_, ?_⟩, ?_⟩
    iterate 3
      · omega
    · intro _ inAhead _ inBehind _
      exact ⟨inAhead, inBehind⟩
    · intro second inFront first inRest _
      have := lowest second inFront first inRest
      omega
  exact pairwise_iff_forall_sublist.mp allPairs inverted.2 inverted.1

/-- Only an update that nothing blocks passes an earlier statement. -/
theorem inverted_unblocked (inverted : Inverted (arrangement tables groups) earlier later) :
    ∃ table, updatedTable? tables (groupAt groups later) = some table ∧
      blockedBy? table (wordsIn (groupAt groups later)) (groupAt groups earlier) = none := by
  unfold arrangement at inverted
  simp only at inverted
  split at inverted
  · have ascends := pairwise_lt_range (n := groups.length)
    have := pairwise_iff_forall_sublist.mp ascends inverted.2
    have := inverted.1
    omega
  · rename_i call rest suffix
    obtain ⟨here, after⟩ := groupAt_of_drop suffix
    obtain ⟨aheadSub, behindSub, -⟩ := splitPlaces_places [call]
      ((groups.takeWhile fun group => !isExternalCall group).length + 1)
    have aheadAscends := List.Pairwise.sublist aheadSub pairwise_lt_range'
    have behindAscends := List.Pairwise.sublist behindSub pairwise_lt_range'
    have aheadBound := fun place mem =>
      (mem_range'_1.mp (aheadSub.subset (a := place) mem)).1
    have behindBound := fun place mem =>
      (mem_range'_1.mp (behindSub.subset (a := place) mem)).1
    obtain ⟨inAhead, inBehind⟩ := inverted.mem_of_append pairwise_lt_range aheadAscends
      (pairwise_cons.mpr ⟨fun place mem => behindBound place mem, behindAscends⟩) (by
        intro _ inFront high inRest
        have := mem_range.mp inFront
        rcases mem_append.mp inRest with mem | mem
        · have := aheadBound high mem
          omega
        · rcases mem_cons.mp mem with rfl | mem
          · omega
          · have := behindBound high mem
            omega)
    obtain ⟨table, updated, unblocked, between⟩ :=
      splitPlaces_unblocked tables [call] _ after later inAhead
    refine ⟨table, updated, ?_⟩
    rcases mem_cons.mp inBehind with rfl | mem
    · rw [here]
      exact unblocked call (by simp)
    · exact between earlier mem inverted.1

end ContractForge.Listing
