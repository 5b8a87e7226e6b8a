import ContractForge.Proofs.Listing.Arrangement
import ContractForge.Proofs.Text.Search
import Mathlib.Data.List.Pairwise
import Mathlib.Data.List.Sort

/-!
# Moved updates and what statements depend on

A statement that is moved must not pass one that writes what it mentions, nor
one that mentions what it writes. The check before a move looks at the variables
that the passed statement declares in its first line. It does not look at
assignments to variables that exist already, nor at the lines inside a compound
statement, so an update can pass the assignment that it depends on.

`reorderGroups_respects_iff` says exactly when the order of two statements is
safe to turn around, and when all statements of a function keep reading the
values that they read before.
-/

namespace ContractForge.Listing

open Text List

variable {update group passed : Group} {rest : List Char} {order : List Nat} {tables : List String}
  {first second head place count earlier later : Nat} {line name table : String}

/-! ### What statements write -/

/-- The operators of plain and compound assignments, with the blanks around them. -/
def assignmentOperators : List String :=
  [" = ", " += ", " -= ", " *= ", " /= ", " %= ", " **= ", " |= ", " &= ", " ^= ", " <<= ",
   " >>= "]

/-- What follows the indexes and members behind a variable. The number says how many brackets
are open. -/
def afterTarget : Nat → List Char → List Char
  | 0, [] => []
  | 0, c :: rest =>
    if c == '[' then afterTarget 1 rest
    else if c == '.' || isWordChar c then afterTarget 0 rest
    else c :: rest
  | _ + 1, [] => []
  | depth + 1, c :: rest =>
    if c == '[' then afterTarget (depth + 2) rest
    else if c == ']' then afterTarget depth rest
    else afterTarget (depth + 1) rest

/-- The root of the target that a line assigns to. Brackets inside string literals do not
count. -/
def assignedRoot? (line : String) : Option String := do
  let (name, rest) ← name? (line.toList.dropWhile isBlankChar)
  let behind := afterTarget 0 (emptyStrings 0 rest)
  if assignmentOperators.any fun operator => operator.toList.isPrefixOf behind then
    some (String.ofList name)
  else none

/-- The variables that a line declares or assigns. -/
def lineWrites (line : String) : List String :=
  declaredNames [line] ++ (assignedRoot? line).toList

/-- The variables that a statement declares or assigns in one of its lines. -/
def groupWrites (group : Group) : List String :=
  group.flatMap lineWrites

/-- The variables that a statement declares or assigns elsewhere than by a declaration in its
first line. -/
def hiddenWrites : Group → List String
  | [] => []
  | first :: nested => (assignedRoot? first).toList ++ nested.flatMap lineWrites

/-- The variables that a statement declares or assigns, and those of which it deletes an entry. What
`push`, `pop`, `++`, `--` and the deletion of a whole variable change is left out: the moves do not
look at it. -/
def effects (group : Group) : List String :=
  groupWrites group ++ group.filterMap entryTarget?

/-- A statement writes what it declares in its first line, and what it writes elsewhere. -/
theorem mem_groupWrites_iff :
    name ∈ groupWrites group ↔ name ∈ declaredNames group ∨ name ∈ hiddenWrites group := by
  cases group with
  | nil => simp [groupWrites, declaredNames, hiddenWrites]
  | cons first nested =>
    have firstOnly : declaredNames (first :: nested) = declaredNames [first] := rfl
    rw [firstOnly]
    simp [groupWrites, hiddenWrites, lineWrites]

/-- What keeps an update behind a statement, if anything does. -/
theorem blockedBy?_eq_none :
    blockedBy? table updateWords group = none ↔
      exitsEarly group = false ∧ table ∉ wordsIn group ∧
        ∀ name ∈ declaredNames group, name ∉ updateWords := by
  unfold blockedBy?
  cases exitsEarly group with
  | true => simp
  | false =>
    by_cases mentions : table ∈ wordsIn group
    · by_cases calls : isExternalCall group
      all_goals simp [mentions, calls]
    · by_cases produces : ∃ name ∈ declaredNames group, name ∈ updateWords
      · obtain ⟨name, declared, used⟩ := produces
        have some : ((declaredNames group).filter updateWords.contains).isEmpty = false := by
          simp only [isEmpty_eq_false_iff_exists_mem, mem_filter]
          exact ⟨name, declared, by simpa using used⟩
        by_cases calls : isExternalCall group
        all_goals
          simp [mentions, calls, some]
          exact ⟨name, declared, used⟩
      · have none : (declaredNames group).filter updateWords.contains = [] := by
          simp only [filter_eq_nil_iff]
          intro name declared
          simpa using fun used => produces ⟨name, declared, used⟩
        simp only [none]
        simp [mentions]
        exact fun name declared used => produces ⟨name, declared, used⟩

/-! ### Names of updates -/

/-- A line that changes an entry starts with its variable, or with the word for a deletion and
the variable. -/
theorem entryTarget?_eq_some (found : entryTarget? line = some table) :
    (∃ chars word rest, line.toList.dropWhile isBlankChar = "delete ".toList ++ chars ∧
        name? chars = some (word, rest) ∧ table = String.ofList word) ∨
      ∃ word rest, name? (line.toList.dropWhile isBlankChar) = some (word, rest) ∧
        table = String.ofList word := by
  unfold entryTarget? at found
  simp only [Option.map_eq_some_iff, Option.or_eq_some_iff] at found
  obtain ⟨_, deleted | ⟨-, assigned⟩, rfl⟩ := found
  · simp only [bind, Option.bind_eq_some_iff] at deleted
    obtain ⟨chars, starts, ⟨name, rest⟩, named, inner⟩ := deleted
    refine .inl ⟨chars, name, rest, after?_eq_some.mp starts, named, ?_⟩
    split at inner
    · simp only [Option.map_eq_some_iff] at inner
      obtain ⟨_, _, rfl⟩ := inner
      rfl
    · contradiction
  · simp only [bind, Option.bind_eq_some_iff] at assigned
    obtain ⟨⟨name, rest⟩, named, inner⟩ := assigned
    refine .inr ⟨name, rest, named, ?_⟩
    split at inner
    · split at inner
      · cases inner
        rfl
      · contradiction
    · contradiction

/-- A statement that updates a table is one line, and the table is its target. -/
theorem updatedTable?_eq_some (updated : updatedTable? tables group = some table) :
    ∃ line, group = [line] ∧ entryTarget? line = some table := by
  unfold updatedTable? at updated
  split at updated
  · rename_i line
    exact ⟨line, rfl, (Option.filter_eq_some_iff.mp updated).1⟩
  · contradiction

theorem mem_wordsIn_singleton {name : List Char} (mem : name ∈ namesIn false line.toList) :
    String.ofList name ∈ wordsIn [line] := by
  simp only [wordsIn, mem_eraseDups, flatMap_singleton, mem_map]
  exact ⟨name, mem, rfl⟩

/-- An update mentions the variable that it changes an entry of. -/
theorem mem_wordsIn_of_entryTarget? (found : entryTarget? line = some table) :
    table ∈ wordsIn [line] := by
  rcases entryTarget?_eq_some found with
    ⟨chars, word, rest, starts, named, rfl⟩ | ⟨word, rest, named, rfl⟩
  · apply mem_wordsIn_singleton
    apply mem_namesIn_of_dropWhile
    rw [starts]
    exact mem_namesIn_append "delete".toList (by decide) (mem_namesIn_of_name? named) false
  · exact mem_wordsIn_singleton (mem_namesIn_of_dropWhile (mem_namesIn_of_name? named))

theorem afterBrackets_suffix : afterBrackets chars <:+ chars := by
  fun_induction afterBrackets chars with
  | case1 _ ih =>
    exact ih.trans ⟨['[', ']'], rfl⟩
  | case2 chars => exact suffix_refl chars

/-- A name in front of an assignment, after a blank, is one of the names of the text. -/
theorem mem_namesIn_of_assignedName (found : assignedName rest = some name)
    (suffix : rest <:+ chars) : ∃ word ∈ namesIn false chars, name = String.ofList word := by
  unfold assignedName at found
  split at found
  · simp only [bind, Option.bind_eq_some_iff] at found
    obtain ⟨⟨word, _⟩, named, inner⟩ := found
    obtain ⟨front, rfl⟩ := suffix
    refine ⟨word, mem_namesIn_append front (by decide) (mem_namesIn_of_name? named) false, ?_⟩
    split at inner
    · cases inner
      rfl
    · contradiction
  · contradiction

theorem mem_namesIn_of_declaredVariable? (found : declaredVariable? chars = some name) :
    ∃ word ∈ namesIn false chars, name = String.ofList word := by
  have typeSuffix : afterBrackets (chars.dropWhile fun c => isWordChar c || c == '.') <:+ chars :=
    afterBrackets_suffix.trans (dropWhile_suffix _)
  unfold declaredVariable? at found
  split at found
  · contradiction
  rcases Option.or_eq_some_iff.mp found with located | ⟨-, plain⟩
  · obtain ⟨location, -, located⟩ := exists_of_findSome?_eq_some located
    obtain ⟨rest, starts, assigned⟩ := Option.bind_eq_some_iff.mp located
    have locationSuffix :
        rest <:+ afterBrackets (chars.dropWhile fun c => isWordChar c || c == '.') :=
      ⟨location.toList, (after?_eq_some.mp starts).symm⟩
    exact mem_namesIn_of_assignedName assigned (locationSuffix.trans typeSuffix)
  · exact mem_namesIn_of_assignedName plain typeSuffix

/-- A line that changes an entry starts with a name, and so not with a tuple. -/
theorem head_of_entryTarget? (found : entryTarget? line = some table) :
    ∃ first others, line.toList.dropWhile isBlankChar = first :: others ∧
      isNameStart first := by
  rcases entryTarget?_eq_some found with
    ⟨chars, word, rest, starts, named, rfl⟩ | ⟨word, rest, named, rfl⟩
  · exact ⟨'d', "elete ".toList ++ chars, starts, by decide⟩
  · obtain ⟨⟨first, others, shape, starts, -⟩, -⟩ := name?_eq_some named
    exact ⟨first, others, shape, starts⟩

/-- An update mentions all variables that it declares. -/
theorem mem_wordsIn_of_declaredNames (found : entryTarget? line = some table)
    (declared : name ∈ declaredNames [line]) : name ∈ wordsIn [line] := by
  obtain ⟨first, others, shape, starts⟩ := head_of_entryTarget? found
  simp only [declaredNames] at declared
  cases single : declaredVariable? (line.toList.dropWhile isBlankChar) with
  | some =>
    rw [single] at declared
    obtain rfl := mem_singleton.mp declared
    obtain ⟨_, mem, rfl⟩ := mem_namesIn_of_declaredVariable? single
    exact mem_wordsIn_singleton (mem_namesIn_of_dropWhile mem)
  | none =>
    rw [single, shape] at declared
    have noTuple : tupleVariables? (first :: others) = none := by
      unfold tupleVariables?
      split
      · rename_i equal
        rw [List.cons.injEq] at equal
        rw [equal.1] at starts
        exact absurd starts (by decide)
      · rfl
    simp [noTuple] at declared

/-- An operator of an assignment stands behind a blank and starts with no word. -/
theorem assignmentOperators_shape : ∀ op ∈ assignmentOperators,
    ∃ second tail, op.toList = ' ' :: second :: tail ∧ isWordChar second = false := by
  intro _ mem
  fin_cases mem <;> exact ⟨_, _, rfl, by decide⟩

/-- A deletion assigns nothing: a name follows the word, and no operator. -/
theorem assignedRoot?_eq_none_of_delete
    (starts : line.toList.dropWhile isBlankChar = "delete ".toList ++ chars)
    (named : name? chars = some (word, rest)) : assignedRoot? line = none := by
  obtain ⟨⟨first, others, rfl, firstStarts, -⟩, -⟩ := name?_eq_some named
  have firstWord := isWordChar_of_isNameStart firstStarts
  have noQuote : first ≠ '"' := by
    rintro rfl
    exact absurd firstStarts (by decide)
  have read : name? ("delete ".toList ++ first :: others) =
      some ("delete".toList, ' ' :: first :: others) := by rfl
  have behind : afterTarget 0 (emptyStrings 0 (' ' :: first :: others)) =
      ' ' :: first :: emptyStrings 0 others := by
    have space : isWordChar ' ' = false := by decide
    simp [emptyStrings, noQuote, afterTarget, space]
  have noOperator : (assignmentOperators.any fun op =>
      op.toList.isPrefixOf (' ' :: first :: emptyStrings 0 others)) = false := by
    refine any_eq_false.mpr fun op mem starts => ?_
    obtain ⟨_, _, shape, outside⟩ := assignmentOperators_shape op mem
    rw [shape, isPrefixOf_cons_cons_self, isPrefixOf_cons_cons,
      Bool.and_eq_true, beq_iff_eq] at starts
    rw [starts.1, firstWord] at outside
    contradiction
  unfold assignedRoot?
  simp only [bind, starts, read, Option.bind_some, behind, noOperator]
  rfl

/-- The target of an assignment to an entry is what the line changes. -/
theorem assignedRoot?_eq_of_entryTarget? (found : entryTarget? line = some table)
    (assigned : assignedRoot? line = some root) : root = table := by
  rcases entryTarget?_eq_some found with
    ⟨chars, word, rest, starts, named, rfl⟩ | ⟨word, rest, named, rfl⟩
  · rw [assignedRoot?_eq_none_of_delete starts named] at assigned
    contradiction
  · unfold assignedRoot? at assigned
    simp only [bind, named, Option.bind_some] at assigned
    split at assigned
    · cases assigned
      rfl
    · contradiction

/-- An update changes its table and what it declares, and nothing else. -/
theorem effects_of_updatedTable? (updated : updatedTable? tables update = some table) :
    name ∈ effects update ↔ name = table ∨ name ∈ declaredNames update := by
  obtain ⟨line, rfl, found⟩ := updatedTable?_eq_some updated
  have target : name ∈ [line].filterMap entryTarget? ↔ name = table := by
    simp [found]
  have rooted : name ∈ (assignedRoot? line).toList → name = table := by
    intro mem
    exact assignedRoot?_eq_of_entryTarget? found (Option.mem_toList.mp mem)
  simp only [effects, groupWrites, lineWrites, flatMap_singleton, mem_append, target]
  constructor
  · rintro ((declared | assigned) | same)
    · exact .inr declared
    · exact .inl (rooted assigned)
    · exact .inl same
  · rintro (same | declared)
    · exact .inr same
    · exact .inl (.inl declared)

/-- An update mentions everything that it changes. -/
theorem mem_wordsIn_of_effects (updated : updatedTable? tables update = some table)
    (changed : name ∈ effects update) : name ∈ wordsIn update := by
  rcases (effects_of_updatedTable? updated).mp changed with rfl | declared
  · obtain ⟨_, rfl, found⟩ := updatedTable?_eq_some updated
    exact mem_wordsIn_of_entryTarget? found
  · obtain ⟨_, rfl, found⟩ := updatedTable?_eq_some updated
    exact mem_wordsIn_of_declaredNames found declared

/-! ### What statements read -/

/-- The places of the statements before a place that change a variable, in the given order. -/
def writersBefore (groups : List Group) (order : List Nat) (name : String) (place : Nat) :
    List Nat :=
  (order.takeWhile (· != place)).filter fun other => (effects (groupAt groups other)).contains name

/-- Every statement finds the same changes to all variables that it mentions, in the same order,
whether the statements stand as they did or in the given order. -/
def SameReads (groups : List Group) (order : List Nat) : Prop :=
  ∀ place < groups.length, ∀ name ∈ wordsIn (groupAt groups place),
    writersBefore groups order name place =
      writersBefore groups (List.range groups.length) name place

/-- Neither statement changes what the other one mentions. -/
def Independent (first second : Group) : Prop :=
  (∀ name ∈ effects first, name ∉ wordsIn second) ∧ ∀ name ∈ effects second, name ∉ wordsIn first

/-- A pair precedes in a list if it does so in the tail, or if its first member is the head. -/
theorem pair_sublist_cons_iff :
    [first, second].Sublist (head :: order) ↔
      [first, second].Sublist order ∨ first = head ∧ second ∈ order := by
  rw [sublist_cons_iff]
  constructor
  · rintro (later | ⟨_, equal, sub⟩)
    · exact .inl later
    · obtain ⟨rfl, rfl⟩ := equal
      exact .inr ⟨rfl, singleton_sublist.mp sub⟩
  · rintro (later | ⟨rfl, mem⟩)
    · exact .inl later
    · exact .inr ⟨[second], rfl, singleton_sublist.mpr mem⟩

/-- In a list without repetitions, what stands before a member are the members that precede
it. -/
theorem mem_takeWhile_ne_iff (once : order.Nodup) (mem : place ∈ order) :
    other ∈ order.takeWhile (· != place) ↔ [other, place].Sublist order := by
  induction order with
  | nil => contradiction
  | cons head order ih =>
    obtain ⟨fresh, once⟩ := nodup_cons.mp once
    rw [pair_sublist_cons_iff]
    by_cases here : head = place
    · subst here
      have nothing : ¬ [other, head].Sublist order := fun sub => fresh (sub.subset (by simp))
      simp [nothing, fresh]
    · have later : place ∈ order := (mem_cons.mp mem).resolve_left (Ne.symm here)
      rw [takeWhile_cons_of_pos (by simpa using here), mem_cons, ih once later]
      simp [later, or_comm]

/-- Of two members of a list, one precedes the other. -/
theorem sublist_or_sublist_swap (inFirst : first ∈ order) (inSecond : second ∈ order)
    (different : first ≠ second) :
    [first, second].Sublist order ∨ [second, first].Sublist order := by
  let related (former latter : Nat) :=
    [former, latter].Sublist order ∨ [latter, former].Sublist order
  have : Std.Symm related := ⟨fun _ _ => Or.symm⟩
  have areRelated : order.Pairwise related := pairwise_iff_forall_sublist.mpr .inl
  exact areRelated.forall inFirst inSecond different

/-- In a list without repetitions, two members do not precede each other. -/
theorem not_sublist_swap (once : order.Nodup) (forward : [first, second].Sublist order) :
    ¬ [second, first].Sublist order := by
  induction order with
  | nil => cases forward
  | cons _ _ ih =>
    obtain ⟨fresh, once⟩ := nodup_cons.mp once
    rw [pair_sublist_cons_iff] at forward ⊢
    rintro (backward | ⟨rfl, mem⟩)
    · rcases forward with forward | ⟨rfl, -⟩
      · exact ih once forward backward
      · exact fresh (backward.subset (by simp))
    · rcases forward with forward | ⟨rfl, -⟩
      · exact fresh (forward.subset (by simp))
      · exact fresh mem

/-- Before a place in the old order stand the lower places. -/
theorem mem_takeWhile_range_iff (bounded : place < count) :
    other ∈ (List.range count).takeWhile (· != place) ↔ other < place := by
  rw [mem_takeWhile_ne_iff nodup_range (mem_range.mpr bounded)]
  constructor
  · exact fun sub => pairwise_iff_forall_sublist.mp pairwise_lt_range sub
  · intro _
    refine (sublist_or_sublist_swap (mem_range.mpr (by omega))
      (mem_range.mpr bounded) (by omega)).resolve_right fun sub => ?_
    have := pairwise_iff_forall_sublist.mp pairwise_lt_range sub
    omega

section

variable {groups : List Group} {order : List Nat}

/-- If two dependent statements were turned around, one of them would miss a change that it
found before, or find one that came after it. -/
theorem SameReads.independent (same : SameReads groups order)
    (perm : order.Perm (List.range groups.length)) (inverted : Inverted order earlier later) :
    Independent (groupAt groups earlier) (groupAt groups later) := by
  have once : order.Nodup := perm.nodup_iff.mpr nodup_range
  have earlierIn := inverted.2.subset (by simp : earlier ∈ [later, earlier])
  have laterIn := inverted.2.subset (by simp : later ∈ [later, earlier])
  have earlierBounded := mem_range.mp (perm.mem_iff.mp earlierIn)
  have laterBounded := mem_range.mp (perm.mem_iff.mp laterIn)
  constructor
  · intro name changed mentions
    have found : earlier ∈ writersBefore groups (List.range groups.length) name later := by
      simp [writersBefore, mem_takeWhile_range_iff laterBounded, inverted.1, changed]
    rw [← same later laterBounded name mentions] at found
    have forward := (mem_takeWhile_ne_iff once laterIn).mp (mem_filter.mp found).1
    exact not_sublist_swap once forward inverted.2
  · intro name changed mentions
    have found : later ∈ writersBefore groups order name earlier := by
      simp [writersBefore, mem_takeWhile_ne_iff once earlierIn, inverted.2, changed]
    rw [same earlier earlierBounded name mentions] at found
    have forward := (mem_takeWhile_range_iff earlierBounded).mp (mem_filter.mp found).1
    exact absurd inverted.1 (by omega)

/-- If only independent statements are turned around, all changes that a statement finds stay
before it and in their order. The later statement of a pair has to mention what it changes. -/
theorem sameReads_of_independent (perm : order.Perm (List.range groups.length))
    (mentioned : ∀ earlier later, Inverted order earlier later →
      ∀ name ∈ effects (groupAt groups later), name ∈ wordsIn (groupAt groups later))
    (independent : ∀ earlier later, Inverted order earlier later →
      Independent (groupAt groups earlier) (groupAt groups later)) : SameReads groups order := by
  have once : order.Nodup := perm.nodup_iff.mpr nodup_range
  intro place bounded name mentions
  have mem : place ∈ order := perm.mem_iff.mpr (mem_range.mpr bounded)
  apply List.Pairwise.eq_of_mem_iff (r := (· < ·))
  · -- Two changes of one variable are not turned around: the later one mentions it.
    refine pairwise_iff_forall_sublist.mpr fun {first second} sub => ?_
    have firstChanges := (mem_filter.mp (sub.subset (by simp : first ∈ [first, second]))).2
    have secondChanges := (mem_filter.mp (sub.subset (by simp : second ∈ [first, second]))).2
    rw [contains_iff_mem] at firstChanges secondChanges
    have forward : [first, second].Sublist order :=
      sub.trans (filter_sublist.trans (takeWhile_sublist _))
    have different : first ≠ second := by
      have pair := forward.nodup once
      simpa using pair
    by_contra notBefore
    have inverted : Inverted order second first := ⟨by omega, forward⟩
    exact (independent second first inverted).1 name secondChanges
      (mentioned second first inverted name firstChanges)
  · exact (pairwise_lt_range.sublist (takeWhile_sublist _)).filter _
  · intro other
    simp only [writersBefore, mem_filter, mem_takeWhile_ne_iff once mem,
      mem_takeWhile_range_iff bounded, contains_iff_mem, and_congr_left_iff]
    intro changes
    constructor
    · intro forward
      by_contra notBefore
      have different : other ≠ place := by
        have pair := forward.nodup once
        simpa using pair
      exact (independent place other ⟨by omega, forward⟩).2 name changes mentions
    · intro before
      have otherIn : other ∈ order := perm.mem_iff.mpr (mem_range.mpr (by omega))
      refine (sublist_or_sublist_swap otherIn mem (by omega)).resolve_right fun backward => ?_
      exact (independent other place ⟨before, backward⟩).1 name changes mentions

end

/-! ### The moves of updates -/

/-- The variables that a statement declares, assigns or deletes an entry of elsewhere than by a
declaration in its first line. -/
def hiddenEffects (group : Group) : List String :=
  hiddenWrites group ++ group.filterMap entryTarget?

/-- An update may pass a statement: nothing that the statement changes out of sight of the check
is mentioned by the update, and nothing that the update declares is mentioned by the statement. -/
def MayPass (passed update : Group) : Prop :=
  (∀ name ∈ hiddenEffects passed, name ∉ wordsIn update) ∧
    ∀ name ∈ declaredNames update, name ∉ wordsIn passed

/-- What the check before a move does not see is all that two statements can depend on. -/
theorem independent_iff_mayPass (updated : updatedTable? tables update = some table)
    (unblocked : blockedBy? table (wordsIn update) passed = none) :
    Independent passed update ↔ MayPass passed update := by
  obtain ⟨-, notMentioned, undeclared⟩ := blockedBy?_eq_none.mp unblocked
  constructor
  · rintro ⟨forward, backward⟩
    constructor
    · intro _ hidden
      apply forward
      rw [hiddenEffects, mem_append] at hidden
      rw [effects, mem_append, mem_groupWrites_iff]
      exact hidden.imp_left .inr
    · exact fun name declared =>
        backward name ((effects_of_updatedTable? updated).mpr (.inr declared))
  · rintro ⟨forward, backward⟩
    constructor
    · intro name changed
      rw [effects, mem_append, mem_groupWrites_iff] at changed
      rcases changed with (declared | hidden) | deleted
      · exact undeclared name declared
      · exact forward name (mem_append_left _ hidden)
      · exact forward name (mem_append_right _ deleted)
    · intro name changed
      rcases (effects_of_updatedTable? updated).mp changed with rfl | declared
      · exact notMentioned
      · exact backward name declared

/-- The order of the statements after the moves is given by `arrangement`. Every pair that it
turns around consists of a statement and an update behind it whose table the statement does not
mention; the update mentions nothing that the statement declares or assigns exactly if it
mentions nothing that the statement declares or assigns elsewhere than by a declaration in its
first line. As far as `effects` go, all statements read what they read before exactly if every such
pair may pass. -/
theorem reorderGroups_respects_iff (function : String) (tables : List String)
    (groups : List Group) :
    (reorderGroups function tables groups).1 =
        (arrangement tables groups).map (groupAt groups) ∧
      (∀ earlier later, Inverted (arrangement tables groups) earlier later →
        ∃ table, updatedTable? tables (groupAt groups later) = some table ∧
          table ∉ wordsIn (groupAt groups earlier) ∧
          ((∀ name ∈ groupWrites (groupAt groups earlier),
              name ∉ wordsIn (groupAt groups later)) ↔
            ∀ name ∈ hiddenWrites (groupAt groups earlier),
              name ∉ wordsIn (groupAt groups later))) ∧
      (SameReads groups (arrangement tables groups) ↔
        ∀ earlier later, Inverted (arrangement tables groups) earlier later →
          MayPass (groupAt groups earlier) (groupAt groups later)) := by
  refine ⟨reorderGroups_eq_map, ?_, ?_⟩
  · intro earlier later inverted
    obtain ⟨table, updated, unblocked⟩ := inverted_unblocked inverted
    obtain ⟨-, notMentioned, undeclared⟩ := blockedBy?_eq_none.mp unblocked
    refine ⟨table, updated, notMentioned, ?_⟩
    constructor
    · exact fun apart name hidden => apart name (mem_groupWrites_iff.mpr (.inr hidden))
    · intro apart name written
      rcases mem_groupWrites_iff.mp written with declared | hidden
      · exact undeclared name declared
      · exact apart name hidden
  · have perm := arrangement_perm tables groups
    constructor
    · intro same earlier later inverted
      obtain ⟨table, updated, unblocked⟩ := inverted_unblocked inverted
      exact (independent_iff_mayPass updated unblocked).mp (same.independent perm inverted)
    · intro mayPass
      refine sameReads_of_independent perm ?_ ?_
      · intro earlier later inverted name changed
        obtain ⟨table, updated, -⟩ := inverted_unblocked inverted
        exact mem_wordsIn_of_effects updated changed
      · intro earlier later inverted
        obtain ⟨table, updated, unblocked⟩ := inverted_unblocked inverted
        exact (independent_iff_mayPass updated unblocked).mpr (mayPass earlier later inverted)

/-- An update passes the assignment that gives its value. -/
theorem update_passes_assignment :
    let groups := [["        payable(a).transfer(1);"], ["        amount = 5;"],
      ["        balances[a] = amount;"]]
    Inverted (arrangement ["balances"] groups) 1 2 ∧ "amount" ∈ groupWrites (groupAt groups 1) ∧
      "amount" ∈ wordsIn (groupAt groups 2) := by
  refine ⟨⟨by decide, ?_⟩, ?_, ?_⟩
  · decide
  · decide
  · decide

end ContractForge.Listing
