import Mathlib.Data.List.Nodup
import Mathlib.Data.List.Perm.Subperm
import Std.Data.String.ToNat
import ContractForge.Lowering.Context

/-!
# How names are taken and forgotten

A name that is taken for a variable was not taken before. The names that are known
after a block are those from before it, and for each hoisted name what it stood
for at the end of the block.
-/

namespace ContractForge

open List

variable {key source : Key} {found : LocalVar} {name : String}
  {first second third before after : Names} {locals : Table LocalVar Key} {hoisted : List Key}
  {saved : BlockScope} (taken : String → Bool) (context : Context)

/-- The local names of a method at a point of it. -/
structure Names where
  locals : Table LocalVar Key
  declared : List Key
  hoisted : List Key
  /-- The names of the variables that are declared at the beginning of the method. -/
  declarations : List String

def Context.names (context : Context) : Names where
  locals := context.block.locals
  declared := context.block.declared
  hoisted := context.method.hoisted
  declarations := context.method.hoistedDeclarations.map Prod.fst

/-! ### Fresh names -/

namespace Context

/-- A free name is found if there is one among the candidates. -/
theorem not_taken_firstFree (notBefore : counter ≤ number) (notAfter : number ≤ counter + remaining)
    (free : taken s!"{base}{number}" = false) :
    taken (firstFree taken base remaining counter) = false := by
  induction remaining generalizing counter with
  | zero =>
    have same : number = counter := by omega
    rw [firstFree, ← same]
    exact free
  | succ _ ih =>
    rw [firstFree]
    split
    · rename_i isTaken
      have later : counter ≠ number := by
        rintro rfl
        rw [isTaken] at free
        contradiction
      exact ih (by omega) (by omega)
    · rename_i isFree
      simpa using isFree

/-- More candidates than taken names cannot all be taken. -/
theorem exists_free_number (base : String) :
    ∃ number, 2 ≤ number ∧
      number ≤ 2 + (context.block.declared.length + context.contract.stateVars.length) ∧
      context.isTaken (.text s!"{base}{number}") = false := by
  by_contra noneFree
  let bound := context.block.declared.length + context.contract.stateVars.length
  let candidates := (List.range (bound + 1)).map fun number => Key.text s!"{base}{number + 2}"
  have distinct : candidates.Nodup := by
    refine List.Nodup.map ?_ nodup_range
    intro left right same
    have sameNumber : left + 2 = right + 2 := Nat.repr_injective (by simpa using same)
    omega
  have allTaken : candidates ⊆ context.block.declared ++ context.contract.stateVars.names := by
    intro _ mem
    obtain ⟨number, inRange, rfl⟩ := mem_map.mp mem
    have taken : context.isTaken (.text s!"{base}{number + 2}") := by
      by_contra isFree
      refine noneFree ⟨number + 2, by omega, ?_, by simpa using isFree⟩
      have := mem_range.mp inRange
      omega
    simp only [isTaken, Payload.key?, Option.any_some, Bool.or_eq_true, contains_iff_mem] at taken
    rcases taken with isLocal | isField
    · exact mem_append_left _ isLocal
    · exact mem_append_right _ (Table.has_iff_mem_names.mp isField)
  have tooMany := (subperm_of_subset distinct allTaken).length_le
  simp only [candidates, length_map, length_range, length_append, Table.names] at tooMany
  omega

end Context

/-- One more name is taken, which was free. -/
structure Names.Extends (before : Names) (name : String) (after : Names) : Prop where
  fresh : Key.text name ∉ before.declared
  declared : after.declared = .text name :: before.declared
  hoisted : after.hoisted = before.hoisted
  declarations : after.declarations = before.declarations

/-- A name is taken that no variable has. -/
structure Names.Takes (before : Names) (name : String) (after : Names) : Prop
    extends Names.Extends before name after where
  locals : after.locals = before.locals

/-- A variable is declared under a name that was free. -/
structure Names.Declares (before : Names) (source : Key) (name : String) (after : Names) : Prop
    extends Names.Extends before name after where
  locals : ∃ type, after.locals = before.locals.put source ⟨.text name, some type⟩

def Names.Typed (names : Names) : Prop :=
  ∀ key found, names.locals.get? key = some found → found.type.isSome

/-- Variables that are known stay known, and have types if they had before. -/
structure Names.Grows (before after : Names) : Prop where
  known : ∀ key, (before.locals.get? key).isSome → (after.locals.get? key).isSome
  typed : before.Typed → after.Typed

theorem Names.Grows.trans (former : first.Grows second)
    (latter : second.Grows third) : first.Grows third :=
  ⟨fun key known => latter.known key (former.known key known),
    fun typed => latter.typed (former.typed typed)⟩

theorem Names.Grows.ofLocals (same : after.locals = before.locals) : before.Grows after := by
  constructor <;> simp [Names.Typed, same]

/-- Of a variable that is declared, the name is known, and it has a type. -/
theorem Names.Declares.known
    (declares : before.Declares source name after) (known : after.locals.get? key = some found) :
    before.locals.get? key = some found ∨
      key = source ∧ found.name = .text name ∧ found.type.isSome := by
  obtain ⟨_, locals_eq⟩ := declares.locals
  rw [locals_eq] at known
  by_cases same : key = source
  · subst same
    rw [Table.get?_put_self] at known
    cases known
    exact .inr ⟨rfl, rfl, rfl⟩
  · rw [Table.get?_put_of_ne _ _ same] at known
    exact .inl known

theorem Names.Declares.grows
    (declares : before.Declares source name after) : before.Grows after := by
  obtain ⟨_, locals_eq⟩ := declares.locals
  constructor
  · rw [locals_eq]
    exact fun key known => (Table.isSome_get?_put_iff _ _ _ _).mpr (.inr known)
  · intro typed key found isFound
    obtain wasKnown | ⟨-, -, isTyped⟩ := declares.known isFound
    · exact typed key found wasKnown
    · exact isTyped

namespace Context

theorem takes_take {context : Context} (free : context.isTaken (.text name) = false) :
    context.names.Takes name (context.take (.text name)).names where
  fresh := by
    rintro (isDeclared : Key.text name ∈ context.block.declared)
    simp [isTaken, Payload.key?, isDeclared] at free
  declared := rfl
  hoisted := rfl
  declarations := rfl
  locals := rfl

theorem exists_number_firstFree (base : String) (remaining counter : Nat) :
    ∃ number, counter ≤ number ∧ firstFree taken base remaining counter = s!"{base}{number}" := by
  induction remaining generalizing counter with
  | zero => exact ⟨counter, Nat.le_refl _, rfl⟩
  | succ _ ih =>
    rw [firstFree]
    split
    · obtain ⟨number, _, isName⟩ := ih (counter + 1)
      exact ⟨number, by omega, isName⟩
    · exact ⟨counter, Nat.le_refl _, rfl⟩

/-- A name that is taken is free, and is the given one or has a number behind it. -/
theorem exists_uniqueName (base : String) :
    ∃ name, (context.uniqueName (.text base)).1 = .text name ∧
      context.isTaken (.text name) = false ∧
      (name = base ∨ ∃ number, 2 ≤ number ∧ name = s!"{base}{number}") := by
  by_cases isTaken : context.isTaken (.text base)
  · let taken (candidate : String) : Bool := context.isTaken (.text candidate)
    let bound := context.block.declared.length + context.contract.stateVars.length
    obtain ⟨_, notBefore, notAfter, free⟩ := context.exists_free_number base
    refine ⟨firstFree taken base bound 2, ?_, ?_, .inr ?_⟩
    · simp [uniqueName, isTaken, Payload.spliced, taken, bound]
    · exact not_taken_firstFree taken notBefore notAfter free
    · exact exists_number_firstFree taken base bound 2
  · exact ⟨base, by simp [uniqueName, isTaken], by simpa using isTaken, .inl rfl⟩

theorem uniqueName_takes (base : String) :
    ∃ name, (context.uniqueName (.text base)).1 = .text name ∧
      context.isTaken (.text name) = false ∧
      context.names.Takes name (context.uniqueName (.text base)).2.names := by
  obtain ⟨name, isName, free, -⟩ := context.exists_uniqueName base
  refine ⟨name, isName, free, ?_⟩
  rw [show (context.uniqueName (.text base)).2 = context.take (context.uniqueName (.text base)).1
    from rfl, isName]
  exact takes_take free

theorem nextIndexName_takes :
    ∃ name, context.nextIndexName.1 = .text name ∧ context.isTaken (.text name) = false ∧
      context.names.Takes name context.nextIndexName.2.names := by
  unfold nextIndexName
  dsimp only
  split
  · rename_i found
    have mem := mem_of_find?_eq_some found
    obtain ⟨name, -, rfl⟩ := mem_map.mp mem
    have free := find?_some found
    simp only [Bool.and_eq_true, Bool.not_eq_true'] at free
    exact ⟨name, rfl, free.1, takes_take free.1⟩
  · exact context.uniqueName_takes "index"

theorem declareLocal_declares (name : String) (type : StaticType) :
    ∃ generated, (context.declareLocal (.text name) (some type)).1 = .text generated ∧
      context.isTaken (.text generated) = false ∧
      context.names.Declares (.text name) generated
        (context.declareLocal (.text name) (some type)).2.names := by
  have fromBase (base : String) : ∃ generated,
      (context.uniqueName (.text base)).1 = .text generated ∧
      context.isTaken (.text generated) = false ∧
      context.names.Declares (.text name) generated ((context.uniqueName (.text base)).2.withBlock
          { (context.uniqueName (.text base)).2.block with
            locals := (context.uniqueName (.text base)).2.block.locals.putNamed (.text name)
              ⟨(context.uniqueName (.text base)).1, some type⟩ }).names := by
    obtain ⟨generated, isText, free, takes⟩ := context.uniqueName_takes base
    refine ⟨generated, isText, free, ?_⟩
    rw [isText]
    exact ⟨⟨takes.fresh, takes.declared, takes.hoisted, takes.declarations⟩, type,
      congrArg (fun locals => Table.put locals _ _) takes.locals⟩
  unfold declareLocal
  dsimp only [Payload.safe]
  split
  all_goals exact fromBase _

/-! ### Blocks -/

/-- Take what a hoisted name stands for at the end of a block out of it. -/
def keepHoisted (locals : Table LocalVar Key) (block : BlockScope) (name : Key) : BlockScope :=
  match locals.get? name with
  | some found =>
    { block with
      locals := block.locals.put name found
      declared := found.name.key?.toList ++ block.declared }
  | none => block

/-- A name that is known after a block is hoisted and known at its end, or was known before it. -/
theorem get?_foldl_keepHoisted
    (known : (hoisted.foldl (keepHoisted locals) saved).locals.get? key = some found) :
    (key ∈ hoisted ∧ locals.get? key = some found) ∨ saved.locals.get? key = some found := by
  induction hoisted generalizing saved with
  | nil => exact .inr known
  | cons name _ ih =>
    rcases ih known with ⟨inRest, atEnd⟩ | first
    · exact .inl ⟨mem_cons_of_mem _ inRest, atEnd⟩
    · unfold keepHoisted at first
      split at first
      · rename_i isLast
        by_cases same : key = name
        · subst same
          rw [Table.get?_put_self] at first
          exact .inl ⟨mem_cons_self, isLast.trans first⟩
        · rw [Table.get?_put_of_ne _ _ same] at first
          exact .inr first
      · exact .inr first

/-- What was taken before a block is taken after it. -/
theorem declared_subset_keepHoisted (locals : Table LocalVar Key) (hoisted : List Key)
    (saved : BlockScope) :
    saved.declared ⊆ (hoisted.foldl (keepHoisted locals) saved).declared := by
  induction hoisted generalizing saved with
  | nil => exact Subset.refl _
  | cons _ _ ih =>
    refine Subset.trans ?_ (ih _)
    unfold keepHoisted
    split
    · exact subset_append_right _ _
    · exact Subset.refl _

theorem mem_declared_foldl_keepHoisted (mem : key ∈ hoisted) (atEnd : locals.get? key = some found)
    (isText : found.name = .text name) :
    Key.text name ∈ (hoisted.foldl (keepHoisted locals) saved).declared := by
  induction hoisted generalizing saved with
  | nil => contradiction
  | cons _ rest ih =>
    rcases mem_cons.mp mem with rfl | inRest
    · refine declared_subset_keepHoisted locals rest (keepHoisted locals saved key) ?_
      simp [keepHoisted, atEnd, isText, Payload.key?]
    · exact ih inRest

section

variable {start ending : Context}

/-- What was known before a block is known after it. -/
theorem grows_leaveBlock (inside : start.names.Grows ending.names) :
    start.names.Grows (ending.leaveBlock start.block).names := by
  constructor
  · intro key known
    have kept (hoisted : List Key) (saved : BlockScope) (known : (saved.locals.get? key).isSome) :
        ((hoisted.foldl (keepHoisted ending.block.locals) saved).locals.get? key).isSome := by
      induction hoisted generalizing saved with
      | nil => exact known
      | cons _ _ ih =>
        refine ih _ ?_
        unfold keepHoisted
        split
        · exact (Table.isSome_get?_put_iff _ _ _ _).mpr (.inr known)
        · exact known
    exact kept ending.method.hoisted start.block known
  · intro typed key found isFound
    obtain ⟨-, atEnd⟩ | atStart := get?_foldl_keepHoisted isFound
    · exact inside.typed typed key found atEnd
    · exact typed key found atStart

end

end Context

end ContractForge
