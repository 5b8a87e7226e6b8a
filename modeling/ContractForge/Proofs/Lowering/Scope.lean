import ContractForge.Proofs.Lowering.Annotation
import ContractForge.Proofs.Syntax.WellNamed

/-!
# Scopes of local variables

A variable that is mentioned in a lowered method should be declared before, in
the same block or in a block around it. `Sound` relates the names that lowering
knows at a point to what is declared there. It holds along every run
(`tracks_annotate`), and says for each mention when it is in scope: a hoisted name
is taken out of every block that it is known in, also out of a loop that it is a
parameter of, and is out of scope from there on.
-/

namespace ContractForge

open Lower Annotated Node List

variable {start entered before after ending : Context} {statements body : List Annotated}
  {node subject count : Node} {param : Option Payload} {name counter text : String}
  {around other : Surroundings} {annotated : Annotated} {annotateBody step : Lower (List Annotated)}
  {lowered : List Statement} {mentioned parameters : List Mention}

/-! ### Uses in scope -/

namespace Use

/-- The variable is declared where it is used. -/
def InScope (use : Use) : Prop :=
  use.mention.name ∈ use.around.scope

instance (use : Use) : Decidable use.InScope :=
  inferInstanceAs (Decidable (_ ∈ _))

/-- If the variable is hoisted, it is declared at the beginning of the method, or is a parameter
of the method or of a loop around. -/
def Anchored (hoisted : List Key) (declarations : List String) (use : Use) : Prop :=
  use.mention.source ∈ hoisted →
    use.mention.name ∈ declarations ∨ use.mention ∈ use.around.parameters

/-- The variable is in scope exactly if it is anchored. -/
def Settled (hoisted : List Key) (declarations : List String) (use : Use) : Prop :=
  use.InScope ↔ use.Anchored hoisted declarations

/-- A use is as settled at another place, if what is declared there and not here has other
names. -/
theorem Settled.move {mention : Mention} (settled : Settled hoisted declarations ⟨around, mention⟩)
    (scope : mention.name ∈ other.scope ↔ mention.name ∈ around.scope)
    (parameters : mention ∈ other.parameters ↔ mention ∈ around.parameters) :
    Settled hoisted declarations ⟨other, mention⟩ := by
  unfold Settled InScope Anchored at settled ⊢
  rw [scope, parameters]
  exact settled

end Use

/-- What lowering knows fits what is declared: each known name is taken and settled, and what is
declared is taken or declared at the beginning of the method. -/
structure Sound (declarations : List String) (around : Surroundings) (names : Names) : Prop where
  settled : ∀ source found, names.locals.get? source = some found →
    ∃ name, found.name = .text name ∧ Key.text name ∈ names.declared ∧
      Use.Settled names.hoisted declarations ⟨around, source, name⟩
  covered : ∀ name ∈ around.scope, Key.text name ∈ names.declared ∨ name ∈ declarations
  above : ∀ name ∈ declarations, name ∈ around.scope
  parameters : ∀ parameter ∈ around.parameters, parameter.name ∈ around.scope

namespace Sound

variable {declarations : List String} {around inner : Surroundings} {before after : Names}

/-- What a tree mentions is taken and settled. -/
theorem mention (sound : Sound declarations around context.names)
    {mention : Mention} (mem : mention ∈ ContractForge.mentions context node) :
    Key.text mention.name ∈ context.names.declared ∧
      Use.Settled context.names.hoisted declarations ⟨around, mention⟩ := by
  obtain ⟨_, known, name_eq⟩ := exists_local_of_mem_mentions mem
  obtain ⟨_, isText, taken, settled⟩ := sound.settled _ _ known
  obtain ⟨_, _⟩ := mention
  cases name_eq
  rw [isText]
  exact ⟨taken, settled⟩

theorem mentions (sound : Sound declarations around context.names) (node : Node) :
    ∀ use ∈ (ContractForge.mentions context node).map (Use.mk around),
      use.Settled context.names.hoisted declarations := by
  intro _ mem
  obtain ⟨mention, isMention, rfl⟩ := mem_map.mp mem
  exact (sound.mention isMention).2

/-- A name that was free is added to what is taken and declared. It may be that of a new
variable, which is then anchored, and of new parameters. -/
theorem extend (sound : Sound declarations around before)
    (extends_names : before.Extends name after)
    (known : ∀ source found, after.locals.get? source = some found →
      before.locals.get? source = some found ∨ found.name = .text name ∧
        Use.Anchored before.hoisted declarations ⟨wider, source, name⟩)
    (scope : ∀ other, other ∈ wider.scope ↔ other = name ∨ other ∈ around.scope)
    (old : ∀ parameter ∈ around.parameters, parameter ∈ wider.parameters)
    (new : ∀ parameter ∈ wider.parameters, parameter ∈ around.parameters ∨ parameter.name = name) :
    Sound declarations wider after where
  settled source found isKnown := by
    rw [extends_names.hoisted, extends_names.declared]
    rcases known source found isKnown with wasKnown | ⟨isNew, anchored⟩
    · obtain ⟨other, isText, isTaken, settled⟩ := sound.settled source found wasKnown
      have different : other ≠ name := by
        rintro rfl
        exact extends_names.fresh isTaken
      refine ⟨other, isText, mem_cons_of_mem _ isTaken, ?_⟩
      have sameScope : other ∈ wider.scope ↔ other ∈ around.scope := by
        rw [scope]
        exact or_iff_right different
      have sameParameters : (⟨source, other⟩ : Mention) ∈ wider.parameters ↔
          (⟨source, other⟩ : Mention) ∈ around.parameters := by
        refine ⟨fun mem => ?_, old _⟩
        rcases new _ mem with wasThere | isName
        · exact wasThere
        · exact absurd isName different
      exact settled.move sameScope sameParameters
    · refine ⟨name, isNew, mem_cons_self, ?_⟩
      exact iff_of_true ((scope name).mpr (.inl rfl)) anchored
  covered other mem := by
    rw [extends_names.declared]
    rcases (scope other).mp mem with rfl | wasThere
    · exact .inl mem_cons_self
    · exact (sound.covered other wasThere).imp_left (mem_cons_of_mem _)
  above other mem := (scope other).mpr (.inr (sound.above other mem))
  parameters parameter mem := by
    rw [scope]
    exact (new parameter mem).symm.imp_right (sound.parameters parameter)

theorem take (sound : Sound declarations around before) (takes : before.Takes name after) :
    Sound declarations (around.declaring [name]) after := by
  refine sound.extend takes.toExtends ?_ (by simp [Surroundings.declaring])
    (fun _ mem => mem) (fun _ mem => .inl mem)
  rw [takes.locals]
  exact fun _ _ known => .inl known

theorem declare (sound : Sound declarations around before)
    (declares : before.Declares source name after)
    (anchored : Use.Anchored before.hoisted declarations ⟨wider, source, name⟩)
    (scope : ∀ other, other ∈ wider.scope ↔ other = name ∨ other ∈ around.scope)
    (old : ∀ parameter ∈ around.parameters, parameter ∈ wider.parameters)
    (new : ∀ parameter ∈ wider.parameters, parameter ∈ around.parameters ∨ parameter.name = name) :
    Sound declarations wider after := by
  refine sound.extend declares.toExtends (fun other found known => ?_) scope old new
  obtain wasKnown | ⟨rfl, isName, -⟩ := declares.known known
  · exact .inl wasKnown
  · exact .inr ⟨isName, anchored⟩

/-- A block ends. A hoisted name that it takes with it is out of scope, unless it is declared at
the beginning of the method or stands for a parameter around the block. -/
theorem leave (outside : Sound declarations around start.names)
    (inside : Sound declarations inner ending.names)
    (sameHoisted : ending.names.hoisted = start.names.hoisted)
    (scope : ∀ name ∈ around.scope, name ∈ inner.scope) (fresh : ∀ parameter ∈ inner.parameters,
      parameter ∈ around.parameters ∨ Key.text parameter.name ∉ start.names.declared) :
    Sound declarations around (ending.leaveBlock start.block).names where
  settled source found known := by
    rcases Context.get?_foldl_keepHoisted known with ⟨hoisted, atEnd⟩ | wasKnown
    · obtain ⟨name, isText, -, settled⟩ := inside.settled source found atEnd
      refine ⟨name, isText, Context.mem_declared_foldl_keepHoisted hoisted atEnd isText, ?_⟩
      constructor
      · -- What is in scope outside was taken before the block, so it is no parameter of it.
        intro inScope isHoisted
        rcases settled.mp (scope name inScope) isHoisted with isAbove | isParameter
        · exact .inl isAbove
        · rcases fresh _ isParameter with isOutside | isFresh
          · exact .inr isOutside
          · exact .inl ((outside.covered name inScope).resolve_left isFresh)
      · intro anchored
        rcases anchored hoisted with isAbove | isParameter
        · exact outside.above name isAbove
        · exact outside.parameters _ isParameter
    · obtain ⟨name, isText, taken, settled⟩ := outside.settled source found wasKnown
      refine ⟨name, isText, Context.declared_subset_keepHoisted _ _ _ taken, ?_⟩
      rw [← sameHoisted] at settled
      exact settled
  covered name mem :=
    (outside.covered name mem).imp_left (Context.declared_subset_keepHoisted _ _ _ ·)
  above := outside.above
  parameters := outside.parameters

end Sound

/-! ### Runs -/

/-- What a part of a run does to the names: they stay known and sound, and all uses in what is
lowered are settled. -/
structure Tracks (before after : Context) (uses : Surroundings → List Use)
    (next : Surroundings → Surroundings) : Prop where
  grows : before.names.Grows after.names
  hoisted : after.names.hoisted = before.names.hoisted
  declarations : ∀ name ∈ before.names.declarations, name ∈ after.names.declarations
  settled : ∀ declarations around, (∀ name ∈ after.names.declarations, name ∈ declarations) →
    Sound declarations around before.names →
      (∀ use ∈ uses around, use.Settled before.names.hoisted declarations) ∧
        Sound declarations (next around) after.names

namespace Tracks

variable {first : Context} {uses : Surroundings → List Use} {next : Surroundings → Surroundings}

theorem ofNames (same : second.names = first.names) : Tracks first second (fun _ => []) id where
  grows := .ofLocals (by rw [same])
  hoisted := by rw [same]
  declarations := by simp [same]
  settled declarations around _ sound := by
    rw [same]
    exact ⟨by simp, sound⟩

theorem trans (former : Tracks first second uses next)
    (latter : Tracks second third moreUses afterNext) :
    Tracks first third (fun around => uses around ++ moreUses (next around))
      (fun around => afterNext (next around)) where
  grows := former.grows.trans latter.grows
  hoisted := latter.hoisted.trans former.hoisted
  declarations name mem := latter.declarations name (former.declarations name mem)
  settled declarations around contained sound := by
    obtain ⟨usesSettled, soundThen⟩ := former.settled declarations around
      (fun name mem => contained name (latter.declarations name mem)) sound
    obtain ⟨moreSettled, soundAfter⟩ := latter.settled declarations _ contained soundThen
    refine ⟨fun use mem => ?_, soundAfter⟩
    rcases mem_append.mp mem with isFormer | isLatter
    · exact usesSettled use isFormer
    · rw [← former.hoisted]
      exact moreSettled use isLatter

theorem ofKept (same : second.names = first.names) (tracks : Tracks second third uses next) :
    Tracks first third uses next := by
  simpa using (Tracks.ofNames same).trans tracks

theorem mentions (context : Context) (node : Node) :
    Tracks context context (fun around => (ContractForge.mentions context node).map (Use.mk around))
      id where
  grows := .ofLocals rfl
  hoisted := rfl
  declarations _ mem := mem
  settled _ _ _ sound := ⟨sound.mentions node, sound⟩

/-- A block whose parameters are those around it. -/
theorem leave (inside : Tracks first second uses next)
    (scope : ∀ around, ∀ name ∈ around.scope, name ∈ (next around).scope)
    (parameters : ∀ around, (next around).parameters = around.parameters) :
    Tracks first (second.leaveBlock first.block) uses id where
  grows := Context.grows_leaveBlock inside.grows
  hoisted := inside.hoisted
  declarations := inside.declarations
  settled declarations around contained sound := by
    obtain ⟨usesSettled, soundThen⟩ := inside.settled declarations around contained sound
    refine ⟨usesSettled, sound.leave soundThen inside.hoisted (scope around) ?_⟩
    rw [parameters]
    exact fun parameter mem => .inl mem

end Tracks

/-! ### Surroundings of statements -/

namespace Surroundings

theorem after_append (around : Surroundings) :
    around.after (former ++ latter) = (around.after former).after latter :=
  foldl_append

theorem parameters_after (around : Surroundings) (statements : List Annotated) :
    (around.after statements).parameters = around.parameters := by
  induction statements generalizing around with
  | nil => rfl
  | cons _ _ ih => exact ih _

theorem mem_scope_after :
    name ∈ (around.after statements).scope ↔
      name ∈ statements.flatMap (fun statement => statement.erase.declares) ∨
        name ∈ around.scope := by
  induction statements generalizing around with
  | nil => simp [after]
  | cons _ _ ih =>
    rw [flatMap_cons, mem_append, or_assoc, or_left_comm, ← mem_append]
    exact ih

theorem scope_subset_after (around : Surroundings) (statements : List Annotated) :
    ∀ name ∈ around.scope, name ∈ (around.after statements).scope :=
  fun _ mem => mem_scope_after.mpr (.inr mem)

end Surroundings

theorem usesAll_append (around : Surroundings) :
    usesAll around (former ++ latter) =
      usesAll around former ++ usesAll (around.after former) latter := by
  induction former generalizing around with
  | nil => rfl
  | cons _ _ ih =>
    rw [cons_append, usesAll, usesAll, ih, append_assoc]
    rfl

/-- Statements that declare nothing do not change their surroundings. -/
theorem after_of_plain (plain : ∀ statement ∈ statements, IsPlain statement.erase) :
    around.after statements = around := by
  induction statements with
  | nil => rfl
  | cons statement rest ih =>
    obtain ⟨isPlain, restPlain⟩ := forall_mem_cons.mp plain
    have same : around.declaring statement.erase.declares = around := by
      rw [isPlain]
      rfl
    calc around.after (statement :: rest)
      _ = (around.declaring statement.erase.declares).after rest := rfl
      _ = around := by rw [same, ih restPlain]

theorem usesAll_of_plain (plain : ∀ statement ∈ statements, IsPlain statement.erase) :
    usesAll around statements = statements.flatMap (Annotated.uses around) := by
  induction statements with
  | nil => rfl
  | cons _ _ ih =>
    obtain ⟨isPlain, restPlain⟩ := forall_mem_cons.mp plain
    rw [usesAll, isPlain, flatMap_cons, ← ih restPlain]
    rfl

/-! ### Single statements -/

theorem noted_of_plain {statement : Statement} (plain : IsPlain statement) :
    noted before after node statement = .single statement (mentions after node) := by
  rw [IsPlain] at plain
  simp [noted, plain]

/-- Statements that declare nothing where they stand. -/
theorem Tracks.ofPlain (plain : ArePlain lowered) (grows : before.names.Grows after.names)
    (sameHoisted : after.names.hoisted = before.names.hoisted)
    (declarations : ∀ name ∈ before.names.declarations, name ∈ after.names.declarations)
    (sound : ∀ declarations around, (∀ name ∈ after.names.declarations, name ∈ declarations) →
      Sound declarations around before.names → Sound declarations around after.names) :
    Tracks before after (fun around => usesAll around (lowered.map (noted before after node)))
      (fun around => around.after (lowered.map (noted before after node))) where
  grows := grows
  hoisted := sameHoisted
  declarations := declarations
  settled declarations around contained soundBefore := by
    have soundAfter := sound declarations around contained soundBefore
    have notedPlain : ∀ statement ∈ lowered.map (noted before after node),
        IsPlain statement.erase := by
      intro _ mem
      obtain ⟨single, isLowered, rfl⟩ := mem_map.mp mem
      exact plain single isLowered
    rw [usesAll_of_plain notedPlain, after_of_plain notedPlain]
    refine ⟨fun use mem => ?_, soundAfter⟩
    obtain ⟨_, isNoted, inStatement⟩ := mem_flatMap.mp mem
    obtain ⟨single, isLowered, rfl⟩ := mem_map.mp isNoted
    rw [noted_of_plain (plain single isLowered), uses] at inStatement
    rw [← sameHoisted]
    exact soundAfter.mentions node use inStatement

theorem tracks_annotateSingle (single : node.isSingle) (isText : node.AssignsText)
    {annotated : List Annotated} (gives : Gives (annotateSingle node) before annotated after) :
    Tracks before after (fun around => usesAll around annotated)
      (fun around => around.after annotated) := by
  have gives := gives.ofGet
  obtain ⟨_, _, ofStatement, gives⟩ := gives.ofBind
  obtain ⟨rfl, rfl⟩ := gives.ofPure
  rcases single_cases single isText ofStatement with ⟨sameNames, plain⟩ | ⟨source, declared⟩
  · refine .ofPlain plain (.ofLocals (by rw [sameNames])) (by rw [sameNames])
      (by simp [sameNames]) ?_
    intro _ _ _ _
    rwa [sameNames]
  · obtain ⟨grows, -⟩ := declared.grows
    cases declared with
    | @here name statement notHoisted declares is_lowered names_it =>
      subst is_lowered
      have isNoted : noted before after node statement =
          .single statement (mentions before node) := by
        simp [noted, names_it]
      rw [map_singleton, isNoted]
      refine ⟨grows, declares.hoisted, by simp [declares.declarations], ?_⟩
      intro declarations around _ sound
      refine ⟨?_, ?_⟩
      · simpa [usesAll, uses] using sound.mentions node
      · change Sound declarations (around.declaring statement.declares) after.names
        rw [names_it]
        refine sound.declare declares (fun isHoisted => absurd isHoisted notHoisted) ?_
          (fun _ mem => mem) (fun _ mem => .inl mem)
        simp [Surroundings.declaring]
    | @above name statement middle hoisted declares is_lowered plain after_eq =>
      subst is_lowered
      refine .ofPlain (arePlain_singleton plain) grows (by rw [after_eq, ← declares.hoisted]) ?_ ?_
      · intro _ mem
        rw [← declares.declarations] at mem
        rw [after_eq]
        exact mem_append_left _ mem
      · intro declarations around contained sound
        have isAbove : name ∈ declarations := contained name (by simp [after_eq])
        have soundMiddle : Sound declarations around middle := by
          refine sound.declare declares (fun _ => .inl isAbove) ?_ (fun _ mem => mem)
            (fun _ mem => .inl mem)
          intro _
          constructor
          · exact .inr
          · rintro (rfl | mem)
            · exact sound.above _ isAbove
            · exact mem
        rw [after_eq]
        exact ⟨soundMiddle.settled, soundMiddle.covered, soundMiddle.above, soundMiddle.parameters⟩

/-! ### Loops -/

section

variable (isText : ∀ name ∈ param, name.IsText)
  (gives : Gives (loopIndex param) before counter after)
include isText gives

/-- The counter of a loop is a new name, and may be that of a parameter. -/
theorem loopIndex_cases :
    before.names.Takes counter after.names ∧ parameterMention param counter = [] ∨
      ∃ source, before.names.Declares source counter after.names ∧
        parameterMention param counter = [⟨source, counter⟩] := by
  cases param with
  | none =>
    obtain ⟨_, taken, rfl⟩ := gives.ofReturn
    obtain ⟨_, isCounter, -, takes⟩ := before.nextIndexName_takes
    rw [gives_modifyGet_iff.mp taken] at isCounter takes
    cases isCounter
    exact .inl ⟨takes, rfl⟩
  | some name =>
    obtain ⟨text, rfl⟩ := isText name rfl
    obtain ⟨_, declared, rfl⟩ := gives.ofReturn
    obtain ⟨_, isCounter, -, declares⟩ := before.declareLocal_declares text .uint256
    rw [gives_modifyGet_iff.mp declared] at isCounter declares
    cases isCounter
    exact .inr ⟨.text text, declares, rfl⟩

theorem extends_loopIndex : before.names.Extends counter after.names := by
  rcases loopIndex_cases isText gives with ⟨takes, -⟩ | ⟨source, declares, -⟩
  · exact takes.toExtends
  · exact declares.toExtends

end

theorem name_of_mem_parameterMention
    (mem : parameter ∈ parameterMention source name) : parameter.name = name := by
  obtain ⟨-, -, rfl⟩ := mem_map.mp mem
  rfl

/-- What happens as a loop is entered: its counter and its parameters are new, and what it starts
with may mention what was mentioned before it. -/
structure Enters (start entered : Names) (counter : String) (parameters mentioned : List Mention)
    (first : List Annotated) : Prop where
  grows : start.Grows entered
  hoisted : entered.hoisted = start.hoisted
  declarations : entered.declarations = start.declarations
  fresh : ∀ parameter ∈ parameters, Key.text parameter.name ∉ start.declared
  sound : ∀ declarations around, Sound declarations around start →
    (∀ mention ∈ mentioned, Key.text mention.name ∈ start.declared ∧
      Use.Settled start.hoisted declarations ⟨around, mention⟩) →
    (∀ use ∈ usesAll (around.inLoop counter parameters) first,
      use.Settled start.hoisted declarations) ∧
    Sound declarations ((around.inLoop counter parameters).after first) entered

/-- Only the counter is new. -/
theorem enters_loopIndex (isText : ∀ name ∈ param, name.IsText)
    (gives : Gives (loopIndex param) start counter entered) (mentioned : List Mention) :
    Enters start.names entered.names counter (parameterMention param counter) mentioned [] := by
  rcases loopIndex_cases isText gives with ⟨takes, isMention⟩ | ⟨source, declares, isMention⟩
  · rw [isMention]
    refine ⟨.ofLocals takes.locals, takes.hoisted, takes.declarations, by simp,
      fun declarations around sound _ => ?_⟩
    exact ⟨by simp [usesAll], sound.take takes⟩
  · rw [isMention]
    refine ⟨declares.grows, declares.hoisted, declares.declarations, ?_,
      fun declarations around sound _ => ?_⟩
    · rw [forall_mem_singleton]
      exact declares.fresh
    · refine ⟨by simp [usesAll], ?_⟩
      refine sound.declare declares (fun _ => .inr mem_cons_self)
        (by simp [Surroundings.inLoop, Surroundings.after])
        (fun _ mem => mem_append_right _ mem) ?_
      rintro parameter (_ | ⟨_, mem⟩)
      · exact .inr rfl
      · exact .inl mem

/-- The counter and the variable that holds an element are new. -/
theorem enters_element (isText : ∀ name ∈ indexParam, name.IsText)
    (isTextToo : ∀ name ∈ param, name.IsText)
    (ofIndex : Gives (loopIndex indexParam) start counter middle)
    (ofElement : Gives (annotateElement element param text mentioned) middle (elementParam, first)
      entered) :
    Enters start.names entered.names counter (parameterMention indexParam counter ++ elementParam)
      mentioned first := by
  have base := enters_loopIndex isText ofIndex mentioned
  cases param with
  | none =>
    obtain ⟨isResult, rfl⟩ := ofElement.ofPure
    cases isResult
    simpa using base
  | some name =>
    obtain ⟨source, rfl⟩ := isTextToo name rfl
    obtain ⟨_, declared, ofName, returned⟩ := ofElement.ofBind
    obtain ⟨isResult, rfl⟩ := returned.ofPure
    cases isResult
    obtain ⟨name, isName, -, declares⟩ := middle.declareLocal_declares source element
    rw [gives_modifyGet_iff.mp ofName] at isName declares
    cases isName
    have isMention : parameterMention (some (.text source)) (Payload.text name).spliced =
        [⟨.text source, name⟩] := rfl
    rw [isMention]
    have counted := extends_loopIndex isText ofIndex
    have nameFresh : Key.text name ∉ start.names.declared := by
      intro mem
      refine declares.fresh ?_
      rw [counted.declared]
      exact mem_cons_of_mem _ mem
    refine ⟨base.grows.trans declares.grows, declares.hoisted.trans base.hoisted,
      declares.declarations.trans base.declarations, ?_,
      fun declarations around sound mentionedSettled => ⟨?_, ?_⟩⟩
    · intro parameter mem
      rcases mem_append.mp mem with isIndex | isElement
      · exact base.fresh parameter isIndex
      · rwa [mem_singleton.mp isElement]
    · -- The element is read with what was mentioned before the loop; its new names are others.
      intro use mem
      obtain ⟨mention, isMentioned, rfl⟩ : ∃ mention ∈ mentioned, ⟨_, mention⟩ = use := by
        simpa [usesAll, uses] using mem
      obtain ⟨taken, settled⟩ := mentionedSettled mention isMentioned
      have notCounter : mention.name ≠ counter := by
        intro same
        rw [same] at taken
        exact counted.fresh taken
      refine settled.move (mem_cons.trans (or_iff_right notCounter)) ?_
      refine mem_append.trans (or_iff_right fun isNew => ?_)
      rcases mem_append.mp isNew with isIndex | isElement
      · exact notCounter (name_of_mem_parameterMention isIndex)
      · rw [mem_singleton.mp isElement] at taken
        exact nameFresh taken
    · have soundMiddle := (base.sound declarations around sound mentionedSettled).2
      refine soundMiddle.declare declares (fun _ => .inr ?_) ?_ ?_ ?_
      · simp [Surroundings.after, Surroundings.declaring, Surroundings.inLoop]
      · simp [Surroundings.after, Surroundings.declaring, Surroundings.inLoop, erase,
          Statement.declares, Statement.declaredName?, Statement.declare, Payload.spliced]
      · intro _ mem
        rcases mem_append.mp mem with isIndex | isOutside
        · exact mem_append_left _ (mem_append_left _ isIndex)
        · exact mem_append_right _ isOutside
      · intro _ mem
        rcases mem_append.mp mem with isNew | isOutside
        · rcases mem_append.mp isNew with isIndex | isElement
          · exact .inl (mem_append_left _ isIndex)
          · exact .inr (by rw [mem_singleton.mp isElement])
        · exact .inl (mem_append_right _ isOutside)

/-- A loop that is entered, run and left again. -/
theorem Enters.run {first body : List Annotated}
    (enters : Enters start.names entered.names counter parameters mentioned first)
    (inside : Tracks entered ending (fun around => usesAll around body)
      (fun around => around.after body)) {declarations : List String}
    (contained : ∀ name ∈ ending.names.declarations, name ∈ declarations)
    (sound : Sound declarations around start.names)
    (mentionedSettled : ∀ mention ∈ mentioned, Key.text mention.name ∈ start.names.declared ∧
      Use.Settled start.names.hoisted declarations ⟨around, mention⟩) :
    (∀ use ∈ usesAll (around.inLoop counter parameters) (first ++ body),
      use.Settled start.names.hoisted declarations) ∧
    Sound declarations around (ending.leaveBlock start.block).names := by
  obtain ⟨firstSettled, soundEntered⟩ := enters.sound declarations around sound mentionedSettled
  obtain ⟨bodySettled, soundEnding⟩ := inside.settled declarations _ contained soundEntered
  rw [enters.hoisted] at bodySettled
  constructor
  · intro use mem
    rw [usesAll_append] at mem
    rcases mem_append.mp mem with inFirst | inBody
    · exact firstSettled use inFirst
    · exact bodySettled use inBody
  · rw [← Surroundings.after_append] at soundEnding
    refine sound.leave soundEnding (inside.hoisted.trans enters.hoisted) ?_ ?_
    · intro name mem
      exact Surroundings.scope_subset_after _ _ name (mem_cons_of_mem _ mem)
    · intro parameter mem
      rw [Surroundings.parameters_after] at mem
      rcases mem_append.mp mem with isNew | isOutside
      · exact .inr (enters.fresh parameter isNew)
      · exact .inl isOutside

/-- All runs of the step keep the names sound. -/
def TracksAll (step : Lower (List Annotated)) : Prop :=
  ∀ before annotated after, Gives step before annotated after →
    Tracks before after (fun around => usesAll around annotated)
      (fun around => around.after annotated)

theorem tracksAll_nil : TracksAll (pure []) := by
  intro _ _ _ gives
  obtain ⟨rfl, rfl⟩ := gives.ofPure
  exact .ofNames rfl

/-- Statements and those after them. -/
theorem TracksAll.append (ofFormer : TracksAll former) (ofLatter : TracksAll latter) :
    TracksAll (do
      let annotated ← former
      return annotated ++ (← latter)) := by
  intro _ _ _ gives
  obtain ⟨_, _, givesFirst, gives⟩ := gives.ofBind
  obtain ⟨_, givesSecond, rfl⟩ := gives.ofReturn
  simp only [usesAll_append, Surroundings.after_append]
  exact (ofFormer _ _ _ givesFirst).trans (ofLatter _ _ _ givesSecond)

theorem tracksAll_noteLine (line : Option Int)
    (ofStep : TracksAll step) : TracksAll (do noteLine line; step) := by
  intro _ _ _ gives
  obtain ⟨⟨⟩, _, ofLine, gives⟩ := gives.ofBind
  exact .ofKept ((reports_noteLine _).keeps _ _ _ ofLine) (ofStep _ _ _ gives)

/-- A single statement keeps the names sound. -/
abbrev TracksOne (before after : Context) (annotated : Annotated) : Prop :=
  Tracks before after (fun around => annotated.uses around)
    (fun around => around.declaring annotated.erase.declares)

theorem Tracks.single (tracks : TracksOne before after annotated) :
    Tracks before after (fun around => usesAll around [annotated])
      (fun around => around.after [annotated]) := by
  simpa [usesAll, Surroundings.after] using tracks

section

variable (ofBody : TracksAll annotateBody)
include ofBody

theorem tracks_annotateTimes (areTexts : ∀ name ∈ params, name.IsText)
    (gives : Gives (annotateTimes count params annotateBody) before annotated after) :
    TracksOne before after annotated := by
  have gives := gives.ofAsks
  obtain ⟨_, start, ofCount, gives⟩ := gives.ofBind
  have sameStart := reports_operand.keeps _ _ _ ofCount
  obtain ⟨last, ofBlock, rfl⟩ := gives.ofBlock
  obtain ⟨counter, _, ofIndex, ofBlock⟩ := ofBlock.ofBind
  obtain ⟨body, givesBody, rfl⟩ := ofBlock.ofReturn
  have enters := enters_loopIndex (fun name mem => areTexts name (mem_of_head? mem)) ofIndex []
  have inside := ofBody _ _ _ givesBody
  have inBlock : Tracks start (last.leaveBlock start.block) (fun around =>
      usesAll (around.inLoop counter (parameterMention params.head? counter)) body) id :=
    ⟨Context.grows_leaveBlock (enters.grows.trans inside.grows),
      inside.hoisted.trans enters.hoisted,
      fun name mem => inside.declarations name (by rwa [enters.declarations]),
      fun declarations around contained sound => enters.run inside contained sound (by simp)⟩
  show Tracks before _ _ fun around => around
  simpa [uses, usesAll, Surroundings.after] using
    (Tracks.mentions before count).trans (.ofKept sameStart inBlock)

theorem tracks_annotateSequence (areTexts : ∀ name ∈ params, name.IsText)
    (gives : Gives (annotateSequence node subject params annotateBody) before annotated after) :
    TracksOne before after annotated := by
  have gives := gives.ofAsks
  obtain ⟨_, _, ofSubject, gives⟩ := gives.ofBind
  obtain ⟨_, _, ofType, gives⟩ := gives.ofBind
  obtain ⟨_, _, ofElementType, gives⟩ := gives.ofBind
  obtain ⟨base, fourth, ofBase, gives⟩ := gives.ofBind
  obtain ⟨_, _, ofLength, gives⟩ := gives.ofBind
  obtain ⟨_, start, ofWritten, gives⟩ := gives.ofBind
  obtain ⟨_, ofBlock, rfl⟩ := gives.ofBlock
  obtain ⟨⟨⟩, cached, ofCache, ofBlock⟩ := ofBlock.ofBind
  obtain ⟨_, _, ofIndex, ofBlock⟩ := ofBlock.ofBind
  obtain ⟨⟨_, _⟩, _, ofElement, ofBlock⟩ := ofBlock.ofBind
  obtain ⟨_, givesBody, rfl⟩ := ofBlock.ofReturn
  -- Up to the block, only the name of the variable for the length is taken.
  have sameBefore : fourth.names = before.names := by
    rw [keeps_part _ _ _ ofBase, reports_sequenceElement.keeps _ _ _ ofElementType,
      keeps_infer _ _ _ ofType, (reports_expression _).keeps _ _ _ ofSubject]
  obtain ⟨length, isLength, -, takes⟩ := fourth.uniqueName_takes base
  rw [gives_modifyGet_iff.mp ofLength] at isLength takes
  cases isLength
  rw [← reports_writtenAs.keeps _ _ _ ofWritten, sameBefore] at takes
  have enters := enters_element (Payload.isText_second areTexts)
    (fun name mem => areTexts name (mem_of_head? mem)) ofIndex ofElement
  have sameCached : cached.names = start.names := by
    rw [gives_modify_iff.mp ofCache]
    rfl
  rw [sameCached] at enters
  have inside := ofBody _ _ _ givesBody
  refine ⟨?_, ?_, ?_, ?_⟩
  · exact (Names.Grows.ofLocals takes.locals).trans
      (Context.grows_leaveBlock (enters.grows.trans inside.grows))
  · exact inside.hoisted.trans (enters.hoisted.trans takes.hoisted)
  · intro name _
    refine inside.declarations name ?_
    rwa [enters.declarations, takes.declarations]
  · intro declarations around contained sound
    have soundStart := sound.take takes
    have mentionedSettled : ∀ mention ∈ mentions before subject,
        Key.text mention.name ∈ start.names.declared ∧
          Use.Settled start.names.hoisted declarations ⟨around.declaring [length], mention⟩ := by
      intro mention isMention
      obtain ⟨taken, settled⟩ := sound.mention isMention
      rw [takes.declared, takes.hoisted]
      refine ⟨mem_cons_of_mem _ taken, settled.move ?_ Iff.rfl⟩
      refine mem_cons.trans (or_iff_right fun isLength => ?_)
      rw [isLength] at taken
      exact takes.fresh taken
    obtain ⟨bodySettled, soundAfter⟩ := enters.run inside contained soundStart mentionedSettled
    refine ⟨?_, soundAfter⟩
    intro use mem
    rw [uses, map_nil, append_nil] at mem
    rcases mem_append.mp mem with isMention | inBody
    · rw [usesAll, usesAll, uses, append_nil] at isMention
      exact sound.mentions subject use isMention
    · rw [← takes.hoisted]
      exact bodySettled use inBody

/-- A block of its own leaves what is declared around it. -/
theorem tracks_inBlock (gives : Gives (inBlock annotateBody) before body after) :
    Tracks before after (fun around => usesAll around body) id := by
  obtain ⟨_, givesBody, rfl⟩ := gives.ofBlock
  exact (ofBody _ _ _ givesBody).leave (fun around => around.scope_subset_after body)
    (fun around => around.parameters_after body)

/-- A loop that runs while a condition holds. -/
theorem tracks_repeated (keeps : Keeps lowerCondition)
    (gives : Gives (do
      let condition ← lowerCondition
      return .repeated condition (mentions before subject) (← inBlock annotateBody))
      before annotated after) : TracksOne before after annotated := by
  obtain ⟨_, _, ofCondition, gives⟩ := gives.ofBind
  obtain ⟨_, ofBlock, rfl⟩ := gives.ofReturn
  exact (Tracks.mentions before subject).trans
    (.ofKept (keeps _ _ _ ofCondition) (tracks_inBlock ofBody ofBlock))

theorem tracks_annotateLoop (areTexts : ∀ param ∈ params, param.payload.IsText)
    (gives : Gives (annotateLoop node subject params annotateBody) before annotated after) :
    TracksOne before after annotated := by
  have gives := gives.ofAsks
  have namesAreTexts : ∀ name ∈ params.map Node.payload, name.IsText := by
    simpa using areTexts
  split at gives
  · exact tracks_repeated ofBody (reports_expression _).keeps gives
  · split at gives
    · exact tracks_repeated ofBody reports_negation.keeps gives
    · split at gives
      · exact tracks_annotateTimes ofBody namesAreTexts gives
      · exact tracks_annotateSequence ofBody namesAreTexts gives

theorem TracksAll.ofLoop (areTexts : ∀ param ∈ params, param.payload.IsText) :
    TracksAll (do return [← annotateLoop node subject params annotateBody]) := by
  intro _ _ _ gives
  obtain ⟨_, ofLoop, rfl⟩ := gives.ofReturn
  exact (tracks_annotateLoop ofBody areTexts ofLoop).single

end

/-! ### Statements -/

/-- All runs of the step keep the names sound, and declare nothing behind the branches that it
gives. -/
def TracksBranches (step : Lower AnnotatedBranches) : Prop :=
  ∀ before found after, Gives step before found after →
    Tracks before after
      (fun around => usesBranches around found.1 ++ usesOtherwise around found.2) id

theorem tracks_branch (keeps : Keeps lowerCondition) (ofBody : TracksAll annotateBody)
    (ofRest : TracksBranches annotateRest) (gives : Gives (do
      let text ← lowerCondition
      let annotated ← inBlock annotateBody
      let (branches, otherwise) ← annotateRest
      return (((text, mentions before condition), annotated) :: branches, otherwise))
      before found after) :
    Tracks before after
      (fun around => usesBranches around found.1 ++ usesOtherwise around found.2) id := by
  obtain ⟨_, _, ofCondition, gives⟩ := gives.ofBind
  obtain ⟨_, _, ofBlock, gives⟩ := gives.ofBind
  obtain ⟨⟨_, _⟩, _, givesRest, returned⟩ := gives.ofBind
  obtain ⟨rfl, rfl⟩ := returned.ofPure
  have inside := (tracks_inBlock ofBody ofBlock).trans (ofRest _ _ _ givesRest)
  simp only [usesBranches, append_assoc]
  exact (Tracks.mentions before condition).trans (.ofKept (keeps _ _ _ ofCondition) inside)

theorem Node.WellNamed.assignsText (named : node.WellNamed) : node.AssignsText := by
  intro target _ children isName
  refine Node.WellNamed.isText (named.children target ?_) isName
  simp [children]

theorem loop_shape {payload : Payload} {line column : Option Int} {children : List Node}
    (gives : Gives (statement ⟨.loop, payload, line, column, children⟩) before lowered after) :
    (∃ subject params body, children = [subject, params, body]) ∨
      ∃ subject body, children = [subject, body] := by
  unfold statement at gives
  obtain ⟨⟨⟩, _, _, gives⟩ := gives.ofBind
  dsimp only at gives
  split at gives
  · exact .inl ⟨_, _, _, rfl⟩
  · exact .inr ⟨_, _, rfl⟩
  · exact absurd gives not_gives_throw

mutual

/-- Lowering a statement keeps the names sound. -/
theorem tracks_annotate (node : Node) (named : node.WellNamed) : TracksAll (annotate node) := by
  intro before annotated after gives
  unfold annotate at gives
  split at gives
  · rename_i line _ children
    refine tracksAll_noteLine line ?_ _ _ _ gives
    intro _ _ _ gives
    obtain ⟨⟨_, _⟩, _, ofBranches, returned⟩ := gives.ofBind
    obtain ⟨rfl, rfl⟩ := returned.ofPure
    exact .single (tracks_annotateBranches _ children named.children _ _ _ ofBranches)
  · rename_i line _ _ _ _ _ _ _ body
    have bodyNamed := named.children _ (mem_of_getElem? (i := 2) rfl)
    exact tracksAll_noteLine line (.ofLoop (tracks_annotateAll body bodyNamed.children)
      (named.loopParameters rfl rfl)) _ _ _ gives
  · rename_i line _ _ _ _ _ _ body
    have bodyNamed := named.children _ (mem_of_getElem? (i := 1) rfl)
    exact tracksAll_noteLine line (.ofLoop (tracks_annotateAll body bodyNamed.children) (by simp))
      _ _ _ gives
  · rename_i line _ children
    exact tracksAll_noteLine line (tracks_annotateAll children named.children) _ _ _ gives
  · rename_i line _ children
    dsimp only at gives
    split at gives
    · refine tracksAll_noteLine line ?_ _ _ _ gives
      intro _ _ _ gives
      obtain ⟨_, ofBlock, rfl⟩ := gives.ofReturn
      exact .single (tracks_annotateBlock named.children _ _ _ ofBlock)
    · rename_i noLoop
      refine tracks_annotateSingle ?_ named.assignsText gives
      simpa only [Node.isSingle, Bool.not_eq_true'] using Bool.eq_false_iff.mpr noLoop
  · rename_i noConditional noLoop noShortLoop noBody noCall
    obtain ⟨kind, _, _, _, _⟩ := node
    refine tracks_annotateSingle ?_ named.assignsText gives
    cases kind
    case conditional => exact (noConditional _ _ _ _ rfl).elim
    case body => exact (noBody _ _ _ _ rfl).elim
    case call => exact (noCall _ _ _ _ rfl).elim
    case loop =>
      -- A loop with other parts is not lowered at all.
      have lowered : Gives (eraseAll <$> annotateSingle _) before (eraseAll annotated) after :=
        gives_map_iff.mpr ⟨annotated, gives, rfl⟩
      rw [erase_annotateSingle] at lowered
      rcases loop_shape lowered with ⟨subject, params, ⟨_, _, _, _, _⟩, rfl⟩ |
        ⟨subject, ⟨_, _, _, _, _⟩, rfl⟩
      · exact (noLoop _ _ _ _ _ _ _ _ _ _ rfl).elim
      · exact (noShortLoop _ _ _ _ _ _ _ _ _ rfl).elim
    all_goals rfl

theorem tracks_annotateAll (nodes : List Node) (named : AllNamed nodes) :
    TracksAll (annotateAll nodes) := by
  unfold annotateAll
  split
  · exact tracksAll_nil
  · rename_i node rest
    obtain ⟨nodeNamed, restNamed⟩ := allNamed_cons.mp named
    exact (tracks_annotate node nodeNamed).append (tracks_annotateAll rest restNamed)

theorem tracks_annotateBranches (negated : Bool) (nodes : List Node) (named : AllNamed nodes) :
    TracksBranches (annotateBranches negated nodes) := by
  intro _ _ _ gives
  unfold annotateBranches at gives
  split at gives
  · rename_i body rest
    obtain ⟨-, bodyNamed, restNamed⟩ : _ ∧ Node.WellNamed _ ∧ AllNamed rest := by simpa using named
    have ofBody := tracks_annotateAll body bodyNamed.children
    have ofRest := tracks_annotateBranches false rest restNamed
    have gives := gives.ofAsks
    split at gives
    · exact tracks_branch reports_negation.keeps ofBody ofRest gives
    · exact tracks_branch (reports_expression _).keeps ofBody ofRest gives
  · rename_i body
    obtain ⟨_, ofBlock, rfl⟩ := gives.ofReturn
    have bodyNamed := (allNamed_cons.mp named).1
    exact tracks_inBlock (tracks_annotateAll body bodyNamed.children) ofBlock
  · obtain ⟨rfl, rfl⟩ := gives.ofPure
    exact .ofNames rfl

theorem tracks_annotateBlock (named : AllNamed nodes) :
    ∀ before found after, Gives (annotateBlock nodes) before found after →
      Tracks before after (fun around => usesAll around (found.getD [])) id := by
  intro before found after gives
  unfold annotateBlock at gives
  split at gives
  · obtain ⟨rfl, rfl⟩ := gives.ofPure
    exact .ofNames rfl
  · rename_i body _
    obtain ⟨_, ofBlock, rfl⟩ := gives.ofReturn
    have blockNamed := (allNamed_cons.mp named).1
    have bodyNamed := blockNamed.children _ (mem_of_getElem? (i := 1) rfl)
    exact tracks_inBlock (tracks_annotateAll body bodyNamed.children) ofBlock
  · exact absurd gives not_gives_throw
  · rename_i rest _ _
    exact tracks_annotateBlock (allNamed_cons.mp named).2 before found after gives

end

end ContractForge
