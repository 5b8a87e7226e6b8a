import ContractForge.Proofs.Lowering.Naming

/-!
# Local names stay apart

Names are taken, and blocks are entered and left, in any order that nests
(`Context.Reached`). Whatever was done, every name that is taken next is free, and
variables have names of their own (`reached_names`). For this, the names in all open blocks
have owners together: a block that is left hands on none but those.
-/

namespace ContractForge

open List

/-- From the innermost block on: the name of a variable is taken and belongs to it, and what is
taken is so in the blocks inside as well. -/
structure Owned (owner : String → Key) (blocks : List BlockScope) : Prop where
  names : ∀ block ∈ blocks, ∀ {key found}, block.locals.get? key = some found →
    ∃ name, found.name = .text name ∧ .text name ∈ block.declared ∧ owner name = key
  nested : blocks.Pairwise fun inner outer => outer.declared ⊆ inner.declared

namespace Context

/-- A way to take a name. -/
inductive Naming where
  | declare (name : String) (type : StaticType)
  | unique (base : String)
  | index

def Naming.run (context : Context) : Naming → Payload × Context
  | declare name type => context.declareLocal (.text name) (some type)
  | unique base => context.uniqueName (.text base)
  | index => context.nextIndexName

/-- What can be reached by taking names and by blocks that nest, with what was known before each
open block. -/
inductive Reached (start : Context) : List BlockScope → Context → Prop where
  | start : Reached start [] start
  | take {saved context} (reached : Reached start saved context) (naming : Naming) :
      Reached start saved (naming.run context).2
  | enter {saved context} (reached : Reached start saved context) :
      Reached start (context.block :: saved) context
  | leave {saved block context} (reached : Reached start (block :: saved) context) :
      Reached start saved (context.leaveBlock block)

variable {owner : String → Key} {saved : List BlockScope} {context start : Context}

/-- A name that is taken was free, and is given to at most one variable. -/
theorem naming_extends (context : Context) (naming : Naming) :
    ∃ name source, (naming.run context).1 = .text name ∧ context.isTaken (.text name) = false ∧
      context.names.Extends name (naming.run context).2.names ∧
      ∀ {key found}, (naming.run context).2.names.locals.get? key = some found →
        context.names.locals.get? key = some found ∨ key = source ∧ found.name = .text name := by
  cases naming with
  | declare source type =>
    obtain ⟨name, isName, free, declares⟩ := context.declareLocal_declares source type
    refine ⟨name, .text source, isName, free, declares.toExtends, fun known => ?_⟩
    exact (declares.known known).imp_right fun isNew => ⟨isNew.1, isNew.2.1⟩
  | unique base =>
    obtain ⟨name, isName, free, takes⟩ := context.uniqueName_takes base
    exact ⟨name, .absent, isName, free, takes.toExtends, fun known => .inl (takes.locals ▸ known)⟩
  | index =>
    obtain ⟨name, isName, free, takes⟩ := context.nextIndexName_takes
    exact ⟨name, .absent, isName, free, takes.toExtends, fun known => .inl (takes.locals ▸ known)⟩

theorem exists_owned_run (owned : Owned owner (context.block :: saved)) (naming : Naming) :
    ∃ owner, Owned owner ((naming.run context).2.block :: saved) := by
  obtain ⟨name, source, -, -, ⟨fresh, isDeclared, -, -⟩, locals⟩ := context.naming_extends naming
  have declared_eq : (naming.run context).2.block.declared = .text name :: context.block.declared :=
    isDeclared
  obtain ⟨wider, nested⟩ := pairwise_cons.mp owned.nested
  -- The name was free, so it belonged to no variable of an open block.
  have kept : ∀ block ∈ context.block :: saved, ∀ {key found}, block.locals.get? key = some found →
      ∃ other, found.name = .text other ∧ .text other ∈ block.declared ∧
        Function.update owner name source other = key := by
    intro block mem _ _ known
    obtain ⟨other, isName, taken, isOwner⟩ := owned.names block mem known
    have different : other ≠ name := by
      rintro rfl
      obtain rfl | isOuter := mem_cons.mp mem
      · exact fresh taken
      · exact fresh (wider block isOuter taken)
    exact ⟨other, isName, taken, by rwa [Function.update_of_ne different]⟩
  obtain ⟨ofBlock, ofSaved⟩ := forall_mem_cons.mp kept
  refine ⟨Function.update owner name source, forall_mem_cons.mpr ⟨fun known => ?_, ofSaved⟩,
    pairwise_cons.mpr ⟨?_, nested⟩⟩
  all_goals rw [declared_eq]
  · obtain before | ⟨isSource, isName⟩ := locals known
    · obtain ⟨other, isOther, taken, isOwner⟩ := ofBlock before
      exact ⟨other, isOther, mem_cons_of_mem _ taken, isOwner⟩
    · exact ⟨name, isName, mem_cons_self, by rw [isSource, Function.update_self]⟩
  · exact fun block isOuter => subset_cons_of_subset _ (wider block isOuter)

theorem owned_leaveBlock (owned : Owned owner (context.block :: outer :: saved)) :
    Owned owner ((context.leaveBlock outer).block :: saved) := by
  have kept : outer.declared ⊆ (context.leaveBlock outer).block.declared :=
    declared_subset_keepHoisted _ _ _
  obtain ⟨ofBlock, others⟩ := forall_mem_cons.mp owned.names
  obtain ⟨ofOuter, ofSaved⟩ := forall_mem_cons.mp others
  obtain ⟨wider, nested⟩ := pairwise_cons.mp (pairwise_cons.mp owned.nested).2
  refine ⟨forall_mem_cons.mpr ⟨fun known => ?_, ofSaved⟩,
    pairwise_cons.mpr ⟨fun block isOuter => Subset.trans (wider block isOuter) kept, nested⟩⟩
  obtain ⟨hoisted, inside⟩ | before := get?_foldl_keepHoisted known
  · obtain ⟨name, isName, -, isOwner⟩ := ofBlock inside
    exact ⟨name, isName, mem_declared_foldl_keepHoisted hoisted inside isName, isOwner⟩
  · obtain ⟨name, isName, taken, isOwner⟩ := ofOuter before
    exact ⟨name, isName, kept taken, isOwner⟩

theorem Reached.exists_owned (empty : start.block = {})
    (reached : Reached start saved context) : ∃ owner, Owned owner (context.block :: saved) := by
  induction reached with
  | start =>
    rw [empty]
    exact ⟨fun _ => .absent, forall_mem_singleton.mpr nofun, pairwise_singleton _ _⟩
  | take _ naming ih => exact ih.elim fun _ owned => exists_owned_run owned naming
  | enter _ ih =>
    obtain ⟨owner, owned⟩ := ih
    refine ⟨owner, by simpa using owned.names, pairwise_cons.mpr ⟨?_, owned.nested⟩⟩
    exact forall_mem_cons.mpr ⟨Subset.refl _, (pairwise_cons.mp owned.nested).1⟩
  | leave _ ih => exact ih.imp fun _ => owned_leaveBlock

/-- From a fresh method on, whatever names are taken and whatever blocks are entered and left: the
next name is free, variables have names that are taken, and different variables have different
ones. -/
theorem reached_names (base : Context) (method : String) (hoisted : List Key)
    (reached : Reached
      { base with method := { method, hoisted } } saved context) :
    (∀ naming : Naming, ∃ name, (naming.run context).1 = .text name ∧
        .text name ∉ context.block.declared ∧ context.contract.stateVars.has (.text name) = false) ∧
      (∀ key found, context.block.locals.get? key = some found →
        ∃ name, found.name = .text name ∧ .text name ∈ context.block.declared) ∧
      ∀ key other found second, context.block.locals.get? key = some found →
        context.block.locals.get? other = some second → key ≠ other → found.name ≠ second.name := by
  obtain ⟨owner, owned⟩ := reached.exists_owned rfl
  refine ⟨fun naming => ?_, fun key found known => ?_,
    fun key other found second isFound isSecond => mt fun same => ?_⟩
  · obtain ⟨name, _, isName, free, -⟩ := context.naming_extends naming
    exact ⟨name, isName, by simpa [isTaken, Payload.key?] using free⟩
  · obtain ⟨name, isName, taken, -⟩ := owned.names _ mem_cons_self known
    exact ⟨name, isName, taken⟩
  · obtain ⟨name, isName, -, rfl⟩ := owned.names _ mem_cons_self isFound
    obtain ⟨_, isOther, -, rfl⟩ := owned.names _ mem_cons_self isSecond
    cases isName.symm.trans (same.trans isOther)
    rfl

/-- A hoisted variable, declared again behind the block that it was declared in. -/
theorem reached_names_behind :
    let start : Context := { method := { method := "sum", hoisted := [.text "total"] } }
    let naming := Naming.declare "total" .uint256
    let behind := (naming.run start).2.leaveBlock start.block
    Reached start [] behind ∧ ∃ name, (naming.run behind).1 = .text name ∧
      .text name ∉ behind.block.declared ∧ behind.contract.stateVars.has (.text name) = false :=
  ⟨.leave (.take (.enter .start) _),
    (reached_names {} "sum" [.text "total"] (.leave (.take (.enter .start) _))).1 _⟩

end Context

end ContractForge
