import ContractForge.Proofs.Listing.Rechecking
import ContractForge.Proofs.Listing.Rewriting

/-!
# Putting in the library

Checking arithmetic changes assignments line by line and puts a few lines of its own into the
listing: the import of the library and, behind contract headers, the line that attaches it.
None of these lines counts for the other passes, and no run of declarations is torn apart.
-/

namespace ContractForge.Listing

open Text List

variable {lines others enumNames body : List String} {α : Type} {line : String}

/-! ### Assignments -/

/-- An indented line that starts with a name and ends with a semicolon, where the name is not
followed by another word. -/
structure IsAssignment (line : String) : Prop where
  named : ∃ indent root tail, NamedLine line indent root tail ∧
    ∀ c rest, tail = ' ' :: c :: rest → isWordChar c = false
  ends : line.toList.getLast? = some ';'

theorem isWordChar_of_checkedFunction?
    (known : checkedFunction? op = some function) : isWordChar op = false := by
  unfold checkedFunction? at known
  split at known <;> first | contradiction | decide

namespace NamedLine

variable {line : String} {tail : List Char}

theorem getLast?_eq (named : NamedLine line indent root tail)
    (suffix : ending <:+ tail) (ends : ending.getLast? = some ';') :
    line.toList.getLast? = some ';' := by
  refine getLast?_of_suffix (suffix.trans ?_) ends
  rw [named.shape, ← append_assoc]
  exact suffix_append _ _

theorem isAssignment (named : NamedLine line indent root tail)
    (found : change? tail = some parts) : IsAssignment line := by
  obtain ⟨ending, rfl, isIndex, ends⟩ := change?_eq_some found
  have isLast : ending.getLast? = some ';' := by
    obtain ⟨ends, -⟩ | ⟨ends, -⟩ := ends
    · obtain ⟨_, rfl, -⟩ := compoundEnd?_eq_some.mp ends
      simp [getLast?_cons]
    · obtain ⟨⟨rfl, -⟩ | ⟨rfl, -⟩, -⟩ := stepEnd?_eq_some ends <;> rfl
  refine ⟨⟨indent, root, _, named, fun c rest shape => ?_⟩,
    named.getLast?_eq (suffix_append _ _) isLast⟩
  obtain none | ⟨_, bracketed, -⟩ := isIndex
  · rw [none, nil_append] at shape
    obtain ⟨ends, -⟩ | ⟨ends, -⟩ := ends
    · obtain ⟨_, rfl, known, -⟩ := compoundEnd?_eq_some.mp ends
      cases shape
      exact isWordChar_of_checkedFunction? known
    · obtain ⟨⟨rfl, -⟩ | ⟨rfl, -⟩, -⟩ := stepEnd?_eq_some ends <;> simp at shape
  · rw [bracketed] at shape
    simp at shape

theorem isAssignment_checked (named : NamedLine line indent root tail)
    (found : change? tail = some parts) : IsAssignment (updateOf indent root parts).checked := by
  obtain ⟨-, -, isIndex, -⟩ := change?_eq_some found
  have isNamed := named.checked isIndex
  refine ⟨⟨indent, root, _, isNamed, fun c rest shape => ?_⟩,
    isNamed.getLast?_eq (checkedTail_ends _ _ _ _) rfl⟩
  obtain none | ⟨_, bracketed, -⟩ := isIndex
  · rw [none] at shape
    cases shape
    decide
  · rw [bracketed] at shape
    simp [checkedTail] at shape

end NamedLine

theorem checkLine_cases (line : String) :
    checkLine unsigned line = line ∨
      IsAssignment line ∧ IsAssignment (checkLine unsigned line) := by
  by_cases same : checkLine unsigned line = line
  · exact .inl same
  · obtain ⟨_, _, _, _, named, -, found, checked⟩ := exists_change same
    rw [checked]
    exact .inr ⟨named.isAssignment found, named.isAssignment_checked found⟩

namespace IsAssignment

variable {line : String} (assignment : IsAssignment line)
include assignment

theorem noFunction : functionHeader? line = none :=
  functionHeader?_of_last assignment.ends (by decide)

theorem noContract : isContractHeader line = false := by
  obtain ⟨_, _, _, named, -⟩ := assignment.named
  obtain ⟨c, _, rfl⟩ := exists_cons_of_ne_nil named.indented
  have blank := named.blank c mem_cons_self
  have noStart : ∀ start first rest, String.toList start = first :: rest →
      isBlankChar first = false → after? start line.toList = none := by
    intro start _ _ isStart solid
    cases found : after? start line.toList with
    | none => rfl
    | some =>
      have shape := after?_eq_some.mp found
      rw [named.shape, isStart] at shape
      obtain ⟨rfl, -⟩ := List.cons.inj shape
      rw [blank] at solid
      contradiction
  unfold isContractHeader
  simp only [noStart "abstract " _ _ rfl rfl, Option.getD_none, noStart "contract " _ _ rfl rfl]

/-- The line does not start with two words. -/
theorem noWords (first : List Char) {rest : List Char}
    (word : ∀ c ∈ first, isWordChar c) (isWord : isWordChar c) :
    line.toList.dropWhile isBlankChar ≠ first ++ ' ' :: c :: rest := by
  obtain ⟨_, _, _, named, single⟩ := assignment.named
  intro shape
  have isTail := (name?_eq_some named.name?_eq).2
  rw [shape, dropWhile_append_of_pos word, dropWhile_cons_of_neg (by decide)] at isTail
  rw [single c _ isTail] at isWord
  contradiction

theorem dropWhile_space : line.toList.dropWhile isSpace = line.toList.dropWhile isBlankChar := by
  obtain ⟨_, _, _, named, -⟩ := assignment.named
  obtain ⟨_, _, rfl, starts, -⟩ := named.exists_root
  have blank := fun c mem => isSpace_of_isBlankChar (named.blank c mem)
  rw [named.dropWhile_blank, named.shape, dropWhile_append_of_pos blank, cons_append,
    dropWhile_cons_of_neg (by simp [isSpace_of_isNameStart starts])]

theorem noPragma : pragmaConstraint? line = none := by
  cases found : after? "pragma solidity " (trimmed line.toList) with
  | none =>
    rw [pragmaConstraint?, found]
    rfl
  | some =>
    have front : trimmed line.toList <+: line.toList.dropWhile isSpace := by
      have suffix := dropWhile_suffix isSpace (l := (line.toList.dropWhile isSpace).reverse)
      rwa [← reverse_prefix, reverse_reverse] at suffix
    obtain ⟨_, shape⟩ := front
    rw [after?_eq_some.mp found, assignment.dropWhile_space] at shape
    exact absurd shape.symm (assignment.noWords "pragma".toList (all_eq_true.mp rfl) rfl)

theorem noEnumeration : enumeration? line = none := by
  cases found : enumeration? line with
  | none => rfl
  | some =>
    obtain ⟨rest, after, found⟩ := Option.bind_eq_some_iff.mp found
    obtain ⟨⟨_, _⟩, isWord, -⟩ := Option.bind_eq_some_iff.mp found
    have shape := after?_eq_some.mp after
    cases rest with
    | nil => contradiction
    | cons c =>
      have starts : isWordChar c := by
        by_contra outside
        simp [word?, outside] at isWord
      exact absurd shape (assignment.noWords "enum".toList (all_eq_true.mp rfl) starts)

theorem ne_closing (header : FunctionHeader) : line ≠ header.closing := by
  rintro rfl
  have ends := assignment.ends
  rw [getLast?_closing] at ends
  exact absurd ends (by decide)

theorem opens : closes line = false := by
  obtain ⟨_, _, _, named, -⟩ := assignment.named
  obtain ⟨first, _, rfl, _, -⟩ := named.exists_root
  rw [closes, assignment.dropWhile_space, named.dropWhile_blank, cons_append, head?_cons]
  have notBrace : first ≠ '\x7d' := by
    rintro rfl
    contradiction
  simpa using notBrace

end IsAssignment

/-! ### Checked lines -/

section

/-- What is read alike off all assignments is read off a line before and after it is checked. -/
theorem read_checkLine {read : String → α} {none : α}
    (unread : ∀ line, IsAssignment line → read line = none) (line : String) :
    read (checkLine unsigned line) = read line := by
  obtain same | ⟨before, after⟩ := checkLine_cases line
  · rw [same]
  · rw [unread _ before, unread _ after]

theorem functionHeader?_checkLine (line : String) :
    functionHeader? (checkLine unsigned line) = functionHeader? line :=
  read_checkLine (fun _ => IsAssignment.noFunction) line

theorem isContractHeader_checkLine (line : String) :
    isContractHeader (checkLine unsigned line) = isContractHeader line :=
  read_checkLine (fun _ => IsAssignment.noContract) line

theorem pragmaConstraint?_checkLine (line : String) :
    pragmaConstraint? (checkLine unsigned line) = pragmaConstraint? line :=
  read_checkLine (fun _ => IsAssignment.noPragma) line

theorem enumeration?_checkLine (line : String) :
    enumeration? (checkLine unsigned line) = enumeration? line :=
  read_checkLine (fun _ => IsAssignment.noEnumeration) line

theorem bodies_map_checkLine (lines : List String) :
    bodies (lines.map (checkLine unsigned)) =
      (bodies lines).map (List.map (checkLine unsigned)) := by
  induction lines with
  | nil => rfl
  | cons line _ ih =>
    rw [map_cons, bodies, bodies, functionHeader?_checkLine]
    cases functionHeader? line with
    | none => exact ih
    | some header =>
      have unlike : ∀ line, IsAssignment line → (line != header.closing) :=
        fun line assignment => by simpa using assignment.ne_closing header
      simp only [ih, map_cons, takeWhile_map, Function.comp_def, read_checkLine unlike]

theorem behindHeader_map_checkLine (lines : List String) :
    behindHeader (lines.map (checkLine unsigned)) =
      (behindHeader lines).map (checkLine unsigned) := by
  induction lines with
  | nil => rfl
  | cons _ _ ih =>
    rw [map_cons, behindHeader_cons, behindHeader_cons, isContractHeader_checkLine]
    split
    · rfl
    · exact ih

end

/-- No line that is changed is taken for a declaration, before or after. -/
def KeepsDeclarations (unsigned lines : List String) : Prop :=
  ∀ line ∈ lines, checkLine unsigned line ≠ line →
    declaration? line = none ∧ declaration? (checkLine unsigned line) = none

section

variable {unsigned lines : List String} (keeps : KeepsDeclarations unsigned lines)
include keeps

theorem KeepsDeclarations.declaration?_checkLine (mem : line ∈ lines) :
    declaration? (checkLine unsigned line) = declaration? line := by
  by_cases same : checkLine unsigned line = line
  · rw [same]
  · obtain ⟨before, after⟩ := keeps line mem same
    rw [before, after]

theorem KeepsDeclarations.checkLine_of_declaration?
    (mem : line ∈ lines) (declares : declaration? line = some found) :
    checkLine unsigned line = line := by
  by_contra changed
  rw [(keeps line mem changed).1] at declares
  contradiction

theorem KeepsDeclarations.isStatement (mem : line ∈ lines)
    (statement : IsStatement line) : IsStatement (checkLine unsigned line) where
  noFunction := by rw [functionHeader?_checkLine, statement.noFunction]
  noContract := by rw [isContractHeader_checkLine, statement.noContract]
  noDeclaration := by rw [keeps.declaration?_checkLine mem, statement.noDeclaration]
  noPragma := by rw [pragmaConstraint?_checkLine, statement.noPragma]

theorem KeepsDeclarations.packWith_of
    (parts : layoutParts enumNames (lines.map (checkLine unsigned)) =
      ((layoutParts enumNames lines).1,
        (layoutParts enumNames lines).2.map (checkLine unsigned))) :
    packWith enumNames (lines.map (checkLine unsigned)) =
      (packWith enumNames lines).map (checkLine unsigned) := by
  have unchanged : ∀ line ∈ arrange enumNames (layoutParts enumNames lines).1,
      checkLine unsigned line = line := by
    intro line mem
    have inLines : line ∈ lines :=
      (packWith_perm enumNames lines).mem_iff.mp (mem_append_left _ mem)
    obtain ⟨_, isEntry, rfl⟩ := mem_map.mp mem
    exact keeps.checkLine_of_declaration? inLines
      (declaration?_of_mem_layoutParts ((arranged_perm _).mem_iff.mp isEntry))
  rw [packWith, parts, packWith, map_append, map_congr_left unchanged, map_id']

/-- Checking lines keeps the runs of declarations. -/
theorem KeepsDeclarations.layoutParts_map (enumNames : List String) :
    layoutParts enumNames (lines.map (checkLine unsigned)) =
      ((layoutParts enumNames lines).1,
        (layoutParts enumNames lines).2.map (checkLine unsigned)) := by
  induction lines with
  | nil => rfl
  | cons line rest ih =>
    have later : KeepsDeclarations unsigned rest :=
      fun other mem => keeps other (mem_cons_of_mem _ mem)
    have alike := keeps.declaration?_checkLine mem_cons_self
    rw [map_cons]
    cases declares : declaration? line with
    | some =>
      rw [keeps.checkLine_of_declaration? mem_cons_self declares,
        layoutParts_entry declares, layoutParts_entry declares,
        ih later]
    | none =>
      rw [layoutParts_other (alike.trans declares),
        layoutParts_other declares, later.packWith_of (ih later),
        map_cons]

end

theorem mem_of_mem_bodies (isBody : body ∈ bodies lines) (mem : line ∈ body) : line ∈ lines := by
  induction lines with
  | nil => contradiction
  | cons first _ ih =>
    rw [bodies] at isBody
    cases found : functionHeader? first with
    | none =>
      rw [found] at isBody
      exact mem_cons_of_mem _ (ih isBody)
    | some =>
      rw [found] at isBody
      obtain rfl | later := mem_cons.mp isBody
      · exact mem_cons_of_mem _ ((takeWhile_sublist _).subset mem)
      · exact mem_cons_of_mem _ (ih later)

/-! ### Lines of the library -/

/-- The lines that are put in when arithmetic is checked. -/
def libraryTexts : List String :=
  ["", libraryImport, "    " ++ libraryUse]

theorem isStatement_of_library : ∀ line ∈ libraryTexts, IsStatement line := by
  decide

theorem enumeration?_of_library : ∀ line ∈ libraryTexts, enumeration? line = none := by
  decide

theorem closes_of_library : ∀ line ∈ libraryTexts, closes line = false := by
  decide

theorem checkLine_of_library (mem : line ∈ libraryTexts) : checkLine unsigned line = line := by
  have compound : ∀ line ∈ libraryTexts, update? compoundEnd? line = none := by decide
  have step : ∀ line ∈ libraryTexts, update? stepEnd? line = none := by decide
  rw [checkLine, compound line mem, step line mem]
  rfl

theorem ne_closing_of_library (header : FunctionHeader) : header.closing ∉ libraryTexts := by
  have others : ∀ line ∈ libraryTexts, line.toList.getLast? ≠ some '\x7d' := by decide
  exact fun mem => others _ mem (getLast?_closing header)

/-- A listing with lines of the library put in, but not between two declarations. -/
inductive Inserts : List String → List String → Prop where
  | nil : Inserts [] []
  | keep (line : String) {rest others : List String} (inserts : Inserts rest others) :
      Inserts (line :: rest) (line :: others)
  | around {line : String} {rest others before after : List String}
      (other : declaration? line = none) (ahead : before ⊆ libraryTexts)
      (behind : after ⊆ libraryTexts) (inserts : Inserts rest others) :
      Inserts (line :: rest) (before ++ line :: (after ++ others))

/-- A function body into which lines of the library may have been put. -/
structure Extends (body others : List String) : Prop where
  mem : ∀ line ∈ others, line ∈ libraryTexts ∨ line ∈ body
  head : ∀ first ∈ others.head?, first ∈ libraryTexts ∨ first ∈ body.head?

namespace Extends

variable {body others : List String}

theorem nil : Extends [] [] where
  mem := by simp
  head := by simp

theorem cons (extended : Extends body others) (line : String) :
    Extends (line :: body) (line :: others) where
  mem := by
    intro other member
    obtain rfl | member := mem_cons.mp member
    · exact .inr mem_cons_self
    · exact (extended.mem other member).imp_right (mem_cons_of_mem _)
  head := fun _ isFirst => .inr isFirst

theorem put (library : new ⊆ libraryTexts) (extended : Extends body others) :
    Extends body (new ++ others) where
  mem := by
    intro line member
    obtain isNew | member := mem_append.mp member
    · exact .inl (library isNew)
    · exact extended.mem line member
  head := by
    cases new with
    | nil => exact extended.head
    | cons =>
      intro _ isFirst
      cases isFirst
      exact .inl (library mem_cons_self)

end Extends

namespace Inserts

variable {lines others : List String}

theorem behind (other : declaration? line = none) (library : new ⊆ libraryTexts)
    (inserts : Inserts lines others) : Inserts (line :: lines) (line :: (new ++ others)) := by
  have inserted := Inserts.around other (nil_subset _) library inserts
  rwa [nil_append] at inserted

theorem refl (lines : List String) : Inserts lines lines := by
  induction lines with
  | nil => exact .nil
  | cons line _ ih => exact .keep line ih

/-- All lines are still there, in their order. -/
theorem sublist (inserts : Inserts lines others) : lines.Sublist others := by
  induction inserts with
  | nil => exact .slnil
  | keep line _ ih => exact ih.cons_cons line
  | @around line rest others before after other ahead behind inserts ih =>
    refine Sublist.trans ?_ (sublist_append_right before _)
    exact ((ih.trans (sublist_append_right after _)).cons_cons line)

theorem isExtended (inserts : Inserts lines others) : Extends lines others := by
  induction inserts with
  | nil => exact .nil
  | keep line _ ih => exact ih.cons line
  | around _ ahead behind _ ih => exact .put ahead ((Extends.put behind ih).cons _)

/-- What is not read off lines of the library is read as before. -/
theorem filterMap (unread : ∀ line ∈ libraryTexts, read? line = none)
    (inserts : Inserts lines others) : others.filterMap read? = lines.filterMap read? := by
  have nothing : ∀ {new : List String}, new ⊆ libraryTexts → new.filterMap read? = [] :=
    fun subset => filterMap_eq_nil_iff.mpr fun line mem => unread line (subset mem)
  induction inserts with
  | nil => rfl
  | keep _ _ ih =>
    rw [filterMap_cons, filterMap_cons, ih]
  | around _ ahead behind _ ih =>
    rw [filterMap_append, nothing ahead, nil_append, filterMap_cons,
      filterMap_cons, filterMap_append, nothing behind, nil_append,
      ih]

theorem inside_of_library (library : new ⊆ libraryTexts) (header : FunctionHeader) :
    ∀ line ∈ new, (line != header.closing) := by
  intro line mem
  have differs : line ≠ header.closing :=
    fun same => ne_closing_of_library header (same ▸ library mem)
  simpa using differs

theorem takeWhile_closing (inserts : Inserts lines others) (header : FunctionHeader) :
    Extends (lines.takeWhile (· != header.closing)) (others.takeWhile (· != header.closing)) := by
  induction inserts with
  | nil => exact .nil
  | keep line _ ih =>
    by_cases isClosing : line = header.closing
    · simpa [isClosing] using Extends.nil
    · simpa [isClosing] using ih.cons line
  | @around line rest others before after other ahead behind inserts ih =>
    rw [takeWhile_append_of_pos (inside_of_library ahead header)]
    refine Extends.put ahead ?_
    by_cases isClosing : line = header.closing
    · simpa [isClosing] using Extends.nil
    · have taken := (Extends.put behind ih).cons line
      rw [← takeWhile_append_of_pos (inside_of_library behind header)] at taken
      simpa [isClosing] using taken

/-- Each body is one that was there, with lines of the library in it. -/
def ExtendsBodies (lines others : List String) : Prop :=
  ∀ body ∈ bodies others, ∃ original ∈ bodies lines, Extends original body

theorem extendsBodies_cons (line : String)
    (taken : ∀ header : FunctionHeader, Extends (rest.takeWhile (· != header.closing))
      (others.takeWhile (· != header.closing))) (later : ExtendsBodies rest others) :
    ExtendsBodies (line :: rest) (line :: others) := by
  intro body mem
  rw [bodies] at mem ⊢
  cases found : functionHeader? line with
  | none =>
    rw [found] at mem
    exact later body mem
  | some header =>
    rw [found] at mem
    obtain rfl | inOthers := mem_cons.mp mem
    · exact ⟨_, mem_cons_self, taken header⟩
    · obtain ⟨original, isBody, extended⟩ := later body inOthers
      exact ⟨original, mem_cons_of_mem _ isBody, extended⟩

theorem extendsBodies (inserts : Inserts lines others) : ExtendsBodies lines others := by
  have plain : ∀ {new : List String}, new ⊆ libraryTexts →
      ∀ line ∈ new, functionHeader? line = none :=
    fun subset line mem => (isStatement_of_library line (subset mem)).noFunction
  induction inserts with
  | nil => exact fun body mem => absurd mem not_mem_nil
  | keep line inserts ih =>
    exact extendsBodies_cons line inserts.takeWhile_closing ih
  | @around line rest others before after other ahead behind inserts ih =>
    rw [ExtendsBodies, bodies_append_of_plain (plain ahead)]
    refine extendsBodies_cons line (fun header => ?_) ?_
    · rw [takeWhile_append_of_pos (inside_of_library behind header)]
      exact Extends.put behind (inserts.takeWhile_closing header)
    · rw [ExtendsBodies, bodies_append_of_plain (plain behind)]
      exact ih

/-- Function bodies still hold nothing but statements. -/
theorem plainBodies (inserts : Inserts lines others) (plain : PlainBodies lines) :
    PlainBodies others := by
  intro body isBody line mem
  obtain ⟨original, isOriginal, extended⟩ := inserts.extendsBodies body isBody
  obtain library | inOriginal := extended.mem line mem
  · exact isStatement_of_library line library
  · exact plain original isOriginal line inOriginal

theorem opens (inserts : Inserts lines others)
    (opens : ∀ body ∈ bodies lines, ∀ first ∈ body.head?, closes first = false) :
    ∀ body ∈ bodies others, ∀ first ∈ body.head?, closes first = false := by
  intro body isBody first isFirst
  obtain ⟨original, isOriginal, extended⟩ := inserts.extendsBodies body isBody
  obtain library | inOriginal := extended.head first isFirst
  · exact closes_of_library first library
  · exact opens original isOriginal first inOriginal

section

variable {test : String → Bool} (fails : ∀ line ∈ libraryTexts, test line = false)
include fails

theorem any_of_library (library : new ⊆ libraryTexts) : new.any test = false :=
  any_eq_false.mpr fun line mem => by simp [fails line (library mem)]

theorem any (inserts : Inserts lines others) : others.any test = lines.any test := by
  induction inserts with
  | nil => rfl
  | keep _ _ ih =>
    rw [any_cons, any_cons, ih]
  | around _ ahead behind _ ih =>
    rw [any_append, any_of_library fails ahead, Bool.false_or, any_cons, any_cons,
      any_append, any_of_library fails behind, Bool.false_or, ih]

/-- A test that fails on the lines of the library has the same outcome behind the header. -/
theorem any_behindHeader (inserts : Inserts lines others) :
    (behindHeader others).any test = (behindHeader lines).any test := by
  have plain : ∀ {new : List String}, new ⊆ libraryTexts →
      ∀ line ∈ new, isContractHeader line = false :=
    fun subset line mem => (isStatement_of_library line (subset mem)).noContract
  induction inserts with
  | nil => rfl
  | keep _ inserts ih =>
    rw [behindHeader_cons, behindHeader_cons]
    split
    · exact inserts.any fails
    · exact ih
  | around _ ahead behind inserts ih =>
    rw [behindHeader_append (plain ahead), behindHeader_cons, behindHeader_cons]
    split
    · rw [any_append, any_of_library fails behind, Bool.false_or, inserts.any fails]
    · rw [behindHeader_append (plain behind), ih]

end

end Inserts

/-! ### Packed listings -/

/-- Everything behind the run of declarations at the beginning is packed. -/
def PackedBehind (enumNames lines : List String) : Prop :=
  (layoutParts enumNames lines).2 = lines.dropWhile fun line => (declaration? line).isSome

theorem map_fst_layoutParts (enumNames lines : List String) :
    (layoutParts enumNames lines).1.map Prod.fst =
      lines.takeWhile fun line => (declaration? line).isSome := by
  induction lines with
  | nil => rfl
  | cons line _ ih =>
    cases declares : declaration? line with
    | none => simp [layoutParts_other declares, declares]
    | some => simp [layoutParts_entry declares, declares, ih]

/-- A listing is packed exactly if its first run of declarations is, and everything behind it. -/
theorem packWith_eq_self_iff :
    packWith enumNames lines = lines ↔
      arrange enumNames (layoutParts enumNames lines).1 =
          (layoutParts enumNames lines).1.map Prod.fst ∧ PackedBehind enumNames lines := by
  have sameLength : (arrange enumNames (layoutParts enumNames lines).1).length =
      ((layoutParts enumNames lines).1.map Prod.fst).length :=
    ((arranged_perm enumNames).map Prod.fst).length_eq
  have parts := takeWhile_append_dropWhile (p := fun line => (declaration? line).isSome)
    (l := lines)
  rw [← map_fst_layoutParts enumNames lines] at parts
  constructor
  · intro packed
    exact append_inj (packed.trans parts.symm) sameLength
  · rintro ⟨first, behind⟩
    rw [packWith, first, behind, parts]

theorem packedBehind_cons (other : declaration? line = none) :
    PackedBehind enumNames (line :: rest) ↔ packWith enumNames rest = rest := by
  rw [PackedBehind, layoutParts_other other,
    dropWhile_cons_of_neg (by simp [other]), cons_inj_right]

theorem packedBehind_cons_of_declaration (declares : declaration? line = some found) :
    PackedBehind enumNames (line :: rest) ↔ PackedBehind enumNames rest := by
  rw [PackedBehind, PackedBehind, layoutParts_entry declares,
    dropWhile_cons_of_pos (by simp [declares])]

/-- The first run of declarations is the same, and what is behind it is packed if it was. -/
def KeepsPacked (enumNames lines others : List String) : Prop :=
  (layoutParts enumNames others).1 = (layoutParts enumNames lines).1 ∧
    (PackedBehind enumNames lines → PackedBehind enumNames others)

theorem KeepsPacked.packWith_eq (keeps : KeepsPacked enumNames lines others)
    (packed : packWith enumNames lines = lines) : packWith enumNames others = others := by
  obtain ⟨sameRun, behind⟩ := keeps
  obtain ⟨first, packedBehind⟩ := packWith_eq_self_iff.mp packed
  exact packWith_eq_self_iff.mpr ⟨by rw [sameRun, first], behind packedBehind⟩

/-- Lines of the library that are put into a packed listing leave it packed. -/
theorem Inserts.keepsPacked (inserts : Inserts lines others) (enumNames : List String) :
    KeepsPacked enumNames lines others := by
  have plain : ∀ {new : List String}, new ⊆ libraryTexts →
      ∀ line ∈ new, declaration? line = none :=
    fun subset line mem => (isStatement_of_library line (subset mem)).noDeclaration
  induction inserts with
  | nil => exact ⟨rfl, id⟩
  | @keep line rest others inserts ih =>
    unfold KeepsPacked
    cases declares : declaration? line with
    | some =>
      rw [layoutParts_entry declares, layoutParts_entry declares,
        ih.1, packedBehind_cons_of_declaration declares,
        packedBehind_cons_of_declaration declares]
      exact ⟨rfl, ih.2⟩
    | none =>
      rw [layoutParts_other declares, layoutParts_other declares,
        packedBehind_cons declares, packedBehind_cons declares]
      exact ⟨rfl, ih.packWith_eq⟩
  | @around line rest others before after other ahead behind inserts ih =>
    refine ⟨?_, fun packedBehind => ?_⟩
    · cases before with
      | nil =>
        rw [nil_append, layoutParts_other other, layoutParts_other other]
      | cons new =>
        rw [cons_append, layoutParts_other other, layoutParts_other (plain ahead new mem_cons_self)]
    · have packed : packWith enumNames (before ++ line :: (after ++ others)) =
          before ++ line :: (after ++ others) := by
        rw [packWith_append (plain ahead), packWith_cons other, packWith_append (plain behind),
          ih.packWith_eq ((packedBehind_cons other).mp packedBehind)]
      exact (packWith_eq_self_iff.mp packed).2

/-! ### The library in a listing -/

theorem declaration?_eq_none_of_head
    (isFirst : line.toList.head? = some first) (solid : isBlankChar first = false) :
    declaration? line = none := by
  unfold declaration?
  simp only [isFirst, Option.any_some, solid]
  rfl

theorem head?_of_isContractHeader (isHeader : isContractHeader line) :
    ∃ first, line.toList.head? = some first ∧ isBlankChar first = false ∧
      isSpace first = false := by
  unfold isContractHeader at isHeader
  cases isAbstract : after? "abstract " line.toList with
  | some =>
    rw [after?_eq_some.mp isAbstract]
    exact ⟨'a', rfl, rfl, rfl⟩
  | none =>
    simp only [isAbstract] at isHeader
    cases isContract : after? "contract " line.toList with
    | none => simp [isContract] at isHeader
    | some =>
      rw [after?_eq_some.mp isContract]
      exact ⟨'c', rfl, rfl, rfl⟩

theorem libraryLines_eq (isHeader : isContractHeader header)
    (next : String) : libraryLines header next =
      if trimmedLine next = libraryUse then []
      else ("    " ++ libraryUse) :: if trimmedLine next = "\x7d" then [] else [""] := by
  obtain ⟨_, isFirst, -, solid⟩ := head?_of_isContractHeader isHeader
  obtain ⟨_, shape⟩ := head?_eq_some_iff.mp isFirst
  have noIndent : header.toList.takeWhile isSpace = [] := by
    rw [shape, takeWhile_cons_of_neg (by simp [solid])]
  unfold libraryLines
  simp only [noIndent, beq_iff_eq]
  split
  · rfl
  · split <;> rfl

theorem libraryLines_subset (isHeader : isContractHeader header)
    (next : String) : libraryLines header next ⊆ libraryTexts := by
  rw [libraryLines_eq isHeader]
  split
  · exact nil_subset _
  · split <;> decide

/-- Attaching the library puts its lines behind contract headers. -/
theorem inserts_attachLibrary (unsigned lines : List String) :
    Inserts (lines.map (checkLine unsigned))
      (attachLibrary (lines.map fun line => (line, checkLine unsigned line))) := by
  induction lines with
  | nil => exact .nil
  | cons line _ ih =>
    rw [map_cons, map_cons, attachLibrary]
    split
    · rename_i attached
      have isHeader : isContractHeader (checkLine unsigned line) := by
        rw [isContractHeader_checkLine]
        exact (Bool.and_eq_true_iff.mp attached).1
      obtain ⟨_, isFirst, solid, -⟩ := head?_of_isContractHeader isHeader
      exact Inserts.behind (declaration?_eq_none_of_head isFirst solid)
        (libraryLines_subset isHeader _) ih
    · exact .keep _ ih

/-- Importing the library puts its lines behind a pragma. -/
theorem inserts_importLibrary
    (apart : ∀ line ∈ lines, (pragmaConstraint? line).isSome → declaration? line = none)
    (found : importLibrary lines = some complete) : Inserts lines complete := by
  have isBlank : "" ∈ libraryTexts := by decide
  have isImport : libraryImport ∈ libraryTexts := by decide
  induction lines generalizing complete with
  | nil => contradiction
  | cons line rest ih =>
    obtain ⟨ofLine, ofRest⟩ := forall_mem_cons.mp apart
    unfold importLibrary at found
    split at found
    · rename_i isPragma
      have behindPragma : Inserts (line :: rest) (line :: (["", libraryImport] ++ rest)) :=
        .behind (ofLine isPragma) (by simp [isBlank, isImport]) (.refl rest)
      split at found
      · rename_i first second others
        split at found
        · rename_i isOther
          cases found
          obtain ⟨_, shape⟩ := isPrefixOf_iff_prefix.mp isOther
          have isFirst : second.toList.head? = some 'i' := by
            rw [← shape]
            rfl
          have ahead : Inserts (second :: others) ([libraryImport] ++ second :: ([] ++ others)) :=
            .around (declaration?_eq_none_of_head isFirst rfl) (by simp [isImport])
              (nil_subset _) (.refl others)
          exact .keep line (.keep first ahead)
        · cases found
          exact behindPragma
      · cases found
        exact behindPragma
    · obtain ⟨_, isLater, rfl⟩ := Option.map_eq_some_iff.mp found
      exact .keep line (ih ofRest isLater)

theorem importLibrary_isSome (mem : line ∈ lines)
    (isPragma : (pragmaConstraint? line).isSome) : (importLibrary lines).isSome := by
  induction lines with
  | nil => contradiction
  | cons _ _ ih =>
    unfold importLibrary
    split
    · split
      · split <;> rfl
      · rfl
    · obtain rfl | later := mem_cons.mp mem
      · contradiction
      · rw [Option.isSome_map, ih later]

theorem changesContract_eq (lines : List String) :
    changesContract (lines.map fun line => (line, checkLine unsigned line)) =
      (behindHeader lines).any fun line => line != checkLine unsigned line := by
  induction lines with
  | nil => rfl
  | cons _ _ ih =>
    rw [map_cons, changesContract, behindHeader_cons]
    split
    · rw [any_map]
      rfl
    · exact ih

def PragmasApart (lines : List String) : Prop :=
  ∀ line ∈ lines, (pragmaConstraint? line).isSome = true → declaration? line = none

/-- Whether checking changes a line behind the first contract header. -/
def changesBehind (unsigned lines : List String) : Bool :=
  (behindHeader lines).any fun line => line != checkLine unsigned line

def needsChecks (lines : List String) : Bool :=
  !checksArithmetic lines && changesBehind (variablesWith holdsUnsigned lines) lines

/-- A listing with all lines checked and lines of the library put in. -/
def ChecksTo (unsigned lines others : List String) : Prop :=
  ∃ attached, Inserts (lines.map (checkLine unsigned)) attached ∧ Inserts attached others

theorem checkArithmetic_unneeded (unneeded : needsChecks lines = false) :
    (checkArithmetic lines).1 = lines := by
  unfold needsChecks changesBehind at unneeded
  rw [← changesContract_eq] at unneeded
  unfold checkArithmetic
  split
  · rfl
  · rename_i unchecked
    simp only [Bool.eq_false_iff.mpr unchecked, Bool.not_false, Bool.true_and] at unneeded
    simp only [unneeded, Bool.not_false, if_true]

/-- A listing without checked arithmetic has a pragma with a version. -/
theorem exists_pragma (unchecked : checksArithmetic lines = false) :
    ∃ line ∈ lines, (pragmaConstraint? line).isSome := by
  cases digits : versionDigits? lines with
  | none => simp [checksArithmetic, minimumVersion?, digits] at unchecked
  | some =>
    obtain ⟨line, mem, found⟩ := exists_of_findSome?_eq_some digits
    obtain ⟨constraint, isPragma, -⟩ := Option.bind_eq_some_iff.mp found
    exact ⟨line, mem, Option.isSome_iff_exists.mpr ⟨constraint, isPragma⟩⟩

theorem PragmasApart.map_checkLine (apart : PragmasApart lines) :
    PragmasApart (lines.map (checkLine unsigned)) := by
  intro _ mem isPragma
  obtain ⟨original, inLines, rfl⟩ := mem_map.mp mem
  obtain same | ⟨-, assignment⟩ := checkLine_cases original
  · rw [same] at isPragma ⊢
    exact apart original inLines isPragma
  · rw [assignment.noPragma] at isPragma
    contradiction

theorem PragmasApart.inserts (apart : PragmasApart lines) (inserts : Inserts lines others) :
    PragmasApart others := by
  intro line mem isPragma
  obtain library | inLines := inserts.isExtended.mem _ mem
  · exact (isStatement_of_library line library).noDeclaration
  · exact apart line inLines isPragma

theorem checkArithmetic_of_needsChecks (apart : PragmasApart lines) (needed : needsChecks lines) :
    ChecksTo (variablesWith holdsUnsigned lines) lines (checkArithmetic lines).1 := by
  obtain ⟨unchecked, changes⟩ := Bool.and_eq_true_iff.mp needed
  rw [Bool.not_eq_true'] at unchecked
  rw [changesBehind, ← changesContract_eq] at changes
  have attached := inserts_attachLibrary (variablesWith holdsUnsigned lines) lines
  refine ⟨_, attached, ?_⟩
  unfold checkArithmetic
  simp only [unchecked, changes, Bool.false_eq_true, if_false, Bool.not_true]
  split
  · exact .refl _
  · obtain ⟨_, mem, isPragma⟩ := exists_pragma unchecked
    rw [← pragmaConstraint?_checkLine] at isPragma
    have inAttached := attached.sublist.subset (mem_map_of_mem mem)
    obtain ⟨_, isComplete⟩ :=
      Option.isSome_iff_exists.mp (importLibrary_isSome inAttached isPragma)
    rw [isComplete]
    exact inserts_importLibrary (apart.map_checkLine.inserts attached) isComplete

section

variable {unsigned lines others : List String} (checks : ChecksTo unsigned lines others)
include checks

theorem ChecksTo.filterMap (unread : ∀ line ∈ libraryTexts, read? line = none)
    (alike : ∀ line ∈ lines, read? (checkLine unsigned line) = read? line) :
    others.filterMap read? = lines.filterMap read? := by
  obtain ⟨_, first, second⟩ := checks
  rw [second.filterMap unread, first.filterMap unread, filterMap_map]
  exact filterMap_congr alike

/-- A test that fails on the lines of the library is made on the checked lines. -/
theorem ChecksTo.any_behindHeader (fails : ∀ line ∈ libraryTexts, test line = false) :
    (behindHeader others).any test =
      (behindHeader lines).any fun line => test (checkLine unsigned line) := by
  obtain ⟨_, first, second⟩ := checks
  rw [second.any_behindHeader fails, first.any_behindHeader fails, behindHeader_map_checkLine,
    any_map]
  rfl

theorem ChecksTo.pragmasApart (apart : PragmasApart lines) : PragmasApart others := by
  obtain ⟨_, first, second⟩ := checks
  exact (apart.map_checkLine.inserts first).inserts second

theorem ChecksTo.opens (opens : ∀ body ∈ bodies lines, ∀ first ∈ body.head?, closes first = false) :
    ∀ body ∈ bodies others, ∀ first ∈ body.head?, closes first = false := by
  obtain ⟨_, first, second⟩ := checks
  refine second.opens (first.opens fun body isBody line isFirst => ?_)
  rw [bodies_map_checkLine] at isBody
  obtain ⟨original, isOriginal, rfl⟩ := mem_map.mp isBody
  rw [head?_map] at isFirst
  obtain ⟨kept, isKept, rfl⟩ := Option.map_eq_some_iff.mp isFirst
  rw [read_checkLine fun _ => IsAssignment.opens]
  exact opens original isOriginal kept isKept

section

variable (keeps : KeepsDeclarations unsigned lines)
include keeps

theorem ChecksTo.plainBodies (plain : PlainBodies lines) : PlainBodies others := by
  obtain ⟨_, first, second⟩ := checks
  refine second.plainBodies (first.plainBodies fun body isBody line mem => ?_)
  rw [bodies_map_checkLine] at isBody
  obtain ⟨original, isOriginal, rfl⟩ := mem_map.mp isBody
  obtain ⟨kept, isKept, rfl⟩ := mem_map.mp mem
  exact keeps.isStatement (mem_of_mem_bodies isOriginal isKept)
    (plain original isOriginal kept isKept)

/-- A packed listing is still packed. -/
theorem ChecksTo.packWith_eq (packed : packWith enumNames lines = lines) :
    packWith enumNames others = others := by
  obtain ⟨_, first, second⟩ := checks
  refine (second.keepsPacked enumNames).packWith_eq ((first.keepsPacked enumNames).packWith_eq ?_)
  rw [keeps.packWith_of (keeps.layoutParts_map _), packed]

end

end

end ContractForge.Listing
