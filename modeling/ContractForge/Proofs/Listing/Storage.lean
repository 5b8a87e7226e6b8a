import ContractForge.Proofs.Listing.Library
import ContractForge.Proofs.Listing.Recovery
import ContractForge.Proofs.Lowering.MethodScope
import ContractForge.Lowering.Program

/-!
# The declarations of a file

The state variables of a written file are found again, with their names, their types
and what is constant. What else is found are statements of one line that happen to
read like declarations, which a text in quotes can make them. If there are none of
these, packing the state variables leaves every function body as it is.
-/

namespace ContractForge.Listing

open Text List

variable {rest first second tail chars word front others : List Char}
  {lines imports enumNames : List String} {type : StaticType}
  {line name visibility text version : String} {c last : Char} {level : Int} {contract : Contract}
  {place : Nat}

/-! ### Types without phrases of declarations -/

/-- The name of a type holds no blank, and it does not start like a line that declares no
variable. -/
def isPlainName (name : String) : Bool :=
  name.toList.head?.any (fun c => !isSpace c && !(['e', 'f', 'r'].contains c)) &&
    !name.toList.contains ' '

def isPlainType : StaticType → Bool
  | .elementary name | .enumeration name => isPlainName name
  | .array element => isPlainType element
  | .mapping key value => isPlainType key && isPlainType value

theorem isPlainName_iff :
    isPlainName name ↔ (∃ first others, name.toList = first :: others ∧
      isSpace first = false ∧ first ∉ ['e', 'f', 'r']) ∧ ' ' ∉ name.toList := by
  unfold isPlainName
  cases name.toList with
  | nil | cons => simp

theorem toList_render_array :
    (StaticType.array element).render.toList = element.render.toList ++ ['[', ']'] := by
  simp [StaticType.render]

theorem toList_render_mapping :
    (StaticType.mapping key value).render.toList = "mapping(".toList ++
      (key.render.toList ++ (" =>".toList ++ ' ' :: (value.render.toList ++ [')']))) := by
  simp [StaticType.render]

theorem exists_cons_render (plain : isPlainType type) :
    ∃ first others, type.render.toList = first :: others ∧ isSpace first = false ∧
      first ∉ ['e', 'f', 'r'] := by
  induction type with
  | elementary | enumeration => exact (isPlainName_iff.mp plain).1
  | array _ ih =>
    obtain ⟨first, others, shape, visible, other⟩ := ih plain
    exact ⟨first, others ++ ['[', ']'], by rw [toList_render_array, shape]; rfl, visible, other⟩
  | mapping key value =>
    exact ⟨'m', _, toList_render_mapping, rfl, by decide⟩

theorem startsOtherwise_render (plain : isPlainType type) :
    startsOtherwise type.render = false := by
  obtain ⟨first, others, shape, -, other⟩ := exists_cons_render plain
  have heads (c : Char) (rest : List Char) (isHead : c ∈ ['e', 'f', 'r']) :
      (c :: rest).isPrefixOf (first :: others) = false := by
    rw [isPrefixOf_cons_cons, Bool.and_eq_false_iff]
    exact .inl (beq_eq_false_iff_ne.mpr fun same => other (same ▸ isHead))
  simp only [startsOtherwise, otherStarts, startsWith, shape, any_cons, any_nil,
    Bool.or_false, Bool.or_eq_false_iff]
  exact ⟨heads 'f' _ (by decide), heads 'e' _ (by decide), heads 'r' _ (by decide)⟩

/-- A declaration ends at no place of a text, whatever comes behind it. -/
def EndsNowhere (chars tail : List Char) : Prop :=
  ∀ before after, chars = before ++ after → after ≠ [] → declarationEnd? (after ++ tail) = none

theorem EndsNowhere.append
    (inFirst : EndsNowhere first (second ++ tail)) (inSecond : EndsNowhere second tail) :
    EndsNowhere (first ++ second) tail := by
  intro before after shape someChar
  obtain ⟨middle, rfl, rfl⟩ | ⟨middle, rfl, rfl⟩ := append_eq_append_iff.mp shape
  · exact inSecond middle after rfl someChar
  · cases middle with
    | nil => exact inSecond [] second rfl someChar
    | cons c others =>
      rw [append_assoc]
      exact inFirst before (c :: others) rfl (cons_ne_nil _ _)

theorem declarationEnd?_of_ne (other : c ≠ ' ') (rest : List Char) :
    declarationEnd? (c :: rest) = none := by
  simp [declarationEnd?, other]

theorem endsNowhere_of_not_mem (solid : ' ' ∉ chars) (tail : List Char) :
    EndsNowhere chars tail := by
  rintro before after rfl someChar
  cases after with
  | nil => contradiction
  | cons =>
    apply declarationEnd?_of_ne
    rintro rfl
    exact solid (mem_append_right _ mem_cons_self)

/-- A text has a character that is no letter before its first blank. -/
def BreaksWord (chars : List Char) : Prop :=
  ∃ c ∈ chars.takeWhile (· != ' '), c.isAlpha = false

theorem BreaksWord.append (plain : isPlainName name)
    (breaks : BreaksWord rest) : BreaksWord (name.toList ++ rest) := by
  obtain ⟨c, mem, other⟩ := breaks
  have solid : ∀ c ∈ name.toList, (c != ' ') := by
    intro _ isChar
    rw [bne_iff_ne]
    rintro rfl
    exact (isPlainName_iff.mp plain).2 isChar
  refine ⟨c, ?_, other⟩
  rw [takeWhile_append_of_pos solid]
  exact mem_append_right _ mem

theorem BreaksWord.render (plain : isPlainType type) (breaks : BreaksWord rest) :
    BreaksWord (type.render.toList ++ rest) := by
  induction type generalizing rest with
  | elementary | enumeration => exact breaks.append plain
  | array _ ih =>
    rw [toList_render_array, append_assoc]
    exact ih plain ⟨'[', by simp, by decide⟩
  | mapping =>
    refine ⟨'(', ?_, by decide⟩
    rw [toList_render_mapping]
    simp

theorem not_breaksWord_visibility (isWord : visibility ∈ visibilities)
    (rest : List Char) : ¬ BreaksWord (visibility.toList ++ ' ' :: rest) := by
  rintro ⟨_, mem, _⟩
  fin_cases isWord
  all_goals
    simp at mem
    rcases mem with rfl | rfl | rfl | rfl | rfl | rfl | rfl | rfl <;> contradiction

/-- Behind the arrow of a table, its type goes on with no visibility. -/
theorem declarationEnd?_render (plain : isPlainType type) (tail : List Char) :
    declarationEnd? (' ' :: (type.render.toList ++ ')' :: tail)) = none := by
  cases found : declarationEnd? (' ' :: (type.render.toList ++ ')' :: tail)) with
  | none => rfl
  | some parts =>
    exfalso
    obtain ⟨-, visibility, isWord, _, -, shape⟩ := declarationEnd?_eq_some.mp found
    obtain ⟨rest, split⟩ : ∃ rest,
        type.render.toList ++ ')' :: tail = visibility.toList ++ ' ' :: rest := by
      cases constant : parts.2 <;> exact ⟨_, by simpa [declarationEnding, constant] using shape⟩
    have closes : BreaksWord (')' :: tail) := ⟨')', by simp, by decide⟩
    exact not_breaksWord_visibility isWord rest (split ▸ closes.render plain)

/-- No declaration ends inside of a plain type. -/
theorem endsNowhere_render (plain : isPlainType type) (tail : List Char) :
    EndsNowhere type.render.toList tail := by
  induction type generalizing tail with
  | elementary | enumeration => exact endsNowhere_of_not_mem (isPlainName_iff.mp plain).2 tail
  | array _ ih =>
    rw [toList_render_array]
    exact (ih plain _).append (endsNowhere_of_not_mem (by decide) tail)
  | mapping _ value ofKey ofValue =>
    obtain ⟨plainKey, plainValue⟩ := Bool.and_eq_true_iff.mp plain
    have opening (rest : List Char) : EndsNowhere "mapping(".toList rest :=
      endsNowhere_of_not_mem (by decide) rest
    have arrow (rest : List Char) : EndsNowhere " =>".toList rest := by
      intro before after shape someChar
      cases before with
      | nil => rw [← nil_append after, ← shape]; rfl
      | cons _ others =>
        obtain ⟨-, shape⟩ := List.cons.inj shape
        exact endsNowhere_of_not_mem (by decide : ' ' ∉ ['=', '>']) rest others after shape someChar
    have blank : EndsNowhere [' '] (value.render.toList ++ [')'] ++ tail) := by
      intro _ _ shape _
      obtain ⟨rfl, rfl⟩ | ⟨-, rfl⟩ := append_eq_singleton_iff.mp shape.symm
      · simpa using declarationEnd?_render plainValue tail
      · contradiction
    have closing : EndsNowhere [')'] tail := endsNowhere_of_not_mem (by decide) tail
    have inner := (ofValue plainValue _).append closing
    rw [toList_render_mapping]
    exact (opening _).append ((ofKey plainKey _).append ((arrow _).append (blank.append inner)))

/-! ### State variables -/

/-- A state variable is written like one: its name and its type are plain, and so is what stands
around them. -/
@[mk_iff]
structure IsPlainVariable (declared : StateVariable) : Prop where
  name : isName declared.name = true
  type : isPlainType declared.type = true
  visibility : declared.visibility ∈ visibilities
  initializer : declared.initializer ≠ some ""

/-- What is to be read off the line of a state variable. -/
def declarationOf (declared : StateVariable) : Declaration :=
  ⟨declared.name, declared.type.render, declared.isConstant⟩

/-- How the line of a state variable goes on behind the type. -/
def endingOf (declared : StateVariable) : String :=
  declarationEnding declared.visibility declared.isConstant declared.name declared.initializer

theorem render_eq_append : declared.render = declared.type.render ++ endingOf declared := by
  unfold StateVariable.render endingOf declarationEnding valueEnding
  cases declared.initializer <;> simp [String.append_assoc]

/-- Where a text is cut at a character, it is cut at the first one or behind it. -/
theorem eq_or_prefix_of_append_eq (solid : c ∉ word)
    (same : word ++ c :: rest = front ++ c :: others) :
    (front = word ∧ others = rest) ∨ word ++ [c] <+: front := by
  obtain ⟨between, rfl, isRest⟩ | ⟨between, rfl, isOthers⟩ := append_eq_append_iff.mp same
  · cases between with
    | nil => exact .inl ⟨append_nil _, (List.cons.inj isRest).2.symm⟩
    | cons _ more =>
      obtain ⟨rfl, -⟩ := List.cons.inj isRest
      exact .inr ⟨more, by simp⟩
  · cases between with
    | nil => exact .inl ⟨(append_nil _).symm, (List.cons.inj isOthers).2⟩
    | cons =>
      obtain ⟨rfl, -⟩ := List.cons.inj isOthers
      exact absurd (by simp) solid

section

variable {level : Int} (inside : 1 ≤ level)
include inside

theorem indent_ne_nil : replicate (4 * level.toNat) ' ' ≠ [] := by
  rw [Ne, replicate_eq_nil_iff]
  omega

/-- A line inside a contract is recognised exactly if its text reads like a declaration. -/
theorem declaration?_indented_isSome_iff (text : String) :
    (declaration? (indented level text)).isSome ↔ LooksDeclared text :=
  declaration?_isSome_iff (indent_ne_nil inside) isBlankChar_indentation (indented_toList level)

theorem declaration?_indented_eq_none (text : String) :
    declaration? (indented level text) = none ↔ ¬ LooksDeclared text := by
  rw [← declaration?_indented_isSome_iff inside, Bool.not_eq_true, Option.isSome_eq_false_iff,
    Option.isNone_iff_eq_none]

/-- A state variable is found again, with its own name and type. -/
theorem declaration?_render (plain : IsPlainVariable declared) :
    declaration? (indented level declared.render) = some (declarationOf declared) := by
  obtain ⟨first, others, shape, visible, -⟩ := exists_cons_render plain.type
  have text : declared.render.toList = first :: (others ++ (endingOf declared).toList) := by
    rw [render_eq_append, String.toList_append, shape, cons_append]
  have behind : declared.render.toList.dropWhile isBlankChar = declared.render.toList := by
    rw [text, dropWhile_cons_of_neg (by simp [isBlankChar_eq_false visible])]
  have ends : declarationEnd? (endingOf declared).toList =
      some (declared.name, declared.isConstant) :=
    declarationEnd?_eq_some.mpr ⟨plain.name, declared.visibility, plain.visibility,
      declared.initializer, plain.initializer, rfl⟩
  have declares : declarationFrom? [first] (others ++ (endingOf declared).toList) =
      some (declarationOf declared) := by
    refine declarationFrom?_eq_some.mpr ⟨others, _, rfl, ends, ?_, ?_⟩
    · have isType : declared.type.render = String.ofList (first :: others) := by
        rw [← shape, String.ofList_toList]
      exact isType
    · intro before _ split shorter
      obtain ⟨middle, rfl, -⟩ | ⟨middle, rfl, rfl⟩ := append_eq_append_iff.mp split
      · rw [length_append] at shorter
        omega
      · refine endsNowhere_render plain.type _ (first :: before) middle ?_ ?_
        · rw [shape, cons_append]
        · rintro rfl
          simp at shorter
  rw [declaration?_of_indent (indent_ne_nil inside) isBlankChar_indentation
    (indented_toList level), behind, text]
  simp only [visible, declares, Option.filter_some, declarationOf,
    startsOtherwise_render plain.type]
  rfl

/-- An event is none of the variables, unless its name starts with a word for a visibility. -/
theorem declaration?_event {event : Event}
    (named : event.name.toList.head?.all (fun c => c != 'p' && c != 'i')) :
    declaration? (indented level event.render) = none := by
  rw [declaration?_indented_eq_none inside]
  rintro ⟨blanks, type, visibility, name, isConstant, value, areBlanks, isText, -, other, isWord, -⟩
  obtain ⟨signature, isEvent⟩ : ∃ signature : List Char,
      event.render.toList = "event ".toList ++ (event.name.toList ++ '(' :: signature) := by
    simp [Event.render]
  obtain ⟨rest, isEnding⟩ : ∃ rest : List Char,
      (declarationEnding visibility isConstant name value).toList =
        ' ' :: (visibility.toList ++ rest) := by
    simp [declarationEnding]
  have noBlank : blanks = [] := by
    cases blanks with
    | nil => rfl
    | cons blank =>
      rw [isEvent] at isText
      have isFirst : 'e' = blank := (List.cons.inj isText).1
      have blankFirst := areBlanks blank mem_cons_self
      rw [← isFirst] at blankFirst
      contradiction
  rw [isEvent, noBlank, nil_append, String.toList_append, isEnding] at isText
  obtain ⟨-, same⟩ | isPrefix := eq_or_prefix_of_append_eq (by decide : ' ' ∉ "event".toList) isText
  · simp only [visibilities, mem_cons, not_mem_nil, or_false] at isWord
    cases isName : event.name.toList with
    | nil => rcases isWord with rfl | rfl | rfl <;> simp [isName] at same
    | cons =>
      rw [isName] at same named
      rcases isWord with rfl | rfl | rfl
      all_goals
        obtain ⟨rfl, -⟩ := List.cons.inj same
        contradiction
  · have starts : startsOtherwise type :=
      any_eq_true.mpr ⟨"event ", by decide, isPrefixOf_iff_prefix.mpr isPrefix⟩
    rw [other] at starts
    contradiction

end

/-! ### Statements -/

def NoneDeclared (lines : List String) : Prop :=
  ∀ line ∈ lines, declaration? line = none

/-- None of the texts reads like a declaration. -/
def NoneLooksDeclared (texts : List String) : Prop :=
  ∀ text ∈ texts, ¬ LooksDeclared text

@[simp]
theorem noneDeclared_append {first second : List String} :
    NoneDeclared (first ++ second) ↔ NoneDeclared first ∧ NoneDeclared second :=
  forall_mem_append

@[simp]
theorem noneLooksDeclared_append {first second : List String} :
    NoneLooksDeclared (first ++ second) ↔ NoneLooksDeclared first ∧ NoneLooksDeclared second :=
  forall_mem_append

theorem noneDeclared_of_last (ends : text.toList.getLast? = some last) (other : last ≠ ';') :
    NoneDeclared [indented level text] := by
  intro _ mem
  rw [mem_singleton.mp mem]
  apply declaration?_eq_none_of_last _ other
  rw [indented_toList, getLast?_append, ends, Option.some_or]

/-- The lines of statements are recognised exactly if a statement of one line among them reads like
a declaration. -/
theorem Lays.noneDeclared_iff (lays : Lays level texts shown) (inside : 1 ≤ level) :
    NoneDeclared shown ↔ NoneLooksDeclared texts := by
  induction lays with
  | nil => simp [NoneDeclared, NoneLooksDeclared]
  | leaf _ _ ih =>
    rw [NoneDeclared, NoneLooksDeclared, forall_mem_cons, forall_mem_cons,
      declaration?_indented_eq_none inside]
    exact and_congr_right' (ih inside)
  | brace _ ends other _ ih =>
    rw [← singleton_append, noneDeclared_append, and_iff_right (noneDeclared_of_last ends other)]
    exact ih inside
  | block _ _ ofInner ih =>
    rw [noneDeclared_append, noneLooksDeclared_append, ofInner (by omega), ih inside]

/-! ### Files -/

/-- The lines of a listing that are recognised, with what is read off them. -/
def declaredLines (lines : List String) : List (String × Declaration) :=
  lines.filterMap fun line => (declaration? line).map fun found => (line, found)

theorem declaredLines_append (first second : List String) :
    declaredLines (first ++ second) = declaredLines first ++ declaredLines second :=
  filterMap_append

theorem declaredLines_eq_nil : declaredLines lines = [] ↔ NoneDeclared lines := by
  simp [declaredLines, NoneDeclared]

theorem declaredLines_intercalate (sections : List (List String)) :
    declaredLines ([""].intercalate sections) = sections.flatMap declaredLines := by
  induction sections with
  | nil => rfl
  | cons _ rest ih =>
    cases rest with
    | nil => simp [List.intercalate]
    | cons =>
      have blank : declaredLines [""] = [] := rfl
      rw [intercalate_cons_cons, declaredLines_append, declaredLines_append, blank, append_nil, ih]
      rfl

/-- A contract whose state variables and events are written like such. -/
@[mk_iff]
structure DeclaresPlainly (contract : Contract) : Prop where
  stored : ∀ declared ∈ contract.stateVariables, IsPlainVariable declared
  events : ∀ event ∈ contract.events,
    event.name.toList.head?.all (fun c => c != 'p' && c != 'i') = true

/-- The lines of the state variables of a contract, and what is to be read off them. -/
def variableLines (contract : Contract) : List (String × Declaration) :=
  contract.stateVariables.map fun declared => (indented 1 declared.render, declarationOf declared)

def linersOf (contract : Contract) : List String :=
  (writtenFunctions contract).flatMap fun function => allLiners function.body

theorem declaredLines_declarationSection :
    (Contract.declarationSection 1 declarations).flatMap declaredLines =
      declaredLines (declarations.map (indented 1)) := by
  cases declarations with
  | nil => rfl
  | cons => simp [Contract.declarationSection]

theorem declaredLines_variables (plain : DeclaresPlainly contract) :
    declaredLines ((contract.stateVariables.map StateVariable.render).map (indented 1)) =
      variableLines contract := by
  have found : ∀ declared ∈ contract.stateVariables,
      declaration? (indented 1 declared.render) = some (declarationOf declared) :=
    fun declared mem => declaration?_render (by decide) (plain.stored declared mem)
  unfold variableLines
  generalize contract.stateVariables = declarations at found ⊢
  induction declarations with
  | nil => rfl
  | cons _ _ ih =>
    obtain ⟨here, later⟩ := forall_mem_cons.mp found
    simp only [declaredLines, map_cons, filterMap_cons, here, Option.map_some]
    congr 1
    exact ih later

theorem declaredLines_function (written : WrittenFunction) :
    declaredLines written.lines = declaredLines (Statement.renderAll 2 written.1.body) := by
  have opening : declaredLines [indented 1 (written.1.header written.2 ++ " \x7b")] = [] :=
    declaredLines_eq_nil.mpr (noneDeclared_of_last (by simp) (by decide : '\x7b' ≠ ';'))
  have closing : declaredLines [indented 1 "\x7d"] = [] :=
    declaredLines_eq_nil.mpr (noneDeclared_of_last rfl (by decide))
  rw [WrittenFunction.lines_eq, declaredLines_append, declaredLines_append, opening, closing,
    nil_append, append_nil]

/-- What is recognised in a contract: its state variables, and what reads like such in the bodies
of its functions. -/
theorem declaredLines_contract (plain : DeclaresPlainly contract) :
    declaredLines contract.render = variableLines contract ++
      (writtenFunctions contract).flatMap fun function =>
        declaredLines (Statement.renderAll 2 function.body) := by
  have opening : declaredLines [indented 0 (contract.header ++ " \x7b")] = [] :=
    declaredLines_eq_nil.mpr (noneDeclared_of_last (by simp) (by decide : '\x7b' ≠ ';'))
  have closing : declaredLines [indented 0 "\x7d"] = [] :=
    declaredLines_eq_nil.mpr (noneDeclared_of_last rfl (by decide))
  have enumerations :
      declaredLines ((contract.enumerations.map Enumeration.render).map (indented 1)) = [] := by
    rw [declaredLines_eq_nil]
    intro _ mem
    rw [map_map] at mem
    obtain ⟨-, -, rfl⟩ := mem_map.mp mem
    exact noneDeclared_of_last (by simp [Enumeration.render, getLast?_cons])
      (by decide : '\x7d' ≠ ';') _ (mem_singleton_self _)
  have events : declaredLines ((contract.events.map Event.render).map (indented 1)) = [] := by
    rw [declaredLines_eq_nil]
    intro _ mem
    rw [map_map] at mem
    obtain ⟨event, isEvent, rfl⟩ := mem_map.mp mem
    exact declaration?_event (by decide) (plain.events event isEvent)
  rw [Contract.render, cons_append, ← singleton_append, declaredLines_append,
    declaredLines_append, opening, closing, declaredLines_intercalate, sections_eq,
    declarationSections]
  simp only [flatMap_append, declaredLines_declarationSection, enumerations, events,
    declaredLines_variables plain, nil_append, append_nil]
  rw [← map_functionsOf, flatMap_map, flatMap_map]
  simp only [declaredLines_function]

theorem declaredLines_renderFile (written : WellWrittenFile version imports contracts)
    (imported : ∀ line ∈ imports, startsWith line "import ") :
    declaredLines (Text.lines (renderFile version imports contracts)) =
      contracts.flatMap fun contract => declaredLines contract.render := by
  have blank : declaredLines [""] = [] := rfl
  have header : declaredLines (headerLines version) = [] := by
    rw [declaredLines_eq_nil, headerLines, NoneDeclared, forall_mem_cons, forall_mem_singleton]
    exact ⟨rfl, declaration?_eq_none_of_head (by simp) (by decide : isBlankChar 'p' = false)⟩
  have none : declaredLines imports = [] := by
    rw [declaredLines_eq_nil]
    intro line mem
    obtain ⟨_, shape⟩ := isPrefixOf_iff_prefix.mp (imported line mem)
    exact declaration?_eq_none_of_head (by rw [← shape]; rfl) (by decide : isBlankChar 'i' = false)
  have block : (if imports.isEmpty then [] else [imports]).flatMap declaredLines = [] := by
    split
    · rfl
    · simp [none]
  rw [lines_renderFile written, declaredLines_append, blank, append_nil,
    declaredLines_intercalate, fileBlocks, flatMap_append, flatMap_cons, header, block,
    flatMap_map]
  rfl

theorem flatMap_append_eq_flatMap_iff {α β : Type} {first second : α → List β} {values : List α} :
    values.flatMap (fun value => first value ++ second value) = values.flatMap first ↔
      ∀ value ∈ values, second value = [] := by
  constructor
  · intro same
    have count := (flatMap_append_perm values first second).length_eq
    rw [same, length_append] at count
    exact flatMap_eq_nil_iff.mp (length_eq_zero_iff.mp (by omega))
  · intro none
    apply flatMap_congr
    intro value mem
    rw [none value mem, append_nil]

/-! ### Packing -/

theorem length_arrange (enumNames : List String) :
    (arrange enumNames block).length = block.length := by
  rw [arrange_eq_map, length_map, (arranged_perm enumNames).length_eq]

theorem getElem?_packWith (enumNames lines : List String) :
    (packWith enumNames lines)[(layoutParts enumNames lines).1.length + later]? =
      (layoutParts enumNames lines).2[later]? := by
  rw [packWith, getElem?_append_right, length_arrange, Nat.add_sub_cancel_left]
  rw [length_arrange]
  exact Nat.le_add_right _ _

/-- Behind the run of declarations at the beginning, lines that are none stay where they are. -/
theorem getElem?_layoutParts (enumNames : List String)
    (found : lines[place]? = some line) (other : declaration? line = none) :
    ∃ later, place = (layoutParts enumNames lines).1.length + later ∧
      (layoutParts enumNames lines).2[later]? = some line := by
  induction lines generalizing place with
  | nil => contradiction
  | cons first _ ih =>
    cases declares : declaration? first with
    | some =>
      cases place with
      | zero =>
        obtain rfl : first = line := by simpa using found
        rw [declares] at other
        contradiction
      | succ =>
        obtain ⟨later, rfl, same⟩ := ih (by simpa using found)
        rw [layoutParts_entry declares]
        exact ⟨later, by simp only [length_cons]; omega, same⟩
    | none =>
      rw [layoutParts_other declares]
      cases place with
      | zero => exact ⟨0, rfl, by simpa using found⟩
      | succ =>
        obtain ⟨_, rfl, same⟩ := ih (by simpa using found)
        refine ⟨_, (Nat.zero_add _).symm, ?_⟩
        rw [getElem?_cons_succ, getElem?_packWith, same]

/-- Packing leaves every line that is no declaration where it is. -/
theorem getElem?_packLines (found : lines[place]? = some line)
    (other : declaration? line = none) : (packLines lines)[place]? = some line := by
  obtain ⟨_, rfl, same⟩ := getElem?_layoutParts (lines.filterMap enumeration?) found other
  rw [packLines_eq, getElem?_packWith, same]

/-- A part of a listing without declarations is left as it is. -/
theorem bodyOf_packLines {span : FunctionSpan} (none : NoneDeclared (bodyOf lines span))
    (within : span.Within lines.length) : bodyOf (packLines lines) span = bodyOf lines span := by
  apply ext_getElem?
  intro index
  unfold bodyOf
  simp only [getElem?_drop, getElem?_take]
  split
  · rename_i before
    have inListing := Nat.lt_of_lt_of_le before within.2
    have found := getElem?_eq_getElem inListing
    rw [found]
    apply getElem?_packLines found
    apply none
    rw [mem_iff_getElem?]
    refine ⟨index, ?_⟩
    unfold bodyOf
    rw [getElem?_drop, getElem?_take, if_pos before, found]
  · rfl

/-- A run of declarations is arranged, and what follows it is packed on its own. -/
theorem packWith_run (declared : ∀ entry ∈ block, declaration? entry.1 = some entry.2)
    (other : declaration? line = none) (rest : List String) :
    packWith enumNames (block.map Prod.fst ++ line :: rest) =
      arrange enumNames block ++ line :: packWith enumNames rest := by
  rw [packWith, layoutParts_append declared, layoutParts_other other, append_nil]

/-! ### Files whose statements read like declarations -/

/-- In a written file, the lines that are recognised as declarations are those of its state
variables, each with its own name, type and mark of a constant, if and only if no statement of one
line reads like a declaration. If none does, packing leaves every function body as it is. -/
theorem declaredLines_eq_variableLines_iff {version : String} {imports : List String}
    {contracts : List Contract} (written : WellWrittenFile version imports contracts)
    (imported : ∀ line ∈ imports, startsWith line "import " = true)
    (plain : ∀ contract ∈ contracts, DeclaresPlainly contract) :
    let lines := Text.lines (renderFile version imports contracts)
    (declaredLines lines = contracts.flatMap variableLines ↔
        ∀ contract ∈ contracts, NoneLooksDeclared (linersOf contract)) ∧
      ((∀ contract ∈ contracts, NoneLooksDeclared (linersOf contract)) →
        ∀ span ∈ functionSpans lines, bodyOf (packLines lines) span = bodyOf lines span) := by
  have inFunctions (contract : Contract) :
      ((writtenFunctions contract).flatMap fun function =>
          declaredLines (Statement.renderAll 2 function.body)) = [] ↔
        NoneLooksDeclared (linersOf contract) := by
    simp only [flatMap_eq_nil_iff, declaredLines_eq_nil,
      (lays_renderAll 2 _).noneDeclared_iff (by decide)]
    simp only [NoneLooksDeclared, linersOf, mem_flatMap]
    exact ⟨fun none text ⟨function, isFunction, isText⟩ => none function isFunction text isText,
      fun none function isFunction text isText => none text ⟨function, isFunction, isText⟩⟩
  refine ⟨?_, ?_⟩
  · rw [declaredLines_renderFile written imported,
      flatMap_congr fun contract member => declaredLines_contract (plain contract member),
      flatMap_append_eq_flatMap_iff]
    exact forall₂_congr fun contract _ => inFunctions contract
  · intro none span member
    obtain ⟨function, inFile, finds⟩ := (lists_renderFile written).exists_finds member
    obtain ⟨contract, isContract, inContract⟩ := mem_flatMap.mp inFile
    have isWritten : function.1 ∈ writtenFunctions contract := by
      rw [← map_functionsOf]
      exact mem_map_of_mem inContract
    apply bodyOf_packLines _ (functionSpans_within member)
    rw [finds.body, (lays_renderAll 2 _).noneDeclared_iff (by decide)]
    intro text isText
    exact none contract isContract text (mem_flatMap.mpr ⟨function.1, isWritten, isText⟩)

/-! ### Contracts of a source -/

def contractsOf (source : String) : Option (List Contract) :=
  match parse source with
  | .ok program => ((lowerProgram program.children).result? {}).map Prod.fst
  | .error _ => none

instance (text : String) : Decidable (LooksDeclared text) :=
  decidable_of_iff _ (declaration?_indented_isSome_iff (by decide : (1 : Int) ≤ 1) text)

instance (texts : List String) : Decidable (NoneLooksDeclared texts) :=
  inferInstanceAs (Decidable (∀ text ∈ texts, ¬ LooksDeclared text))

instance (declared : StateVariable) : Decidable (IsPlainVariable declared) :=
  decidable_of_iff' _ (isPlainVariable_iff declared)

instance (contract : Contract) : Decidable (DeclaresPlainly contract) :=
  decidable_of_iff' _ (declaresPlainly_iff contract)

instance (version : String) (imports : List String) (contracts : List Contract) :
    Decidable (WellWrittenFile version imports contracts) :=
  decidable_of_iff' _ (wellWrittenFile_iff version imports contracts)

/-- A contract with a constant, a table and an event, whose messages speak of declarations. -/
def bankSource : String :=
  "class Bank\n" ++
  "  LIMIT = 10\n" ++
  "  def pay(to, amount)\n" ++
  "    raise \"no public account\" if amount > LIMIT\n" ++
  "    @balances[to] += amount\n" ++
  "    emit :paid, to\n" ++
  "  end\n" ++
  "end\n"

theorem bank_declaredLines :
    ∃ contracts ∈ contractsOf bankSource,
      WellWrittenFile "^0.8.30" [] contracts ∧
      (∀ contract ∈ contracts, DeclaresPlainly contract) ∧
      let lines := Text.lines (renderFile "^0.8.30" [] contracts)
      declaredLines lines = contracts.flatMap variableLines ∧
        ∀ span ∈ functionSpans lines, bodyOf (packLines lines) span = bodyOf lines span := by
  have checked : ∃ contracts, contracts ∈ contractsOf bankSource ∧
      WellWrittenFile "^0.8.30" [] contracts ∧
      (∀ contract ∈ contracts, DeclaresPlainly contract) ∧
      ∀ contract ∈ contracts, NoneLooksDeclared (linersOf contract) := by
    decide +kernel
  obtain ⟨contracts, isBuilt, written, plain, none⟩ := checked
  obtain ⟨recognised, packed⟩ := declaredLines_eq_variableLines_iff written (by simp) plain
  exact ⟨contracts, isBuilt, written, plain, recognised.mpr none, packed none⟩

/-- A method that assigns two texts one after the other, each of which holds the phrase of a
declaration. -/
def noteSource : String :=
  "class Note\n" ++
  "  def initialize\n" ++
  "    @message = \"a\"\n" ++
  "  end\n" ++
  "  def revise\n" ++
  "    @message = \"open, public name = Ann\"\n" ++
  "    @message = \"sealed, public constant name = Bob\"\n" ++
  "  end\n" ++
  "end\n"

/-- Its file up to the declaration, and from there up to the assignments. -/
def noteFront : List String × List String :=
  (headerLines "^0.8.30" ++ ["", "contract Note \x7b"],
    ["    constructor() \x7b", "    \x7d", "", "    function revise() public \x7b"])

def noteDeclaration : String × Declaration :=
  ("    string public message = \"a\";", ⟨"message", "string", false⟩)

/-- The assignments, and what they are read as. -/
def noteAssignments : List (String × Declaration) :=
  [("        message = \"open, public name = Ann\";", ⟨"name", "message = \"open,", false⟩),
    ("        message = \"sealed, public constant name = Bob\";",
      ⟨"name", "message = \"sealed,", true⟩)]

/-- Its file, with the assignments in some order. -/
def noteLines (assignments : List (String × Declaration)) : List String :=
  noteFront.1 ++ ([noteDeclaration].map Prod.fst ++ "" :: (noteFront.2 ++
    (assignments.map Prod.fst ++ "    \x7d" :: ["\x7d", ""])))

theorem packLines_note :
    packLines (noteLines noteAssignments) = noteLines noteAssignments.reverse := by
  have single : arrange [] [noteDeclaration] = [noteDeclaration].map Prod.fst := by
    simp [arrange, pack, fillSlots, byWidth, placeItem, noteDeclaration]
  have swapped : arrange [] noteAssignments = noteAssignments.reverse.map Prod.fst := by
    simp [arrange, pack, fillSlots, byWidth, placeItem, noteAssignments]
  have front : ∀ line ∈ noteFront.1 ++ noteFront.2, declaration? line = none := by decide +kernel
  have closing : ∀ line ∈ ["\x7d", ""], declaration? line = none := by decide +kernel
  have last : packWith [] ["\x7d", ""] = ["\x7d", ""] := by
    simpa [packWith, layoutParts] using packWith_append closing [] []
  have noEnumerations : (noteLines noteAssignments).filterMap enumeration? = [] := by
    decide +kernel
  rw [forall_mem_append] at front
  rw [packLines_eq, noEnumerations, noteLines, packWith_append front.1,
    packWith_run (by decide +kernel) rfl, single, packWith_append front.2,
    packWith_run (by decide +kernel) rfl, swapped, last]
  rfl

theorem note_statements_moved :
    ∃ contracts ∈ contractsOf noteSource,
      let lines := Text.lines (renderFile "^0.8.30" [] contracts)
      declaredLines lines ≠ contracts.flatMap variableLines ∧
        ∃ span ∈ functionSpans lines, bodyOf (packLines lines) span ≠ bodyOf lines span := by
  have built : ∃ contracts, contracts ∈ contractsOf noteSource ∧
      WellWrittenFile "^0.8.30" [] contracts ∧
      contracts.map Contract.render = [((noteLines noteAssignments).drop 3).dropLast] ∧
      contracts.flatMap variableLines = [noteDeclaration] := by
    decide +kernel
  obtain ⟨contracts, isBuilt, written, rendered, stored⟩ := built
  have lines : Text.lines (renderFile "^0.8.30" [] contracts) = noteLines noteAssignments := by
    rw [lines_renderFile written, fileBlocks, rendered]
    rfl
  refine ⟨contracts, isBuilt, ?_⟩
  simp only [lines, stored, packLines_note]
  decide +kernel

end ContractForge.Listing
