import ContractForge.Lowering.LiteralType

/-!
# Types of literals

The form of a literal tells its type, except that a text may name another one
(`literalType_eq_form_iff`).
-/

namespace ContractForge

open List

/-- The type that a literal has by its form alone, and the texts in it that decide the type. Other
nodes have no such type. -/
def Node.formType? (enums : Table (List String)) : Node → Option (StaticType × List String)
  | ⟨.literal, .text value, _, _, _⟩ => some (.string, [value])
  | ⟨.literal, .integer (.ofNat _), _, _, _⟩ => some (.uint256, [])
  | ⟨.literal, .boolean _, _, _, _⟩ => some (.bool, [])
  | ⟨.symbol, .text name, _, _, _⟩ =>
    some (((enums.find? (name ∈ ·.2)).map (.enumeration ·.1)).getD .string, [])
  | ⟨.array, _, _, _, []⟩ => some (.array .uint256, [])
  | ⟨.array, _, _, _, first :: _⟩ => do
    let (type, texts) ← first.formType? enums
    return (.array type, texts)
  | ⟨.hash, _, _, _, []⟩ => some (.mapping .address .uint256, [])
  | ⟨.hash, _, _, _, ⟨_, _, _, _, [key, value]⟩ :: _⟩ => do
    let (keyType, keyTexts) ← key.formType? enums
    let (valueType, valueTexts) ← value.formType? enums
    return (.mapping keyType valueType, keyTexts ++ valueTexts)
  | _ => none

/-- The texts that name a type other than that of texts. -/
def foreignTypes : List String :=
  ["Integer", "Array", "Hash", "TrueClass", "FalseClass", "Boolean", "NilClass", "Float"]

theorem textType_eq_string_iff : textType value = some .string ↔ value ∉ foreignTypes := by
  simp only [textType, typeNames, Table.get?, foreignTypes, mem_cons, not_mem_nil, or_false]
  repeat' split
  all_goals grind [StaticType.string, StaticType.uint256, StaticType.bool,
    StaticType.defaultArray, StaticType.defaultMapping]

/-- The type of a literal is the one that it has by its form if and only if no text that decides it
names another type. -/
theorem literalType_eq_form_iff {enums : Table (List String)} {node : Node} {type : StaticType}
    {texts : List String} (hasForm : node.formType? enums = some (type, texts)) :
    ∃ found, node.literalType enums = .ok found ∧
      (found = some type ↔ ∀ text ∈ texts, text ∉ foreignTypes) := by
  fun_induction Node.formType? enums node generalizing type texts with
  | case1 =>
    cases hasForm
    exact ⟨_, rfl, by simp [Payload.literalType, textType_eq_string_iff]⟩
  | case2 =>
    cases hasForm
    refine ⟨_, rfl, ?_⟩
    rw [Payload.literalType, if_neg (by simp)]
    simp
  | case4 _ =>
    cases hasForm
    refine ⟨_, rfl, ?_⟩
    simp only [symbolType, Payload.isOneOf, Payload.text?, Option.any_some, elem_eq_mem]
    cases find? _ enums <;> simp
  | case6 _ _ _ first _ ih =>
    obtain ⟨⟨_, _⟩, isInner, ⟨⟩⟩ := Option.bind_eq_some_iff.mp hasForm
    obtain ⟨found, isFound, same⟩ := ih isInner
    refine ⟨found.map .array, by rw [Node.literalType, isFound]; rfl, ?_⟩
    rw [← same]
    cases found <;> simp
  | case8 _ _ _ _ _ _ _ key value _ ofKey ofValue =>
    obtain ⟨⟨_, _⟩, isKey, hasForm⟩ := Option.bind_eq_some_iff.mp hasForm
    obtain ⟨⟨_, _⟩, isValue, ⟨⟩⟩ := Option.bind_eq_some_iff.mp hasForm
    obtain ⟨foundKey, keyFound, sameKey⟩ := ofKey isKey
    obtain ⟨foundValue, valueFound, sameValue⟩ := ofValue isValue
    refine ⟨_, by rw [Node.literalType, keyFound, valueFound]; rfl, ?_⟩
    rw [forall_mem_append, ← sameKey, ← sameValue]
    cases foundKey <;> cases foundValue <;> simp
  | case9 => contradiction
  | _ =>
    cases hasForm
    exact ⟨_, rfl, by simp [Payload.literalType, StaticType.defaultArray,
      StaticType.defaultMapping]⟩

/-- A table of texts, of which none names a type. -/
def greeting : Node :=
  ⟨.hash, .absent, none, none,
    [⟨.pair, .absent, none, none, [⟨.symbol, .text "open", none, none, []⟩,
    ⟨.array, .absent, none, none, [⟨.literal, .text "hello", none, none, []⟩]⟩]⟩]⟩

theorem greeting_literalType : ∃ found, greeting.literalType [("Phase", ["open"])] = .ok found ∧
    (found = some (.mapping (.enumeration "Phase") (.array .string)) ↔
      ∀ text ∈ ["hello"], text ∉ foreignTypes) :=
  literalType_eq_form_iff (by decide)

/-- A text that names a type has that type. -/
theorem integerText_literalType :
    Node.literalType [] ⟨.literal, .text "Integer", none, none, []⟩ = .ok (some .uint256) ∧
      Node.formType? [] ⟨.literal, .text "Integer", none, none, []⟩ = some (.string, ["Integer"]) :=
  ⟨rfl, by simp [Node.formType?]⟩

end ContractForge
