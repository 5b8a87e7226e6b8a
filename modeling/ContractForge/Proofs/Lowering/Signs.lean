import ContractForge.Proofs.Lowering.ExpressionText
import ContractForge.Proofs.Lowering.Maintenance
import ContractForge.Proofs.Lowering.Safety

/-!
# Signs in expressions

Between its words and literals, a text is cut into signs, of which the longest that
can stand at a place is taken. A pure expression changes nothing, so what it is
lowered to should hold no sign that does. Operators are written with blanks around
them and only the signs in front of an operand touch what follows: so there is one
way in which such a sign comes about, a minus sign before an operand that begins with
one itself (`expression_hasEffect_iff`).
-/

namespace ContractForge

open Lower Text List

variable {minus effect : Bool} {text operator sign : String} {arguments : List String}
  {level parent : Int}

/-! ### Signs of a text -/

/-- The signs that change what stands beside them. -/
def effectSigns : List String :=
  [">>>=", "<<=", ">>=", "++", "--", "+=", "-=", "*=", "/=", "%=", "|=", "&=", "^=", "="]

/-- The signs of the generated language, longer ones first. -/
def signs : List String :=
  [">>>=", "<<=", ">>=", ">>>", "++", "--", "+=", "-=", "*=", "/=", "%=", "|=", "&=", "^=", "==",
   "!=", "<=", ">=", "=>", "->", "**", "&&", "||", "<<", ">>", "=", "+", "-", "*", "/", "%", "<",
   ">", "|", "^", "&", "!", "~"]

/-- The longest sign at the beginning of a text. -/
def signAt? (chars : List Char) : Option String :=
  signs.find? fun sign => sign.toList.isPrefixOf chars

/-- Where in a text a character stands: in code, where some characters may still belong to the
last sign, or in a literal. -/
inductive ScanMode where
  | code (skip : Nat)
  | literal (quote : Char) (escaped : Bool)

/-- The signs of a text outside of its literals. -/
def signsFrom : ScanMode → List Char → List String
  | _, [] => []
  | .code (skip + 1), _ :: rest => signsFrom (.code skip) rest
  | .code 0, c :: rest =>
    if c == '"' || c == '\'' then signsFrom (.literal c false) rest
    else match signAt? (c :: rest) with
      | some sign => sign :: signsFrom (.code (sign.length - 1)) rest
      | none => signsFrom (.code 0) rest
  | .literal quote true, _ :: rest => signsFrom (.literal quote false) rest
  | .literal quote false, c :: rest =>
    if c == '\\' then signsFrom (.literal quote true) rest
    else if c == quote then signsFrom (.code 0) rest
    else signsFrom (.literal quote false) rest

/-- Whether a text holds a sign that changes something. -/
def hasEffect (chars : List Char) : Bool :=
  (signsFrom (.code 0) chars).any effectSigns.contains

/-- The characters that signs and literals begin with. -/
def signChars : List Char :=
  ['>', '<', '+', '-', '*', '/', '%', '|', '&', '^', '=', '!', '~', '"', '\'']

theorem signAt?_eq_none (plain : c ∉ signChars) : signAt? (c :: rest) = none := by
  have begin : ∀ sign ∈ signs, ∃ first ∈ signChars, sign.toList.head? = some first := by
    simp [signs, signChars]
  refine find?_eq_none.mpr fun sign isSign isFront => ?_
  obtain ⟨_, isSignChar, isHead⟩ := begin sign isSign
  obtain ⟨_, isCons⟩ := head?_eq_some_iff.mp isHead
  rw [isCons, isPrefixOf_cons_cons, Bool.and_eq_true, beq_iff_eq] at isFront
  exact plain (isFront.1 ▸ isSignChar)

theorem signsFrom_append :
    signsFrom (.code front.length) (front ++ rest) = signsFrom (.code 0) rest := by
  induction front with
  | nil => rfl
  | cons _ _ ih => exact ih

/-- A sign at the beginning of a text, and what comes after it. -/
theorem hasEffect_sign (found : signAt? (sign.toList ++ rest) = some sign) :
    hasEffect (sign.toList ++ rest) = (effectSigns.contains sign || hasEffect rest) := by
  have begin : ∀ sign ∈ signs,
      ∃ c, sign.toList.head? = some c ∧ (c == '"' || c == '\'') = false := by
    simp [signs]
  obtain ⟨_, isHead, notQuote⟩ := begin sign (mem_of_find?_eq_some found)
  obtain ⟨others, isCons⟩ := head?_eq_some_iff.mp isHead
  have length : sign.length - 1 = others.length := by
    rw [← String.length_toList, isCons, length_cons, Nat.add_sub_cancel]
  rw [isCons, cons_append] at found ⊢
  rw [hasEffect, signsFrom, notQuote, found]
  simp only [length, signsFrom_append]
  rfl

/-- The text holds a sign that changes something as said, whatever comes after it. -/
def Scans (text : String) (effect : Bool) : Prop :=
  ∀ rest, hasEffect (text.toList ++ rest) = (effect || hasEffect rest)

namespace Scans

variable {text : String} {effect : Bool}

theorem append (ofFirst : Scans first former) (ofSecond : Scans second latter) :
    Scans (first ++ second) (former || latter) := by
  intro _
  rw [String.toList_append, append_assoc, ofFirst, ofSecond, Bool.or_assoc]

theorem ofPlain (plain : ∀ c ∈ text.toList, c ∉ signChars) : Scans text false := by
  intro _
  generalize text.toList = chars at plain ⊢
  induction chars with
  | nil => rfl
  | cons c _ ih =>
    obtain ⟨ofFirst, ofOthers⟩ := forall_mem_cons.mp plain
    have notQuote : (c == '"' || c == '\'') = false := by
      simp only [signChars, mem_cons, not_or] at ofFirst
      simp [ofFirst]
    rw [cons_append, hasEffect, signsFrom, notQuote, signAt?_eq_none ofFirst]
    exact ih ofOthers

theorem ofWord (word : ∀ c ∈ text.toList, isWordChar c) : Scans text false := by
  have noWord : signChars.all (fun c => !isWordChar c) := by decide
  refine ofPlain fun c mem isSign => ?_
  simpa [word c mem] using all_eq_true.mp noWord c isSign

theorem quote (text : String) : Scans (Name.quote text) false := by
  intro rest
  have inside (chars : List Char) : signsFrom (.literal '"' false)
      (chars.flatMap Name.quotedChar ++ '"' :: rest) = signsFrom (.code 0) rest := by
    induction chars with
    | nil => rfl
    | cons _ _ ih =>
      rw [flatMap_cons, append_assoc, ← ih]
      unfold Name.quotedChar
      split
      all_goals simp_all [signsFrom]
  simp [Name.quote, hasEffect, signsFrom, inside]

theorem between (known : operatorPrecedence.get? operator = some level) :
    Scans (" " ++ operator ++ " ") false := by
  have blank : Scans " " false := ofPlain (by simp [signChars])
  have isKnown : operator ∈ operatorPrecedence.names :=
    mem_map_of_mem (Table.mem_of_get? known)
  intro rest
  rw [String.append_assoc, String.toList_append, append_assoc, blank, String.toList_append,
    append_assoc, ← blank rest]
  fin_cases isKnown
  all_goals exact hasEffect_sign (by simp [signAt?, signs])

end Scans

/-- The text begins with a minus sign as said, and with nothing that a sign before it goes on
with otherwise. -/
def Begins (text : String) (minus : Bool) : Prop :=
  ∃ c others, text.toList = c :: others ∧ c ≠ '=' ∧ c ≠ '>' ∧ (c == '-') = minus

theorem Begins.append (begins : Begins text minus) (rest : String) :
    Begins (text ++ rest) minus := by
  obtain ⟨c, others, isText, known⟩ := begins
  exact ⟨c, others ++ rest.toList, by rw [String.toList_append, isText, cons_append], known⟩

theorem begins_word (word : isWord text) : Begins text false := by
  obtain ⟨someChar, wordChars⟩ := isWord_iff.mp word
  obtain ⟨c, others, isText⟩ := exists_cons_of_ne_nil someChar
  have isWord := wordChars c (by simp [isText])
  refine ⟨c, others, isText, ?_, ?_, beq_eq_false_iff_ne.mpr ?_⟩ <;> rintro rfl <;> contradiction

/-- Only a minus sign touches a sign that follows it. -/
theorem Scans.unary (known : operator ∈ Grammar.unaryOperators)
    (scans : Scans text effect) (begins : Begins text minus) :
    Scans (operator ++ text) (operator == "-" && minus || effect) := by
  obtain ⟨c, _, isText, notEqual, notGreater, rfl⟩ := begins
  intro rest
  have after := scans rest
  rw [isText, cons_append] at after
  rw [String.toList_append, isText, append_assoc, cons_append]
  fin_cases known
  · by_cases isMinus : c = '-'
    · subst isMinus
      exact hasEffect_sign (by simp [signAt?, signs] : signAt? ("--".toList ++ _) = some "--")
    · rw [hasEffect_sign (by simp [signAt?, signs, Ne.symm isMinus, Ne.symm notEqual,
        Ne.symm notGreater]), after]
      simp [beq_eq_false_iff_ne.mpr isMinus, effectSigns]
  · rw [hasEffect_sign (by simp [signAt?, signs, Ne.symm notEqual]), after]
    rfl
  · rw [hasEffect_sign (by simp [signAt?, signs]), after]
    rfl

/-! ### Minus signs of an expression -/

/-- Whether an expression binds as tightly as given, so that it stands without parentheses. -/
def isTight (context : Context) (level : Int) (node : Node) : Bool :=
  match precedence context node with
  | .ok own => level ≤ own
  | .error _ => false

def isYes : Except Malformed Bool → Bool
  | .ok answer => answer
  | .error _ => false

/-- Whether an expression that binds as tightly as signs do begins with a minus sign. -/
def minusFirst (context : Context) : Node → Bool
  | ⟨.literal, .integer value, _, _, _⟩ => value < 0
  | ⟨.unary, operator, _, _, _⟩ => operator.isText "-"
  | ⟨.index, _, _, _, base :: _⟩ =>
    isTight context primaryPrecedence base && minusFirst context base
  | ⟨.binary, operator, _, _, [left, right]⟩ =>
    (isYes (isZeroDefault context operator left right) ||
      isYes (isArrayAppend context operator left) && isTight context primaryPrecedence left) &&
        minusFirst context left
  | _ => false

/-- Whether a minus sign in an expression stands right before another. The default that a side
has anyway is not written. -/
def minusTwice (context : Context) : Node → Bool
  | ⟨.unary, operator, _, _, operand :: _⟩ =>
    operator.isText "-" &&
        (isTight context unaryPrecedence operand && minusFirst context operand) ||
      minusTwice context operand
  | ⟨.index, _, _, _, [base, index]⟩ => minusTwice context base || minusTwice context index
  | ⟨.binary, operator, _, _, [left, right]⟩ => minusTwice context left ||
      (!isYes (isZeroDefault context operator left right) && minusTwice context right)
  | ⟨.ternary, _, _, _, [condition, whenTrue, whenFalse]⟩ =>
    minusTwice context condition || minusTwice context whenTrue || minusTwice context whenFalse
  | _ => false

/-- The context holds words only: the generated names of variables, fields, methods and
parameters. -/
structure Context.Worded (context : Context) : Prop where
  locals : ∀ entry ∈ context.block.locals, ∃ name, entry.2.name = .text name ∧ isWord name = true
  fields : ∀ name, .text name ∈ context.contract.stateVars.names → isWord name = true
  methods : ∀ entry ∈ context.contract.methods, isWord entry.2 = true
  method : ∀ c ∈ (Name.camelCase context.method.method).toList, isWordChar c = true
  parameters : ∀ entry ∈ context.method.parameters, ∃ name, entry = .text name ∧ isWord name = true

/-- An expression of literals, fields, names, entries and operators. All names are words, those of
variables and methods as they are written in the generated language. -/
inductive IsPure : Node → Prop where
  | literal (payload : Payload) (line column : Option Int) :
      IsPure ⟨.literal, payload, line, column, []⟩
  | field {name : String} (word : isWord name = true) (line column : Option Int) :
      IsPure ⟨.ivar, .text name, line, column, []⟩
  | name {name : String} (word : isWord (foreignName name) = true) (line column : Option Int) :
      IsPure ⟨.identifier, .text name, line, column, []⟩
  | index {index : Node} (ofBase : IsPure base) (ofIndex : IsPure index) (payload : Payload)
      (line column : Option Int) : IsPure ⟨.index, payload, line, column, [base, index]⟩
  | unary {operator : String} {operand : Node} (known : operator ∈ Grammar.unaryOperators)
      (ofOperand : IsPure operand) (line column : Option Int) :
      IsPure ⟨.unary, .text operator, line, column, [operand]⟩
  | binary (ofLeft : IsPure left) (ofRight : IsPure right) (operator : Payload)
      (line column : Option Int) : IsPure ⟨.binary, operator, line, column, [left, right]⟩
  | ternary (ofCondition : IsPure condition) (ofTrue : IsPure whenTrue) (ofFalse : IsPure whenFalse)
      (payload : Payload) (line column : Option Int) :
      IsPure ⟨.ternary, payload, line, column, [condition, whenTrue, whenFalse]⟩

section

theorem isTight_following : isTight (context.following history) = isTight context := by
  delta isTight
  rw [precedence_following]

theorem minusFirst_following : minusFirst (context.following history) = minusFirst context := by
  delta minusFirst minusFirst._f
  rw [isTight_following, isZeroDefault_following, isArrayAppend_following]

theorem minusTwice_following : minusTwice (context.following history) = minusTwice context := by
  delta minusTwice minusTwice._f
  rw [isTight_following, isZeroDefault_following, minusFirst_following]

end

/-! ### Texts of expressions -/

/-- The text of an expression holds a sign that changes something exactly if a minus sign stands
before another, and if it is tight enough for a sign before it, it begins with a minus sign as
the expression does. -/
structure Signed (context : Context) (node : Node) (text : String) : Prop where
  scans : Scans text (minusTwice context node)
  begins : ∃ minus, Begins text minus ∧
    (isTight context unaryPrecedence node = true → minus = minusFirst context node)

def Context.Follows (base context : Context) : Prop :=
  base.log.entries = [] ∧ ∃ history, context = base.following history

variable {base : Context} {node left right : Node} {text : String}

theorem ignoresLog_follows (base : Context) : IgnoresLog base.Follows := by
  rintro context diagnostic ⟨empty, history, rfl⟩
  refine ⟨empty, ⟨history.entries ++ [?_], history.isUnwritable⟩, ?_⟩
  · exact if diagnostic.file == "" then { diagnostic with file := base.log.file } else diagnostic
  · simp [Context.following, DiagnosticLog.add, empty]

/-- A question whose answer does not depend on the log. -/
theorem upholds_asked {α : Type} {question : Context → Except Malformed α}
    (same : ∀ history, question (base.following history) = question base) :
    Upholds base.Follows (fun value => question base = .ok value) (infer question) := by
  refine (upholds_infer question).mono ?_
  rintro value ⟨_, ⟨-, _, rfl⟩, answer⟩
  rwa [same] at answer

/-- An operand holds the same signs, and in a place that is tight enough it begins with a minus
sign only if it needs no parentheses. -/
structure SignedOperand (base : Context) (node : Node) (parent : Int) (strict : Bool)
    (written : String) : Prop where
  scans : Scans written (minusTwice base node)
  begins : ∃ minus, Begins written minus ∧ (strict = false → unaryPrecedence ≤ parent →
    minus = (isTight base parent node && minusFirst base node))

theorem Signed.enclosed (signed : Signed base node text) (parent : Int) (strict : Bool) :
    Upholds base.Follows (SignedOperand base node parent strict)
      (enclosed node parent strict text) := by
  refine (upholds_asked fun history => by rw [precedence_following]).andThen fun own isOwn => ?_
  have tight (level : Int) : isTight base level node = decide (level ≤ own) := by
    rw [isTight, isOwn]
  obtain ⟨minus, begins, known⟩ := signed.begins
  refine upholds_pure ?_
  split
  · rename_i isLoose
    have opener : Scans "(" false := .ofPlain (by simp [signChars])
    have closer : Scans ")" false := .ofPlain (by simp [signChars])
    refine ⟨by simpa using (opener.append signed.scans).append closer, false, ?_, ?_⟩
    · exact ⟨'(', text.toList ++ [')'], by simp, by decide, by decide, rfl⟩
    · rintro rfl -
      have loose : own < parent := by simpa using isLoose
      simp [tight, Int.not_le.mpr loose]
  · rename_i isTight
    refine ⟨signed.scans, minus, begins, ?_⟩
    rintro rfl atLeast
    have tightEnough : parent ≤ own := by simpa using isTight
    rw [known (by rw [tight]; simpa using Int.le_trans atLeast tightEnough)]
    simp [tight, tightEnough]

/-! ### Literals and names -/

/-- A text that begins with no sign and holds none. -/
theorem signed_of_plain (scans : Scans text false) (begins : Begins text false)
    (first : minusFirst base node = false) (twice : minusTwice base node = false) :
    Signed base node text :=
  ⟨twice ▸ scans, false, begins, fun _ => first.symm⟩

theorem signed_word (word : isWord text) (first : minusFirst base node = false)
    (twice : minusTwice base node = false) : Signed base node text :=
  signed_of_plain (.ofWord (isWord_iff.mp word).2) (begins_word word) first twice

theorem signed_integer :
    Signed base ⟨.literal, .integer value, line, column, []⟩ (toString value) := by
  cases value with
  | ofNat value => exact signed_word (isWord_toString value) (by simp [minusFirst]) rfl
  | negSucc value =>
    have digits := isWord_toString (value + 1)
    have scans := Scans.unary (by decide : "-" ∈ Grammar.unaryOperators)
      (.ofWord (isWord_iff.mp digits).2) (begins_word digits)
    exact ⟨scans, true, ⟨'-', _, String.toList_append, by decide, by decide, rfl⟩,
      fun _ => by simp [minusFirst]⟩

theorem upholds_literal :
    Upholds base.Follows (Signed base ⟨.literal, payload, line, column, []⟩)
      (expression ⟨.literal, payload, line, column, []⟩) := by
  rw [expression, literalText]
  split
  · exact upholds_reject _ _
  · exact upholds_reject _ _
  · rename_i notAbsent notReal
    refine upholds_pure ?_
    cases payload with
    | absent => exact absurd rfl notAbsent
    | real value => exact absurd rfl (notReal value)
    | integer value => exact signed_integer
    | boolean value =>
      have word : isWord (if value then "true" else "false") := by cases value <;> decide
      cases value <;> exact signed_word word rfl rfl
    | text value =>
      have begins : Begins (Name.quote value) false :=
        ⟨'"', _, String.toList_ofList, by decide, by decide, rfl⟩
      exact signed_of_plain (.quote value) begins rfl rfl

theorem Scans.commaSeparated (scan : ∀ text ∈ texts, Scans text false) :
    Scans (Text.commaSeparated texts) false := by
  have comma : Scans ", " false := .ofPlain (by simp [signChars])
  unfold Text.commaSeparated
  induction texts with
  | nil => exact fun _ => rfl
  | cons _ rest ih =>
    obtain ⟨ofText, ofRest⟩ := forall_mem_cons.mp scan
    cases rest with
    | nil => rwa [String.intercalate_singleton]
    | cons =>
      rw [String.intercalate_cons_cons]
      exact (ofText.append comma).append (ih ofRest)

/-- The brackets and blanks that are written between parts. -/
theorem scans_mark (known : mark ∈ ["(", ")", "()", "[", "]", ", ", " ? ", " : ", "super.",
      ".push", "keccak256(bytes(", "))", "string.concat"]) : Scans mark false :=
  have plain : ∀ mark ∈ ["(", ")", "()", "[", "]", ", ", " ? ", " : ", "super.",
      ".push", "keccak256(bytes(", "))", "string.concat"], ∀ c ∈ mark.toList, c ∉ signChars := by
    simp [signChars]
  .ofPlain (plain mark known)

theorem Scans.call (ofFunction : Scans function false)
    (scan : ∀ argument ∈ arguments, Scans argument false) :
    Scans (callText function arguments) false :=
  ((ofFunction.append (scans_mark (by decide : "(" ∈ _))).append (.commaSeparated scan)).append
    (scans_mark (by decide : ")" ∈ _))

theorem Context.Worded.scans_superName (worded : base.Worded) : Scans (superName base) false := by
  refine Scans.append (scans_mark (by decide : "super." ∈ _)) ?_
  cases found : base.contract.methods.get? base.method.method with
  | none => exact .ofWord worded.method
  | some =>
    exact .ofWord (isWord_iff.mp (worded.methods _ (Table.mem_of_get? found))).2

/-- What a name stands for is a word, or a call without signs. -/
theorem answers_resolvedName? (worded : base.Worded) (name : String) (line column : Option Int) :
    Answers
      (fun found => ∀ text ∈ found, Signed base ⟨.identifier, .text name, line, column, []⟩ text)
      (resolvedName? base (.text name)) := by
  have isWritten {text : String} (word : isWord text) :
      ∀ written ∈ some text, Signed base ⟨.identifier, .text name, line, column, []⟩ written := by
    rintro written ⟨⟩
    exact signed_word word rfl rfl
  unfold resolvedName?
  split
  · rename_i isLocal
    obtain ⟨_, mem⟩ := Table.exists_mem_of_named? isLocal
    obtain ⟨_, isText, word⟩ := worded.locals _ mem
    rw [isText]
    exact answers_pure (isWritten word)
  · rename_i isName
    cases isName
    unfold knownName?
    split
    · have spelled : Answers (fun texts => ∀ text ∈ texts, Scans text false)
          (base.method.parameters.mapM Payload.spelled) := by
        refine composes_answers.mapM fun parameter mem => ?_
        obtain ⟨_, rfl, word⟩ := worded.parameters parameter mem
        exact answers_pure (.ofWord (isWord_iff.mp word).2)
      refine spelled.bind fun texts scan => answers_pure ?_
      rintro written ⟨⟩
      have begins : Begins "super." false :=
        ⟨'s', "uper.".toList, rfl, by decide, by decide, rfl⟩
      exact signed_of_plain (worded.scans_superName.call scan)
        ((((begins.append _).append _).append _).append _) rfl rfl
    · split
      · rename_i isMethod
        have word := worded.methods _ (Table.mem_of_get? isMethod)
        refine answers_pure ?_
        rintro written ⟨⟩
        exact signed_of_plain ((Scans.ofWord (isWord_iff.mp word).2).append
          (scans_mark (by decide : "()" ∈ _))) ((begins_word word).append _) rfl rfl
      · split
        · rename_i isField
          obtain ⟨_, found⟩ := Option.isSome_iff_exists.mp isField
          exact answers_pure (isWritten (worded.fields _
            (mem_map_of_mem (Table.mem_of_get? found))))
        · split
          · rename_i isGlobal
            have known : name = "abi" ∨ name ∈ globalScopes := by simpa using isGlobal
            have areWords : ∀ scope ∈ "abi" :: globalScopes, isWord scope := by decide
            exact answers_pure (isWritten (areWords name (mem_cons.mpr known)))
          · exact answers_pure (by simp)
  · rename_i other
    exact absurd rfl (other name)

theorem upholds_name (worded : base.Worded) (word : isWord (foreignName name))
    (line column : Option Int) :
    Upholds base.Follows (Signed base ⟨.identifier, .text name, line, column, []⟩)
      (expression ⟨.identifier, .text name, line, column, []⟩) := by
  refine (upholds_asked fun _ => rfl).andThen fun found answer => ?_
  have signed := (answers_resolvedName? worded name line column).holds answer
  cases found with
  | some text => exact upholds_pure (signed text rfl)
  | none =>
    refine Upholds.bind (maintains_report (ignoresLog_follows base) _) fun _ => ?_
    refine (upholds_part _).andThen fun spelled isSpelled => upholds_pure ?_
    cases isSpelled
    exact signed_word word rfl rfl

/-! ### Operators -/

/-- A text that does not bind as tightly as signs do may begin with any sign. -/
theorem signed_of_loose (scans : Scans text (minusTwice base node)) (begins : Begins text minus)
    (loose : isTight base unaryPrecedence node = false) : Signed base node text :=
  ⟨scans, minus, begins, fun isTight => absurd isTight (by simp [loose])⟩

theorem exists_of_isTextOperation {operator : Payload}
    (yes : isTextOperation base operators operator left right = .ok true) :
    ∃ sign ∈ operators, operator = .text sign := by
  unfold isTextOperation at yes
  cases isOne : operator.isOneOf operators with
  | false =>
    rw [isOne] at yes
    cases yes
  | true =>
    cases operator with
    | text sign => exact ⟨sign, by simpa [Payload.isOneOf, Payload.text?] using isOne, rfl⟩
    | _ => contradiction

section

variable {left right : Node} {operator : Payload} {line column : Option Int}
  (kept : isZeroDefault base operator left right = .ok false)

include kept

theorem minusTwice_binary : minusTwice base ⟨.binary, operator, line, column, [left, right]⟩ =
    (minusTwice base left || minusTwice base right) := by
  simp [minusTwice, kept, isYes]

/-- An element is put behind an array. -/
theorem signed_push (appends : isArrayAppend base operator left = .ok true)
    (operand : SignedOperand base left primaryPrecedence false first)
    (signed : Signed base right second) :
    Signed base ⟨.binary, operator, line, column, [left, right]⟩
      (callText s!"{first}.push" [second]) := by
  obtain ⟨scans, minus, begins, isMinus⟩ := operand
  have opened := (scans.append (scans_mark (by decide : ".push" ∈ _))).append
    (scans_mark (by decide : "(" ∈ _))
  have whole := (opened.append signed.scans).append (scans_mark (by decide : ")" ∈ _))
  refine ⟨?_, minus, (((begins.append _).append _).append _).append _, fun _ => ?_⟩
  · simpa [minusTwice_binary kept, callText, Text.commaSeparated] using whole
  · simpa [minusFirst, kept, appends, isYes] using isMinus rfl (by decide)

section

variable (appends : isArrayAppend base operator left = .ok false)
include appends

/-- Texts are compared by what they are hashed to. -/
theorem signed_equality
    (compares : isTextOperation base ["==", "!="] operator left right = .ok true)
    (ofLeft : Signed base left first) (ofRight : Signed base right second) :
    Signed base ⟨.binary, operator, line, column, [left, right]⟩
      s!"keccak256(bytes({first})) {operator.spliced} keccak256(bytes({second}))" := by
  obtain ⟨sign, isSign, rfl⟩ := exists_of_isTextOperation compares
  have isOperator : ∃ level, operatorPrecedence.get? sign = some level := by
    obtain rfl | rfl : sign = "==" ∨ sign = "!=" := by simpa using isSign
    all_goals exact ⟨_, rfl⟩
  have loose : isTight base unaryPrecedence ⟨.binary, .text sign, line, column, [left, right]⟩ =
      false := by
    have isOne : (Payload.text sign).isOneOf ["==", "!="] := by
      simpa [Payload.isOneOf, Payload.text?] using isSign
    simp [isTight, precedence, kept, appends, isOne, bind, Except.bind, pure, Except.pure,
      unaryPrecedence, equalityPrecedence]
  have opener : Scans "keccak256(bytes(" false := scans_mark (by decide)
  have closer : Scans "))" false := scans_mark (by decide)
  have whole := ((opener.append ofLeft.scans).append closer).append
    ((Scans.between isOperator.choose_spec).append ((opener.append ofRight.scans).append closer))
  have isText : "keccak256(bytes(" ++ first ++ "))" ++ (" " ++ sign ++ " " ++
      ("keccak256(bytes(" ++ second ++ "))")) = "keccak256(bytes(" ++ first ++ ")) " ++ sign ++
      " keccak256(bytes(" ++ second ++ "))" := by
    apply String.toList_inj.mp
    simp
  rw [isText] at whole
  have begins : Begins "keccak256(bytes(" false :=
    ⟨'k', "eccak256(bytes(".toList, rfl, by decide, by decide, rfl⟩
  exact signed_of_loose (by simpa [minusTwice_binary kept, Payload.spliced] using whole)
    ((((((begins.append _).append _).append _).append _).append _).append _) loose

/-- Texts are joined by a function. -/
theorem signed_sum (ofLeft : Signed base left first) (ofRight : Signed base right second) :
    Signed base ⟨.binary, operator, line, column, [left, right]⟩
      (callText "string.concat" [first, second]) := by
  have begins : Begins "string.concat" false :=
    ⟨'s', "tring.concat".toList, rfl, by decide, by decide, rfl⟩
  have opened := (scans_mark (by decide : "string.concat" ∈ _)).append
    (scans_mark (by decide : "(" ∈ _))
  have parts := ((opened.append ofLeft.scans).append (scans_mark (by decide : ", " ∈ _))).append
    ofRight.scans
  refine ⟨?_, false, ((begins.append _).append _).append _, fun _ => ?_⟩
  · simpa [minusTwice_binary kept, callText, Text.commaSeparated, String.append_assoc] using
      parts.append (scans_mark (by decide : ")" ∈ _))
  · simp [minusFirst, kept, appends, isYes]

theorem signed_between (joins : isTextOperation base ["+"] operator left right = .ok false)
    (isKnown : operator.text?.bind operatorPrecedence.get? = some own)
    (ofLeft : SignedOperand base left own isPower first)
    (ofRight : SignedOperand base right parent isStrict second) :
    Signed base ⟨.binary, operator, line, column, [left, right]⟩
      s!"{first} {operator.spliced} {second}" := by
  obtain ⟨_, begins, -⟩ := ofLeft.begins
  obtain ⟨_, isSign, isOwn⟩ := Option.bind_eq_some_iff.mp isKnown
  have between := (ofLeft.scans.append (Scans.between isOwn)).append ofRight.scans
  have loose : isTight base unaryPrecedence ⟨.binary, operator, line, column, [left, right]⟩ =
      false := by
    have below : ∀ entry ∈ operatorPrecedence, entry.2 < unaryPrecedence := by decide
    have isBelow := below _ (Table.mem_of_get? isOwn)
    simp only [isTight, precedence, kept, appends, joins, isKnown, bind, Except.bind, pure,
      Except.pure]
    cases operator.isOneOf ["==", "!="] with
    | true => rfl
    | false => simpa using isBelow
  refine signed_of_loose ?_ ((((begins.append _).append _).append _).append _) loose
  cases operator with
  | text =>
    cases isSign
    simpa [minusTwice_binary kept, Payload.spliced, String.append_assoc] using between
  | _ => contradiction

end

end

section

variable {left right condition : Node}
  (ofLeft : Upholds base.Follows (Signed base left) (expression left))
  (ofRight : Upholds base.Follows (Signed base right) (expression right))

include ofLeft

theorem upholds_unary (known : operator ∈ Grammar.unaryOperators) :
    Upholds base.Follows (Signed base ⟨.unary, .text operator, line, column, [left]⟩)
      (expression ⟨.unary, .text operator, line, column, [left]⟩) := by
  refine ofLeft.andThen fun text signed => (signed.enclosed _ _).andThen fun written operand => ?_
  obtain ⟨scans, _, begins, isMinus⟩ := operand
  have isSign : (Payload.text operator).isText "-" = (operator == "-") := rfl
  refine upholds_pure ⟨?_, operator == "-", ?_, fun _ => isSign.symm⟩
  · rw [minusTwice, isSign, ← isMinus rfl (by decide)]
    exact scans.unary known begins
  · fin_cases known
    all_goals exact ⟨_, written.toList, String.toList_append, by decide, by decide, rfl⟩

include ofRight

theorem upholds_index :
    Upholds base.Follows (Signed base ⟨.index, payload, line, column, [left, right]⟩)
      (expression ⟨.index, payload, line, column, [left, right]⟩) := by
  refine ofLeft.andThen fun text signed => (signed.enclosed _ _).andThen fun written operand => ?_
  refine ofRight.andThen fun index ofIndex => upholds_pure ?_
  obtain ⟨scans, minus, begins, isMinus⟩ := operand
  refine ⟨?_, minus, ((begins.append _).append _).append _, fun _ => isMinus rfl (by decide)⟩
  have opened := (scans.append (scans_mark (by decide : "[" ∈ _))).append ofIndex.scans
  simpa [minusTwice] using opened.append (scans_mark (by decide : "]" ∈ _))

theorem upholds_ternary
    (ofCondition : Upholds base.Follows (Signed base condition) (expression condition)) :
    Upholds base.Follows (Signed base ⟨.ternary, payload, line, column, [condition, left, right]⟩)
      (expression ⟨.ternary, payload, line, column, [condition, left, right]⟩) := by
  refine ofCondition.andThen fun _ signed => (signed.enclosed _ _).andThen fun _ asked => ?_
  refine ofLeft.andThen fun _ signed => (signed.enclosed _ _).andThen fun _ whenTrue => ?_
  refine ofRight.andThen fun _ signed => (signed.enclosed _ _).andThen fun _ whenFalse => ?_
  obtain ⟨_, begins, -⟩ := asked.begins
  refine upholds_pure (signed_of_loose ?_ ((((begins.append _).append _).append _).append _) rfl)
  simpa [minusTwice] using (((asked.scans.append (scans_mark (by decide : " ? " ∈ _))).append
    whenTrue.scans).append (scans_mark (by decide : " : " ∈ _))).append whenFalse.scans

theorem upholds_binary (operator : Payload) :
    Upholds base.Follows (Signed base ⟨.binary, operator, line, column, [left, right]⟩)
      (expression ⟨.binary, operator, line, column, [left, right]⟩) := by
  refine (upholds_asked fun _ => by rw [isZeroDefault_following]).andThen fun isDefault kept => ?_
  cases isDefault with
  | true =>
    -- The text is that of the left side, and binds as that does.
    refine ofLeft.mono fun text signed => ⟨?_, ?_⟩
    · simpa [minusTwice, kept, isYes] using signed.scans
    · simpa [minusFirst, isTight, precedence, kept, isYes, bind, Except.bind] using signed.begins
  | false =>
  refine (upholds_asked fun _ => by rw [isArrayAppend_following]).andThen fun isAppend appends => ?_
  cases isAppend with
  | true =>
    refine ofLeft.andThen fun _ signed => (signed.enclosed _ _).andThen fun _ operand => ?_
    exact ofRight.andThen fun _ ofText => upholds_pure (signed_push kept appends operand ofText)
  | false =>
  refine (upholds_asked fun _ => by rw [isTextOperation_following]).andThen
    fun isEquality compares => ?_
  cases isEquality with
  | true =>
    exact ofLeft.andThen fun _ former => ofRight.andThen fun _ latter =>
      upholds_pure (signed_equality kept appends compares former latter)
  | false =>
  refine (upholds_asked fun _ => by rw [isTextOperation_following]).andThen fun isSum joins => ?_
  cases isSum with
  | true =>
    exact ofLeft.andThen fun _ former => ofRight.andThen fun _ latter =>
      upholds_pure (signed_sum kept appends former latter)
  | false =>
    simp only [Bool.false_eq_true, if_false]
    split
    · exact upholds_throw _
    · rename_i isKnown
      refine ofLeft.andThen fun _ signed => (signed.enclosed _ _).andThen fun _ former => ?_
      refine ofRight.andThen fun _ signed => (signed.enclosed _ _).andThen fun _ latter => ?_
      exact upholds_pure (signed_between kept appends joins isKnown former latter)

end

theorem upholds_pureExpression (worded : base.Worded) (isPure : IsPure node) :
    Upholds base.Follows (Signed base node) (expression node) := by
  induction isPure with
  | literal payload line column => exact upholds_literal
  | field word =>
    exact upholds_pure (signed_word (isWord_safe word) rfl rfl)
  | name word line column => exact upholds_name worded word line column
  | index _ _ payload line column ofBase ofIndex =>
    exact upholds_index ofBase ofIndex
  | unary known _ line column ofOperand => exact upholds_unary ofOperand known
  | binary _ _ operator line column ofLeft ofRight =>
    exact upholds_binary ofLeft ofRight operator
  | ternary _ _ _ payload line column ofCondition ofTrue ofFalse =>
    exact upholds_ternary ofTrue ofFalse ofCondition

/-- The text of a pure expression holds an increment, a decrement or an assignment exactly if a
minus sign of the expression stands right before another: before a negation, or before a negative
number. -/
theorem expression_hasEffect_iff {context after : Context} (worded : context.Worded)
    (isPure : IsPure node) (lowered : Gives (expression node) context text after) :
    hasEffect text.toList = true ↔ minusTwice context node = true := by
  set base : Context :=
    { context with log := { context.log with entries := [] }, isUnwritable := false } with isBase
  have isContext : context = base.following ⟨context.log.entries, context.isUnwritable⟩ := by
    simp [isBase, Context.following]
  have ofBase : base.Worded := ⟨worded.1, worded.2, worded.3, worded.4, worded.5⟩
  obtain ⟨-, signed⟩ := upholds_pureExpression ofBase isPure context text after lowered
    ⟨rfl, _, isContext⟩
  have scans := signed.scans []
  rw [append_nil] at scans
  rw [isContext, minusTwice_following, scans]
  simp [hasEffect, signsFrom]

def offsetKnown : Context :=
  { method := { block := { locals := [(.text "offset", ⟨.text "offset", some .int256⟩)] } } }

def negatedOffset : Node :=
  ⟨.unary, .text "-", none, none, [⟨.identifier, .text "offset", none, none, []⟩]⟩

theorem isPure_negatedOffset : IsPure negatedOffset :=
  .unary (by decide) (.name (by decide) none none) none none

theorem difference_hasEffect_iff :
    ∃ text after,
      Gives (expression ⟨.binary, .text "-", none, none, [negatedOffset, negatedOffset]⟩)
        offsetKnown text after ∧
      (hasEffect text.toList = true ↔
        minusTwice offsetKnown ⟨.binary, .text "-", none, none, [negatedOffset, negatedOffset]⟩ =
          true) := by
  have lowered : Gives (expression ⟨.binary, .text "-", none, none, [negatedOffset, negatedOffset]⟩)
      offsetKnown "-offset - -offset" offsetKnown := rfl
  have worded : offsetKnown.Worded := by
    have unnamed : (Name.camelCase "").toList = [] := by decide +kernel
    refine ⟨?_, ?_, ?_, ?_, ?_⟩ <;> simp [offsetKnown, Context.block, Table.names, unnamed]
    decide
  exact ⟨_, _, lowered, expression_hasEffect_iff worded
    (.binary isPure_negatedOffset isPure_negatedOffset (.text "-") none none) lowered⟩

/-- The negation of a negation is written as a decrement. -/
theorem negation_hasEffect :
    IsPure ⟨.unary, .text "-", none, none, [negatedOffset]⟩ ∧
      Gives (expression ⟨.unary, .text "-", none, none, [negatedOffset]⟩) offsetKnown "--offset"
        offsetKnown ∧
      hasEffect "--offset".toList = true := by
  exact ⟨.unary (by decide) isPure_negatedOffset none none, rfl, by decide⟩

end ContractForge
