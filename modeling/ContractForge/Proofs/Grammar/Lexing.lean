import ContractForge.Proofs.Grammar.Derivation
import ContractForge.Proofs.Text.Lines
import ContractForge.Proofs.Text.Search

/-!
# Tokens of expressions

The text of an expression is cut into words, accesses to members, empty texts
and symbols. Of the symbols that can stand at a place, the longest is taken;
minus signs that follow each other are symbols of their own. `Reads` says which
tokens a text is cut into, wherever it stands, and has one rule for each way in
which texts are put together.
-/

namespace ContractForge.Grammar

open Text List

variable {bound firstBound secondBound : Int} {read leftTokens : List Token}
  {text name op left base function symbol bracket first second : String}
  {tree baseTree functionTree firstTree secondTree : Tree} {rest : List Char} {skip level : Nat}

/-- The symbols of expressions; a symbol that begins with another stands before it. -/
def symbols : List String :=
  ["**", "&&", "||", "==", "!=", "<=", ">=", "<<", ">>", "+", "-", "*", "/", "%", "<", ">", "|",
   "^", "&", "!", "~", "?", ":", "(", ")", "[", "]", ","]

/-- The symbol at the beginning of a text. Any other character stands for itself. -/
def symbolAt (chars : List Char) : String :=
  (symbols.find? fun symbol => symbol.toList.isPrefixOf chars).getD (String.ofList (chars.take 1))

/-- The tokens of a text. The number says how many characters still belong to the last one. -/
def tokensFrom (skip : Nat) : List Char → List Token
  | [] => []
  | c :: rest =>
    match skip with
    | skip + 1 => tokensFrom skip rest
    | 0 =>
      if c == ' ' then tokensFrom 0 rest
      else if isWordChar c then
        let word := (c :: rest).takeWhile isWordChar
        .word (String.ofList word) :: tokensFrom (word.length - 1) rest
      else if c == '.' then
        let name := rest.takeWhile isWordChar
        .member (String.ofList name) :: tokensFrom name.length rest
      else if c == '"' && rest.head? == some '"' then .emptyText :: tokensFrom 1 rest
      else
        let symbol := symbolAt (c :: rest)
        .symbol symbol :: tokensFrom (symbol.length - 1) rest

def tokens (text : String) : List Token :=
  tokensFrom 0 text.toList

theorem tokensFrom_append (length : front.length = skip)
    (rest : List Char) : tokensFrom skip (front ++ rest) = tokensFrom 0 rest := by
  induction front generalizing skip with
  | nil =>
    cases length
    rfl
  | cons _ _ ih =>
    cases length
    exact ih rfl

def isSymbolChar (c : Char) : Bool :=
  !(c == ' ' || isWordChar c || c == '.' || c == '"')

theorem tokensFrom_blank (rest : List Char) : tokensFrom 0 (' ' :: rest) = tokensFrom 0 rest := by
  simp [tokensFrom]

theorem tokensFrom_symbol (starts : symbol.toList.head?.any isSymbolChar)
    (found : symbolAt (symbol.toList ++ rest) = symbol) :
    tokensFrom 0 (symbol.toList ++ rest) = .symbol symbol :: tokensFrom 0 rest := by
  cases chars : symbol.toList with
  | nil =>
    rw [chars] at starts
    contradiction
  | cons _ others =>
    rw [chars] at starts found
    have length : others.length = symbol.length - 1 := by
      rw [← String.length_toList, chars, length_cons, Nat.add_sub_cancel]
    simp only [head?_cons, Option.any_some, isSymbolChar, Bool.not_eq_true',
      Bool.or_eq_false_iff] at starts
    obtain ⟨⟨⟨blank, word⟩, point⟩, quote⟩ := starts
    rw [cons_append] at found ⊢
    rw [tokensFrom]
    simp only [blank, word, point, quote, found, Bool.false_eq_true, if_false, Bool.false_and,
      tokensFrom_append length]

/-- The symbols with blanks around them. -/
def infixSymbols : List String :=
  binaryOperators.flatten ++ ["?", ":"]

theorem mem_infixSymbols (known : level? op = some level) : op ∈ infixSymbols := by
  obtain ⟨_, found, -⟩ := Option.map_eq_some_iff.mp known
  obtain ⟨inside, contains, -⟩ := findIdx?_eq_some_iff_getElem.mp found
  refine mem_append_left _ (mem_flatten.mpr ⟨_, getElem_mem inside, ?_⟩)
  simpa using contains

theorem tokensFrom_infix (known : op ∈ infixSymbols) (rest : List Char) :
    tokensFrom 0 (' ' :: (op.toList ++ ' ' :: rest)) =
      .symbol op :: tokensFrom 0 rest := by
  rw [tokensFrom_blank, ← tokensFrom_blank rest]
  fin_cases known
  all_goals exact tokensFrom_symbol (by decide) (by simp [symbolAt, symbols])

def brackets : List String :=
  ["(", ")", "[", "]", ","]

theorem tokensFrom_bracket (known : bracket ∈ brackets) (rest : List Char) :
    tokensFrom 0 (bracket.toList ++ rest) = .symbol bracket :: tokensFrom 0 rest := by
  fin_cases known
  all_goals exact tokensFrom_symbol (by decide) (by simp [symbolAt, symbols])

theorem tokensFrom_unary (known : op ∈ unaryOperators) (start : rest.head? ≠ some '=') :
    tokensFrom 0 (op.toList ++ rest) = .symbol op :: tokensFrom 0 rest := by
  fin_cases known
  · exact tokensFrom_symbol (by decide) (by simp [symbolAt, symbols])
  · refine tokensFrom_symbol (by decide) ?_
    cases rest with
    | nil => simp [symbolAt, symbols]
    | cons c =>
      have other : c ≠ '=' := by simpa using start
      simp [symbolAt, symbols, Ne.symm other]
  · exact tokensFrom_symbol (by decide) (by simp [symbolAt, symbols])

/-! ### Words -/

/-- No word goes on at the beginning of the text. -/
def EndsWord (rest : List Char) : Prop :=
  rest.head?.any isWordChar = false

theorem endsWord_cons (stops : isWordChar c = false) (rest : List Char) : EndsWord (c :: rest) := by
  simpa [EndsWord] using stops

theorem endsWord_bracket (known : bracket ∈ brackets) (rest : List Char) :
    EndsWord (bracket.toList ++ rest) := by
  fin_cases known
  all_goals exact endsWord_cons (by decide) rest

theorem takeWhile_of_endsWord (ends : EndsWord rest) : rest.takeWhile isWordChar = [] := by
  cases rest with
  | nil => rfl
  | cons c =>
    have stops : isWordChar c = false := by simpa [EndsWord] using ends
    exact takeWhile_cons_of_neg (by simp [stops])

theorem takeWhile_word (word : ∀ c ∈ text.toList, isWordChar c) (ends : EndsWord rest) :
    (text.toList ++ rest).takeWhile isWordChar = text.toList := by
  rw [takeWhile_append_of_pos word, takeWhile_of_endsWord ends, append_nil]

theorem tokensFrom_word (word : isWord text) (ends : EndsWord rest) :
    tokensFrom 0 (text.toList ++ rest) = .word text :: tokensFrom 0 rest := by
  obtain ⟨someChar, wordChars⟩ := isWord_iff.mp word
  have whole := takeWhile_word wordChars ends
  cases chars : text.toList with
  | nil => exact absurd chars someChar
  | cons c others =>
    have starts : isWordChar c := wordChars c (by simp [chars])
    have notBlank : (c == ' ') = false := by
      rw [beq_eq_false_iff_ne]
      rintro rfl
      contradiction
    have length : others.length = text.toList.length - 1 := by
      rw [chars, length_cons, Nat.add_sub_cancel]
    rw [chars, cons_append] at whole
    rw [cons_append, tokensFrom]
    simp only [notBlank, starts, whole, if_true, Bool.false_eq_true, if_false]
    rw [← chars, String.ofList_toList, tokensFrom_append length]

theorem tokensFrom_member (word : isWord name) (ends : EndsWord rest) :
    tokensFrom 0 ('.' :: (name.toList ++ rest)) = .member name :: tokensFrom 0 rest := by
  have point : isWordChar '.' = false := by decide
  rw [tokensFrom]
  simp [point, takeWhile_word (isWord_iff.mp word).2 ends, tokensFrom_append]

theorem tokensFrom_emptyText (rest : List Char) :
    tokensFrom 0 ('"' :: '"' :: rest) = .emptyText :: tokensFrom 0 rest := by
  have quote : isWordChar '"' = false := by decide
  simp [tokensFrom, quote]

/-! ### Texts -/

/-- The text is cut into the tokens wherever it stands, if no word goes on behind it. Its first
character is no equals sign, which would become part of a negation before it. -/
structure Reads (text : String) (tokens : List Token) : Prop where
  start : text.toList.head?.any (· != '=') = true
  cut (rest : List Char) (ends : EndsWord rest) :
    tokensFrom 0 (text.toList ++ rest) = tokens ++ tokensFrom 0 rest

theorem any_head?_append
    (first : front.head?.any test) (back : List Char) : (front ++ back).head?.any test := by
  cases front with
  | nil => contradiction
  | cons => exact first

namespace Reads

theorem tokens_eq (reads : Reads text read) : tokens text = read := by
  have whole := reads.cut [] rfl
  rw [append_nil] at whole
  rw [tokens, whole, tokensFrom, append_nil]

theorem word {text : String} (word : isWord text) : Reads text [.word text] where
  start := by
    obtain ⟨someChar, wordChars⟩ := isWord_iff.mp word
    cases chars : text.toList with
    | nil => exact absurd chars someChar
    | cons c =>
      have starts := wordChars c (by simp [chars])
      have other : c ≠ '=' := by
        rintro rfl
        contradiction
      simpa using other
  cut _ ends := tokensFrom_word word ends

theorem emptyText : Reads "\"\"" [.emptyText] where
  start := by simp
  cut rest _ := by simpa using tokensFrom_emptyText rest

/-- Two texts with an operator and blanks between them. -/
theorem between (leftReads : Reads left leftTokens)
    (known : op ∈ infixSymbols) (rightReads : Reads right rightTokens) :
    Reads (left ++ " " ++ op ++ " " ++ right) (leftTokens ++ .symbol op :: rightTokens) where
  start := by
    simp only [String.toList_append, append_assoc]
    exact any_head?_append leftReads.start _
  cut rest ends := by
    have split : (left ++ " " ++ op ++ " " ++ right).toList ++ rest =
        left.toList ++ ' ' :: (op.toList ++ ' ' :: (right.toList ++ rest)) := by simp
    rw [split, leftReads.cut _ (endsWord_cons (by decide) _), tokensFrom_infix known,
      rightReads.cut rest ends]
    simp

theorem unary (known : op ∈ unaryOperators) (reads : Reads text read) :
    Reads (op ++ text) (.symbol op :: read) where
  start := by
    fin_cases known <;> simp
  cut rest ends := by
    have starts : (text.toList ++ rest).head? ≠ some '=' := by
      intro equals
      have first := any_head?_append reads.start rest
      rw [equals] at first
      contradiction
    rw [String.toList_append, append_assoc, tokensFrom_unary known starts, reads.cut rest ends]
    rfl

theorem enclosed (reads : Reads text read) :
    Reads ("(" ++ text ++ ")") (.symbol "(" :: read ++ [.symbol ")"]) where
  start := by simp
  cut rest _ := by
    have split : ("(" ++ text ++ ")").toList ++ rest =
        "(".toList ++ (text.toList ++ (")".toList ++ rest)) := by simp
    rw [split, tokensFrom_bracket (by decide), reads.cut _ (endsWord_bracket (by decide) _),
      tokensFrom_bracket (by decide)]
    simp

theorem closed (reads : Reads text read) (known : bracket ∈ brackets) :
    Reads (text ++ bracket) (read ++ [.symbol bracket]) where
  start := by
    rw [String.toList_append]
    exact any_head?_append reads.start _
  cut rest _ := by
    rw [String.toList_append, append_assoc, reads.cut _ (endsWord_bracket known _),
      tokensFrom_bracket known]
    simp

/-- Two texts with an opening bracket between them. -/
theorem opened (leftReads : Reads left leftTokens)
    (known : bracket ∈ brackets) (reads : Reads text read) :
    Reads (left ++ bracket ++ text) (leftTokens ++ .symbol bracket :: read) where
  start := by
    simp only [String.toList_append, append_assoc]
    exact any_head?_append leftReads.start _
  cut rest ends := by
    simp only [String.toList_append, append_assoc, leftReads.cut _ (endsWord_bracket known _),
      tokensFrom_bracket known, reads.cut rest ends, cons_append]

theorem member (baseReads : Reads base read) (word : isWord name) :
    Reads (base ++ "." ++ name) (read ++ [.member name]) where
  start := by
    simp only [String.toList_append, append_assoc]
    exact any_head?_append baseReads.start _
  cut rest ends := by
    have split : (base ++ "." ++ name).toList ++ rest =
        base.toList ++ '.' :: (name.toList ++ rest) := by simp
    rw [split, baseReads.cut _ (endsWord_cons (by decide) _), tokensFrom_member word ends]
    simp

/-- Two texts with a comma and a blank between them. -/
theorem listed (leftReads : Reads left leftTokens) (rightReads : Reads right rightTokens) :
    Reads (left ++ ", " ++ right) (leftTokens ++ .symbol "," :: rightTokens) where
  start := by
    simp only [String.toList_append, append_assoc]
    exact any_head?_append leftReads.start _
  cut rest ends := by
    have split : (left ++ ", " ++ right).toList ++ rest =
        left.toList ++ (",".toList ++ ' ' :: (right.toList ++ rest)) := by simp
    rw [split, leftReads.cut _ (endsWord_bracket (by decide) _), tokensFrom_bracket (by decide),
      tokensFrom_blank, rightReads.cut rest ends]
    simp

end Reads

/-! ### Texts of trees -/

/-- The text is that of a tree, and binds at least as tightly as the bound. -/
def Binds (text : String) (bound : Int) (tree : Tree) : Prop :=
  ∃ read level, Reads text read ∧ Derives level read tree ∧ bound ≤ (level : Int)

namespace Binds

/-- A text that binds tightly enough for a place is primary, if nothing binds more tightly. -/
theorem primary (binds : Binds text primaryLevel tree) :
    ∃ read, Reads text read ∧ Derives primaryLevel read tree := by
  obtain ⟨read, level, reads, derives, bounded⟩ := binds
  have same : level = primaryLevel := Nat.le_antisymm derives.level_le (Int.ofNat_le.mp bounded)
  exact ⟨read, reads, same ▸ derives⟩

theorem mono (binds : Binds text bound tree) (less : looser ≤ bound) : Binds text looser tree := by
  obtain ⟨read, level, reads, derives, bounded⟩ := binds
  exact ⟨read, level, reads, derives, Int.le_trans less bounded⟩

theorem word {text : String} (word : isWord text) : Binds text primaryLevel (.word text) :=
  ⟨_, _, .word word, .word text, Int.le_refl _⟩

theorem emptyText : Binds "\"\"" primaryLevel .emptyText :=
  ⟨_, _, .emptyText, .emptyText, Int.le_refl _⟩

theorem enclosed (binds : Binds text bound tree) :
    Binds ("(" ++ text ++ ")") primaryLevel tree := by
  obtain ⟨_, _, reads, derives, -⟩ := binds
  exact ⟨_, _, reads.enclosed, derives.enclosed, Int.le_refl _⟩

theorem index (baseBinds : Binds base primaryLevel baseTree) (binds : Binds text bound tree) :
    Binds (base ++ "[" ++ text ++ "]") primaryLevel (.index baseTree tree) := by
  obtain ⟨_, baseReads, baseDerives⟩ := baseBinds.primary
  obtain ⟨_, _, reads, derives, -⟩ := binds
  exact ⟨_, _, (baseReads.opened (by decide) reads).closed (by decide), baseDerives.index derives,
    Int.le_refl _⟩

theorem member (binds : Binds base primaryLevel tree) (word : isWord name) :
    Binds (base ++ "." ++ name) primaryLevel (.member tree name) := by
  obtain ⟨_, reads, derives⟩ := binds.primary
  exact ⟨_, _, reads.member word, derives.member name, Int.le_refl _⟩

theorem call
    (functionBinds : Binds function primaryLevel functionTree) (binds : Binds text bound tree) :
    Binds (function ++ "(" ++ text ++ ")") primaryLevel (.call functionTree [tree]) := by
  obtain ⟨_, functionReads, functionDerives⟩ := functionBinds.primary
  obtain ⟨_, _, reads, derives, -⟩ := binds
  exact ⟨_, _, (functionReads.opened (by decide) reads).closed (by decide),
    functionDerives.call derives, Int.le_refl _⟩

theorem callTwo (functionBinds : Binds function primaryLevel functionTree)
    (firstBinds : Binds first firstBound firstTree)
    (secondBinds : Binds second secondBound secondTree) :
    Binds (function ++ "(" ++ first ++ ", " ++ second ++ ")") primaryLevel
      (.call functionTree [firstTree, secondTree]) := by
  obtain ⟨_, functionReads, functionDerives⟩ := functionBinds.primary
  obtain ⟨_, _, firstReads, firstDerives, -⟩ := firstBinds
  obtain ⟨_, _, secondReads, secondDerives, -⟩ := secondBinds
  exact ⟨_, _,
    ((functionReads.opened (by decide) firstReads).listed secondReads).closed (by decide),
    functionDerives.callTwo firstDerives secondDerives, Int.le_refl _⟩

theorem unary (known : op ∈ unaryOperators) (binds : Binds text unaryLevel tree) :
    Binds (op ++ text) unaryLevel (.unary op tree) := by
  obtain ⟨_, _, reads, derives, bounded⟩ := binds
  exact ⟨_, _, .unary known reads, derives.unary known (Int.ofNat_le.mp bounded), Int.le_refl _⟩

/-- A binary operator. Powers group to the right, all other operators to the left. -/
theorem binary {left right op : String} {level : Nat} {leftTree rightTree : Tree}
    (known : level? op = some level)
    (leftBinds : Binds left (if op == "**" then level + 1 else level) leftTree)
    (rightBinds : Binds right (if !(op == "**") then level + 1 else level) rightTree) :
    Binds (left ++ " " ++ op ++ " " ++ right) level
      (.binary op leftTree rightTree) := by
  obtain ⟨_, _, leftReads, leftDerives, leftBounded⟩ := leftBinds
  obtain ⟨_, _, rightReads, rightDerives, rightBounded⟩ := rightBinds
  refine ⟨_, _, leftReads.between (mem_infixSymbols known) rightReads, ?_, Int.le_refl _⟩
  by_cases isPower : op = "**"
  · subst isPower
    cases known
    simp only [beq_self_eq_true, if_true] at leftBounded rightBounded
    exact leftDerives.power (by simp only [powerLevel]; omega) rightDerives
      (by simp only [powerLevel]; omega)
  · have other : (op == "**") = false := by simpa using isPower
    simp only [other, Bool.not_false, if_true] at leftBounded rightBounded
    exact .binary known (level?_lt known isPower) leftDerives (by omega) rightDerives (by omega)

theorem equality (leftBinds : Binds left 3 leftTree)
    (rightBinds : Binds right bound rightTree) (tighter : 3 < bound) :
    Binds (left ++ " == " ++ right) 3 (.binary "==" leftTree rightTree) := by
  have split : left ++ " == " ++ right = left ++ " " ++ "==" ++ " " ++ right := by
    apply String.toList_inj.mp
    simp
  rw [split]
  exact binary rfl leftBinds (rightBinds.mono tighter)

theorem ternary (conditionBinds : Binds condition 1 conditionTree)
    (trueBinds : Binds whenTrue trueBound trueTree)
    (falseBinds : Binds whenFalse falseBound falseTree) :
    Binds (condition ++ " ? " ++ whenTrue ++ " : " ++ whenFalse) ternaryLevel
      (.ternary conditionTree trueTree falseTree) := by
  obtain ⟨_, _, conditionReads, conditionDerives, bounded⟩ :=
    conditionBinds
  obtain ⟨_, _, trueReads, trueDerives, -⟩ := trueBinds
  obtain ⟨_, _, falseReads, falseDerives, -⟩ := falseBinds
  have split : condition ++ " ? " ++ whenTrue ++ " : " ++ whenFalse =
      condition ++ " " ++ "?" ++ " " ++ whenTrue ++ " " ++ ":" ++ " " ++ whenFalse := by
    apply String.toList_inj.mp
    simp
  rw [split]
  have question : "?" ∈ infixSymbols := by decide
  have colon : ":" ∈ infixSymbols := by decide
  refine ⟨_, _, (conditionReads.between question trueReads).between colon falseReads, ?_,
    Int.le_refl _⟩
  exact conditionDerives.ternary (Int.ofNat_le.mp bounded) trueDerives falseDerives

end Binds

/-- The text is an expression of one tree only, which reading it finds. -/
structure ReadAs (text : String) (tree : Tree) : Prop where
  derives : ∃ level, Derives level (tokens text) tree
  unique : ∀ level other, Derives level (tokens text) other → other = tree
  parsed : parse (tokens text) = some tree

theorem Binds.readAs (binds : Binds text bound tree) : ReadAs text tree := by
  obtain ⟨_, level, reads, derives, -⟩ := binds
  rw [← reads.tokens_eq] at derives
  exact ⟨⟨level, derives⟩, fun _ _ other => derives.unique other, parse_of_derives derives⟩

end ContractForge.Grammar
