import ContractForge.Proofs.Syntax.Progress
import ContractForge.Proofs.Syntax.Role

/-!
# Tokens and the trees read from them

Every class that the tokens open is in the tree that is read from them, and so is
every method, with the name that follows its keyword. In return, every variable and
every call in the tree has the text of a token for its name; unless it is a call with
a receiver, that token does not stand behind a dot. `Covers` says so; this module has
the rules for putting trees together that keep it, and the rules for parsers that do.
-/

namespace ContractForge

open List

variable {nodes : List Node} {tokens more second : List Token} {kind : TokenKind} {node : Node}
  {kinds : List TokenKind}

/-! ### Definitions and names in trees -/

/-- The kinds of definitions, names and constants. -/
@[simp] def Kind.isNotable : Kind → Bool
  | .classDef | .methodDef | .identifier | .call | .methodCall | .constant => true
  | _ => false

namespace Node

theorem walkFrom_cons (node : Node) :
    walkFrom (node :: pending) = node :: walkFrom (node.children ++ pending) := by
  rw [walkFrom]

theorem walkFrom_append (second : List Node) :
    walkFrom (first ++ second) = walkFrom first ++ walkFrom second := by
  fun_induction walkFrom first with
  | case1 => rfl
  | case2 _ _ ih =>
    rw [cons_append, walkFrom_cons, ← append_assoc, ih]
    rfl

/-- The definitions, names and constants in trees. -/
def notables (nodes : List Node) : List Node :=
  (walkFrom nodes).filter fun node => node.kind.isNotable

theorem mem_notables : node ∈ notables nodes ↔ node ∈ walkFrom nodes ∧ node.kind.isNotable := by
  simp [notables]

@[simp] theorem notables_nil : notables [] = [] := by
  simp [notables, walkFrom]

@[simp] theorem notables_append (second : List Node) :
    notables (first ++ second) = notables first ++ notables second := by
  simp [notables, walkFrom_append]

theorem notables_cons (first : Node) (rest : List Node) :
    notables (first :: rest) = notables [first] ++ notables rest := by
  rw [← notables_append]
  rfl

@[simp] theorem notables_cons_cons (second : Node) :
    notables (first :: second :: rest) = notables [first] ++ notables (second :: rest) :=
  notables_cons first (second :: rest)

theorem notables_eq (node : Node) (rest : List Node) :
    notables (node :: rest) = (if node.kind.isNotable then [node] else []) ++
      (notables node.children ++ notables rest) := by
  rw [notables, walkFrom_cons, filter_cons, walkFrom_append, filter_append]
  split <;> rfl

@[simp] theorem notables_nodeAt (kind : Kind) (payload : Payload) :
    notables (Parse.nodeAt place kind parts payload :: rest) =
      (if kind.isNotable then [Parse.nodeAt place kind parts payload] else []) ++
        (notables parts ++ notables rest) :=
  notables_eq _ rest

@[simp] theorem notables_leaf (kind : Kind) :
    notables (Parse.leaf place kind :: rest) =
      (if kind.isNotable then [Parse.leaf place kind] else []) ++ notables rest := by
  rw [Parse.leaf, notables_nodeAt, notables_nil, nil_append]

/-- The node names a variable or a method that is called. -/
def IsName (node : Node) : Prop :=
  node.kind = .identifier ∨ node.kind = .call ∨ node.kind = .methodCall

def DefinesMethod (node : Node) (name : String) : Prop :=
  node.kind = .methodDef ∧ node.methodName = .ok (.text name)

end Node

/-- The class of tokens neither opens definitions nor is that of dots or of the end. -/
def TokenKind.isPlain : TokenKind → Bool
  | .endOfInput | .keyword .classKw | .keyword .defKw | .mark .dot => false
  | _ => true

theorem TokenKind.isPlain_iff : kind.isPlain ↔ kind ≠ .endOfInput ∧
    kind ≠ .keyword .classKw ∧ kind ≠ .keyword .defKw ∧ kind ≠ .mark .dot := by
  unfold isPlain
  split <;> simp_all

/-- The token can name a variable or a method. -/
def Token.IsName (token : Token) : Prop :=
  token.kind = .identifier ∨ token.kind = .constant

namespace Parse

open Node

/-! ### Definitions and names in tokens -/

def EndsInDot (tokens : List Token) : Prop :=
  tokens.getLast?.map Token.kind = some (.mark .dot)

theorem endsInDot_concat : EndsInDot (tokens ++ [token]) ↔ token.kind = .mark .dot := by
  simp [EndsInDot]

/-- One of the tokens gives the node its name. If the node has no receiver, the token does not
stand behind a dot. -/
def IsMentioned (tokens : List Token) (node : Node) : Prop :=
  ∃ front token back, tokens = front ++ token :: back ∧ token.IsName ∧
    (node.payload = .text token.value ∨ node.payload = .text (token.value ++ "=")) ∧
    (node.kind ≠ .methodCall → ¬EndsInDot front)

/-- The trees hold a method of the given name, or the setter of that name. -/
def HoldsMethod (nodes : List Node) (name : String) : Prop :=
  ∃ node ∈ notables nodes, node.DefinesMethod name ∨ node.DefinesMethod (name ++ "=")

/-- Every keyword of a method is followed by a name, and the trees hold the method. -/
def OpensMethods (tokens : List Token) (nodes : List Node) : Prop :=
  ∀ front token back, tokens = front ++ token :: back → token.kind = .keyword .defKw →
    ∃ name rest, back = name :: rest ∧ name.IsName ∧ HoldsMethod nodes name.value

theorem opensMethods_of_plain (plain : ∀ token ∈ tokens, token.kind ≠ .keyword .defKw) :
    OpensMethods tokens nodes := by
  rintro front token back rfl isDef
  exact absurd isDef (plain token (by simp))

theorem OpensMethods.append (ofFirst : OpensMethods first nodes)
    (ofSecond : OpensMethods second nodes) : OpensMethods (first ++ second) nodes := by
  intro front token back split isDef
  obtain ⟨between, -, isSecond⟩ | ⟨between, isFirst, isBack⟩ :=
    append_eq_append_iff.mp split
  · exact ofSecond between token back isSecond isDef
  · cases between with
    | nil => exact ofSecond [] token back (by simpa using isBack.symm) isDef
    | cons _ between =>
      obtain ⟨rfl, rfl⟩ := List.cons.inj isBack
      obtain ⟨name, rest, rfl, isName, defined⟩ := ofFirst front token between isFirst isDef
      exact ⟨name, rest ++ second, rfl, isName, defined⟩

theorem OpensMethods.cons {keyword name : Token} {rest : List Token} {nodes : List Node}
    (later : OpensMethods (name :: rest) nodes) (isName : name.IsName)
    (defined : HoldsMethod nodes name.value) : OpensMethods (keyword :: name :: rest) nodes := by
  intro front token back split isDef
  cases front with
  | nil =>
    obtain ⟨rfl, rfl⟩ := List.cons.inj split
    exact ⟨name, rest, rfl, isName, defined⟩
  | cons _ front => exact later front token back (List.cons.inj split).2 isDef

theorem OpensMethods.mono (opens : OpensMethods tokens nodes)
    (kept : ∀ name, (∃ node ∈ notables nodes, node.DefinesMethod name) →
      ∃ node ∈ notables others, node.DefinesMethod name) : OpensMethods tokens others := by
  intro front token back split isDef
  obtain ⟨name, rest, isBack, isName, node, mem, defined⟩ := opens front token back split isDef
  refine ⟨name, rest, isBack, isName, ?_⟩
  obtain defined | defined := defined
  · obtain ⟨other, mem, defined⟩ := kept _ ⟨node, mem, defined⟩
    exact ⟨other, mem, .inl defined⟩
  · obtain ⟨other, mem, defined⟩ := kept _ ⟨node, mem, defined⟩
    exact ⟨other, mem, .inr defined⟩

/-- The trees hold the definitions that the tokens open, and take their names from the tokens.
Constants have nothing below them. -/
structure Covers (tokens : List Token) (nodes : List Node) : Prop where
  closed : ¬EndsInDot tokens
  classes : ∀ token ∈ tokens, token.kind = .keyword .classKw →
    ∃ node ∈ notables nodes, node.kind = .classDef
  methods : OpensMethods tokens nodes
  names : ∀ node ∈ notables nodes, node.IsName → IsMentioned tokens node
  constants : ∀ node ∈ notables nodes, node.kind = .constant → node.children = []

namespace Covers

variable {tokens skipped : List Token} {nodes hand : List Node}
  {token dot keyword nameToken : Token}

theorem nil : Covers [] [] where
  closed := by simp [EndsInDot]
  classes := by simp
  methods := opensMethods_of_plain (by simp)
  names := by simp
  constants := by simp

/-! ### Other trees for the same tokens -/

section

variable (covers : Covers tokens nodes)
include covers

/-- The trees can be put together in another way, if no definition is lost and every name is one
that was there. -/
theorem rebuild (classes : (∃ node ∈ notables nodes, node.kind = .classDef) →
      ∃ node ∈ notables others, node.kind = .classDef)
    (methods : ∀ name, (∃ node ∈ notables nodes, node.DefinesMethod name) →
      ∃ node ∈ notables others, node.DefinesMethod name)
    (names : ∀ node ∈ notables others, node.IsName → ∃ named ∈ notables nodes, named.IsName ∧
      named.payload = node.payload ∧ (node.kind ≠ .methodCall → named.kind ≠ .methodCall))
    (constants : ∀ node ∈ notables others, node.kind = .constant → node.children = []) :
    Covers tokens others where
  closed := covers.closed
  classes := fun token mem isClass => classes (covers.classes token mem isClass)
  methods := covers.methods.mono methods
  names := by
    intro node mem isName
    obtain ⟨named, isNamed, isName, payload, receiver⟩ := names node mem isName
    obtain ⟨front, token, back, split, isToken, spelled, bare⟩ := covers.names named isNamed isName
    exact ⟨front, token, back, split, isToken, payload ▸ spelled, bare ∘ receiver⟩
  constants := constants

/-- The trees can be put together in another way and order, and a node that is no definition can be
left out. -/
theorem forget (plain : dropped.kind ≠ .classDef ∧ dropped.kind ≠ .methodDef)
    (same : ∀ node, node ∈ notables nodes ↔ node = dropped ∨ node ∈ notables others) :
    Covers tokens others := by
  have kept {node : Node} (mem : node ∈ notables nodes)
      (isDefinition : node.kind = .classDef ∨ node.kind = .methodDef) : node ∈ notables others := by
    refine ((same node).mp mem).resolve_left ?_
    rintro rfl
    exact isDefinition.elim plain.1 plain.2
  have old {node : Node} (mem : node ∈ notables others) : node ∈ notables nodes :=
    (same node).mpr (.inr mem)
  refine covers.rebuild ?_ ?_ (fun node mem isName => ⟨node, old mem, isName, rfl, id⟩)
    fun node mem => covers.constants node (old mem)
  · rintro ⟨node, mem, isClass⟩
    exact ⟨node, kept mem (.inl isClass), isClass⟩
  · rintro method ⟨node, mem, isMethod, isNamed⟩
    exact ⟨node, kept mem (.inr isMethod), isMethod, isNamed⟩

/-- The trees can be put together in another way and order. -/
theorem shuffle (same : ∀ node, node ∈ notables nodes ↔ node ∈ notables others) :
    Covers tokens others := by
  refine covers.rebuild ?_ ?_ (fun node mem isName => ⟨node, (same node).mpr mem, isName, rfl, id⟩)
    fun node mem => covers.constants node ((same node).mpr mem)
  · rintro ⟨node, mem, isClass⟩
    exact ⟨node, (same node).mp mem, isClass⟩
  · rintro method ⟨node, mem, defines⟩
    exact ⟨node, (same node).mp mem, defines⟩

theorem recast (same : notables nodes = notables others) : Covers tokens others :=
  covers.shuffle (by simp [same])

/-- A call takes the place of the name that it starts with. -/
theorem call {kind called : Kind}
    (isCall : kind = .identifier ∧ called = .call ∨ kind = .methodCall ∧ called = .methodCall)
    (same : ∀ node, node ∈ notables nodes ↔
      node = leaf name kind ∨ node ∈ notables hand ∨ node ∈ notables parts) :
    Covers tokens (hand ++ [nodeAt name called parts (.text name.value)]) := by
  have isName : (leaf name kind).IsName := by
    obtain ⟨rfl, -⟩ | ⟨rfl, -⟩ := isCall
    · exact .inl rfl
    · exact .inr (.inr rfl)
  have mem_iff {node : Node} :
      node ∈ notables (hand ++ [nodeAt name called parts (.text name.value)]) ↔
        node ∈ notables hand ∨ node = nodeAt name called parts (.text name.value) ∨
          node ∈ notables parts := by
    obtain ⟨-, rfl⟩ | ⟨-, rfl⟩ := isCall <;> simp
  have kept {node : Node} (mem : node ∈ notables nodes) (notName : ¬node.IsName) :
      node ∈ notables (hand ++ [nodeAt name called parts (.text name.value)]) := by
    obtain rfl | mem | mem := (same node).mp mem
    · exact absurd isName notName
    · exact mem_iff.mpr (.inl mem)
    · exact mem_iff.mpr (.inr (.inr mem))
  refine covers.rebuild ?_ ?_ ?_ ?_
  · rintro ⟨node, mem, isClass⟩
    exact ⟨node, kept mem (by simp [IsName, isClass]), isClass⟩
  · rintro method ⟨node, mem, isMethod, isNamed⟩
    exact ⟨node, kept mem (by simp [IsName, isMethod]), isMethod, isNamed⟩
  · intro node mem isNamed
    obtain mem | rfl | mem := mem_iff.mp mem
    · exact ⟨node, (same node).mpr (.inr (.inl mem)), isNamed, rfl, id⟩
    · refine ⟨leaf name kind, (same _).mpr (.inl rfl), isName, rfl, ?_⟩
      obtain ⟨rfl, rfl⟩ | ⟨rfl, rfl⟩ := isCall
      · exact fun _ => by simp [leaf, nodeAt]
      · exact id
    · exact ⟨node, (same node).mpr (.inr (.inr mem)), isNamed, rfl, id⟩
  · intro node mem isConstant
    obtain mem | rfl | mem := mem_iff.mp mem
    · exact covers.constants node ((same node).mpr (.inr (.inl mem))) isConstant
    · obtain ⟨-, rfl⟩ | ⟨-, rfl⟩ := isCall <;> simp [nodeAt] at isConstant
    · exact covers.constants node ((same node).mpr (.inr (.inr mem))) isConstant

/-- A definition takes the place of one that was unfinished, with the parts that were read since. -/
theorem define (unfinished : Node) {kind : Kind} {payload : Payload}
    (sameKind : unfinished.kind = kind) (isDefinition : kind = .classDef ∨ kind = .methodDef)
    (sameName : kind = .methodDef →
      unfinished.methodName = (nodeAt place kind parts payload).methodName)
    (same : ∀ node, node ∈ notables nodes ↔
      node = unfinished ∨ node ∈ notables hand ∨ node ∈ notables parts) :
    Covers tokens (hand ++ [nodeAt place kind parts payload]) := by
  have mem_iff {node : Node} : node ∈ notables (hand ++ [nodeAt place kind parts payload]) ↔
      node = nodeAt place kind parts payload ∨ node ∈ notables hand ∨ node ∈ notables parts := by
    obtain rfl | rfl := isDefinition <;> simp [or_left_comm]
  have isOld {node : Node} (mem : node ∈ notables (hand ++ [nodeAt place kind parts payload]))
      (isOther : node.kind ≠ .classDef ∧ node.kind ≠ .methodDef) : node ∈ notables nodes := by
    refine (same node).mpr (.inr ((mem_iff.mp mem).resolve_left ?_))
    rintro rfl
    exact isDefinition.elim isOther.1 isOther.2
  refine covers.rebuild ?_ ?_ ?_ ?_
  · rintro ⟨node, mem, isClass⟩
    obtain rfl | mem := (same node).mp mem
    · exact ⟨_, mem_iff.mpr (.inl rfl), sameKind.symm.trans isClass⟩
    · exact ⟨node, mem_iff.mpr (.inr mem), isClass⟩
  · rintro method ⟨node, mem, isMethod, isNamed⟩
    obtain rfl | mem := (same node).mp mem
    · have isMethod := sameKind.symm.trans isMethod
      exact ⟨_, mem_iff.mpr (.inl rfl), isMethod, sameName isMethod ▸ isNamed⟩
    · exact ⟨node, mem_iff.mpr (.inr mem), isMethod, isNamed⟩
  · intro node mem isName
    refine ⟨node, isOld mem ?_, isName, rfl, id⟩
    obtain isName | isName | isName := isName <;> simp [isName]
  · intro node mem isConstant
    exact covers.constants node (isOld mem (by simp [isConstant])) isConstant

/-- More trees, whose names are those of tokens. -/
theorem add (mentioned : ∀ node ∈ notables others, node.IsName → IsMentioned tokens node)
    (constants : ∀ node ∈ notables others, node.kind = .constant → node.children = []) :
    Covers tokens (nodes ++ others) where
  closed := covers.closed
  classes := by
    intro token mem isClass
    obtain ⟨node, mem, isDefinition⟩ := covers.classes token mem isClass
    exact ⟨node, by simp [mem], isDefinition⟩
  methods := covers.methods.mono fun _ ⟨node, mem, defines⟩ => ⟨node, by simp [mem], defines⟩
  names := by
    rw [notables_append]
    exact forall_mem_append.mpr ⟨covers.names, mentioned⟩
  constants := by
    rw [notables_append]
    exact forall_mem_append.mpr ⟨covers.constants, constants⟩

/-! ### More tokens -/

/-- More tokens, of which the last is no dot and whose definitions are there. -/
theorem extend (closed : ¬EndsInDot (tokens ++ more)) (methods : OpensMethods more nodes)
    (classes : ∀ token ∈ more, token.kind = .keyword .classKw →
      ∃ node ∈ notables nodes, node.kind = .classDef)
    : Covers (tokens ++ more) nodes where
  closed := closed
  classes := forall_mem_append.mpr ⟨covers.classes, classes⟩
  methods := covers.methods.append methods
  names := by
    intro node mem isName
    obtain ⟨front, token, back, rfl, mentioned⟩ := covers.names node mem isName
    exact ⟨front, token, back ++ more, by simp, mentioned⟩
  constants := covers.constants

theorem take (isKind : token.kind = kind) (plain : kind.isPlain)
    : Covers (tokens ++ [token]) nodes := by
  obtain ⟨-, notClass, notDef, _⟩ := TokenKind.isPlain_iff.mp plain
  refine covers.extend ?_ (opensMethods_of_plain (by simpa [isKind] using notDef))
    (by simp [isKind, notClass])
  rwa [endsInDot_concat, isKind]

theorem takeAll (areKinds : ∀ token ∈ more, token.kind ∈ kinds)
    (plain : kinds.all TokenKind.isPlain) : Covers (tokens ++ more) nodes := by
  induction more generalizing tokens with
  | nil => simpa using covers
  | cons _ _ ih =>
    obtain ⟨here, later⟩ := forall_mem_cons.mp areKinds
    rw [append_cons]
    exact ih (covers.take rfl (all_eq_true.mp plain _ here)) later

end

theorem isPlain_of_isName (isName : token.IsName) : token.kind.isPlain := by
  obtain isName | isName := isName <;> rw [isName] <;> rfl

/-- A node with nothing below it, whose name is that of a token if it is a name. -/
theorem addLeaf (covers : Covers tokens nodes) (isLeaf : node.children = [])
    (mentioned : node.IsName → IsMentioned tokens node) : Covers tokens (nodes ++ [node]) := by
  have alone {other : Node} (mem : other ∈ notables [node]) : other = node := by
    rw [notables_eq, isLeaf, notables_nil, append_nil, append_nil] at mem
    split at mem
    · exact mem_singleton.mp mem
    · contradiction
  refine covers.add (fun other mem isName => ?_) fun other mem _ => ?_
  · obtain rfl := alone mem
    exact mentioned isName
  · obtain rfl := alone mem
    exact isLeaf

/-- A token that names something, and a node for what it names. -/
theorem name (covers : Covers tokens nodes) (isName : token.IsName) (kind : Kind) :
    Covers (tokens ++ [token]) (nodes ++ [leaf token kind]) := by
  refine (covers.take rfl (isPlain_of_isName isName)).addLeaf rfl fun _ => ?_
  exact ⟨tokens, token, [], rfl, isName, .inl rfl, fun _ => covers.closed⟩

/-- A token that names a method behind a dot, and a node for the method that is called. -/
theorem dotted (covers : Covers tokens nodes) (isDot : dot.kind = .mark .dot)
    (areSkipped : ∀ token ∈ skipped, token.kind ∈ [TokenKind.newline]) (isName : token.IsName) :
    Covers (tokens ++ [dot] ++ skipped ++ [token]) (nodes ++ [leaf token .methodCall]) := by
  obtain ⟨-, notClass, notDef, _⟩ := TokenKind.isPlain_iff.mp (isPlain_of_isName isName)
  have plain : ∀ other ∈ [dot] ++ skipped ++ [token],
      other.kind ≠ .keyword .classKw ∧ other.kind ≠ .keyword .defKw := by
    intro other mem
    rw [mem_append, mem_append, mem_singleton, mem_singleton] at mem
    obtain (rfl | mem) | rfl := mem
    · simp [isDot]
    · simp [mem_singleton.mp (areSkipped other mem)]
    · exact ⟨notClass, notDef⟩
  have taken : Covers (tokens ++ ([dot] ++ skipped ++ [token])) nodes := by
    refine covers.extend ?_ (opensMethods_of_plain fun other mem => (plain other mem).2)
      fun other mem isClass => absurd isClass (plain other mem).1
    rwa [← append_assoc, endsInDot_concat]
  rw [← append_assoc, ← append_assoc] at taken
  refine taken.addLeaf rfl fun _ => ?_
  exact ⟨tokens ++ [dot] ++ skipped, token, [], rfl, isName, .inl rfl, fun other => absurd rfl
  other⟩

theorem opensClass (covers : Covers tokens nodes) (isClass : token.kind = .keyword .classKw) :
    Covers (tokens ++ [token]) (nodes ++ [leaf token .classDef]) := by
  have added : Covers tokens (nodes ++ [leaf token .classDef]) :=
    covers.addLeaf rfl fun isName => by simp [IsName, leaf, nodeAt] at isName
  refine added.extend ?_ (opensMethods_of_plain (by simp [isClass])) fun _ _ _ => ?_
  · simp [endsInDot_concat, isClass]
  · exact ⟨leaf token .classDef, by simp, rfl⟩

/-- A node for a method of which only the name is known. -/
def unfinishedMethod (keyword nameToken : Token) (name : String) : Node :=
  nodeAt keyword .methodDef [nodeAt nameToken .literal [] (.text name)] .absent

/-- The name of a method as it is written behind the keyword, with the mark of a setter if it has
one. -/
inductive NamesMethod (nameToken : Token) : List Token → String → Prop where
  | plain : NamesMethod nameToken [nameToken] nameToken.value
  | setter (isMark : mark.kind = .mark .eq) :
      NamesMethod nameToken [nameToken, mark] (nameToken.value ++ "=")

/-- The keyword and the name of a method, and nodes for the method and for its name. -/
theorem opensMethod (covers : Covers tokens nodes)
    (isDef : keyword.kind = .keyword .defKw) (isName : nameToken.IsName) {name : String}
    (named : NamesMethod nameToken more name) :
    Covers (tokens ++ keyword :: more) (nodes ++
      [unfinishedMethod keyword nameToken name, nodeAt nameToken .identifier [] (.text name)]) := by
  obtain ⟨-, notClass, notDef, _⟩ := TokenKind.isPlain_iff.mp (isPlain_of_isName isName)
  have isMethod : notables [unfinishedMethod keyword nameToken name] =
      [unfinishedMethod keyword nameToken name] := by
    simp [unfinishedMethod]
  have added : Covers tokens (nodes ++ [unfinishedMethod keyword nameToken name]) := by
    refine covers.add (fun node mem isName => ?_) fun node mem isConstant => ?_
    · rw [isMethod, mem_singleton] at mem
      simp [mem, IsName, unfinishedMethod, nodeAt] at isName
    · rw [isMethod, mem_singleton] at mem
      simp [mem, unfinishedMethod, nodeAt] at isConstant
  have isDefined : HoldsMethod (nodes ++ [unfinishedMethod keyword nameToken name])
      nameToken.value := by
    refine ⟨unfinishedMethod keyword nameToken name, by simp [isMethod], ?_⟩
    cases named with
    | plain => exact .inl ⟨rfl, rfl⟩
    | setter => exact .inr ⟨rfl, rfl⟩
  have opens : Covers (tokens ++ keyword :: more)
      (nodes ++ [unfinishedMethod keyword nameToken name]) := by
    cases named with
    | plain =>
      refine added.extend ?_ (.cons ?_ isName isDefined) ?_
      · rwa [append_cons, endsInDot_concat]
      · exact opensMethods_of_plain (by simpa using notDef)
      · simp [isDef, notClass]
    | setter isMark =>
      refine added.extend ?_ (.cons ?_ isName isDefined) ?_
      · simp [EndsInDot, isMark]
      · exact opensMethods_of_plain (by simp [isMark, notDef])
      · simp [isDef, isMark, notClass]
  rw [append_cons nodes]
  refine opens.addLeaf rfl fun _ => ?_
  refine ⟨tokens ++ [keyword], nameToken, more.tail, ?_, isName, ?_, fun _ => ?_⟩
  · cases named <;> simp
  · cases named
    · exact .inl rfl
    · exact .inr rfl
  · simp [endsInDot_concat, isDef]

end Covers

/-! ### Parsers that add trees -/

/-- The trees cover the tokens, of which there are at least as many as given. -/
structure Holds (floor : Nat) (tokens : List Token) (nodes : List Node) : Prop where
  covers : Covers tokens nodes
  atLeast : floor ≤ tokens.length

namespace Holds

variable {floor count : Nat} {tokens : List Token} {nodes : List Node} {token : Token}
  (holds : Holds floor tokens nodes)
include holds

theorem least (atMost : lower ≤ floor) : Holds lower tokens nodes :=
  ⟨holds.covers, Nat.le_trans atMost holds.atLeast⟩

theorem exact : Holds tokens.length tokens nodes :=
  ⟨holds.covers, Nat.le_refl _⟩

theorem exceeds (less : count < floor) : count < tokens.length :=
  Nat.lt_of_lt_of_le less holds.atLeast

theorem shuffle (atMost : lower ≤ floor)
    (same : ∀ node, node ∈ notables nodes ↔ node ∈ notables others) : Holds lower tokens others :=
  ⟨holds.covers.shuffle same, Nat.le_trans atMost holds.atLeast⟩

theorem recast (atMost : lower ≤ floor) (same : notables nodes = notables others) :
    Holds lower tokens others :=
  holds.shuffle atMost (by simp [same])

theorem take (isKind : token.kind = kind) (plain : kind.isPlain) :
    Holds (floor + 1) (tokens ++ [token]) nodes :=
  ⟨holds.covers.take isKind plain, by simpa using holds.atLeast⟩

theorem name (isName : token.IsName) (kind : Kind) :
    Holds (floor + 1) (tokens ++ [token]) (nodes ++ [leaf token kind]) :=
  ⟨holds.covers.name isName kind, by simpa using holds.atLeast⟩

end Holds

section

variable {α : Type} {input : Input} {token : Token} {taken : List Token} {hand : List Node}
  {floor : Nat} {kind : TokenKind} {property : List Token → α → Prop}

/-- A token that opens no definition is consumed. -/
theorem ReadsFrom.take {next : Token → Parse α} (holds : Holds floor taken hand)
    (isKind : token.kind = kind) (plain : kind.isPlain)
    (second : ∀ tokens, Holds (floor + 1) tokens hand → Reads input tokens property (next token)) :
    ReadsFrom input token taken property (Parse.advance >>= next) :=
  .advance (isKind ▸ (TokenKind.isPlain_iff.mp plain).1) (second _ (holds.take isKind plain))

/-- A token of a class that opens no definition is consumed. -/
theorem Reads.demand {next : Token → Parse α} (holds : Holds floor taken hand)
    (plain : kind.isPlain) (second : ∀ token tokens, Holds (floor + 1) tokens hand →
      Reads input tokens property (next token)) :
    Reads input taken property (Parse.expect kind detail >>= next) :=
  .expect (TokenKind.isPlain_iff.mp plain).1 fun token _ isKind =>
    second token _ (holds.take isKind plain)

/-- Line ends and the like are passed over. -/
theorem Reads.pass {next : Unit → Parse α} (holds : Holds floor taken hand)
    (plain : kinds.all TokenKind.isPlain)
    (second : ∀ tokens, Holds floor tokens hand → Reads input tokens property (next ())) :
    Reads input taken property (skipAll kinds >>= next) :=
  .skip (fun isEnd => Bool.false_ne_true (all_eq_true.mp plain _ isEnd)) fun skipped areSkipped =>
    second _ ⟨holds.covers.takeAll areSkipped plain, by
    rw [length_append]
    exact Nat.le_add_right_of_le holds.atLeast⟩

end

/-- The node fits the role if the tokens have texts of their classes, and with it the trees cover
the tokens. -/
def Gets (input : Input) (role : Role) (floor : Nat) (hand : List Node) (tokens : List Token)
    (node : Node) : Prop :=
  (input.IsWritten → node.Fits role) ∧ Holds floor tokens (hand ++ [node])

/-- The same for several nodes. -/
def GetsAll (input : Input) (role : Role) (floor : Nat) (hand : List Node) (tokens : List Token)
    (nodes : List Node) : Prop :=
  (input.IsWritten → ∀ node ∈ nodes, node.Fits role) ∧ Holds floor tokens (hand ++ nodes)

/-- Wherever fewer tokens than the depth are left, the parser gives back a node that fits the role,
a tree for the tokens that it takes. They are at least as many as given. -/
def ReadsNode (input : Input) (depth gain : Nat) (role : Role) (parser : Parse Node) : Prop :=
  ∀ ⦃floor : Nat⦄ ⦃taken : List Token⦄ ⦃hand : List Node⦄,
    input.tokens.length < floor + depth → Holds floor taken hand →
      Reads input taken (Gets input role (floor + gain) hand) parser

/-- The same for a parser that gives back several nodes. -/
def ReadsNodes (input : Input) (depth gain : Nat) (role : Role) (parser : Parse (List Node)) :
    Prop :=
  ∀ ⦃floor : Nat⦄ ⦃taken : List Token⦄ ⦃hand : List Node⦄,
    input.tokens.length < floor + depth → Holds floor taken hand →
      Reads input taken (GetsAll input role (floor + gain) hand) parser

/-- The productions that others start over with are read wherever fewer tokens than the depth are
left. All but the body take a token. -/
structure Rules.Read (input : Input) (depth : Nat) (rules : Rules) : Prop where
  expression : ReadsNode input depth 1 .operand rules.expression
  expressionStatement : ReadsNode input depth 1 .operand rules.expressionStatement
  keywordNot : ReadsNode input depth 1 .operand rules.keywordNot
  ternary : ReadsNode input depth 1 .operand rules.ternary
  negation : ReadsNode input depth 1 .operand rules.negation
  unary : ReadsNode input depth 1 .operand rules.unary
  body (closers : List TokenKind) : ReadsNode input depth 0 .body (rules.body closers)

section

variable {input : Input} {role : Role} {floor : Nat} {hand nodes : List Node} {tokens : List Token}
  {node : Node}

theorem getsAll_nil (holds : Holds floor tokens hand) : GetsAll input role floor hand tokens [] :=
  ⟨by simp, by simpa using holds⟩

theorem fits_concat (fit : input.IsWritten → ∀ node ∈ nodes, node.Fits role)
    (fits : input.IsWritten → node.Fits role) (written : input.IsWritten) :
    ∀ mem ∈ nodes ++ [node], mem.Fits role :=
  forall_mem_append.mpr ⟨fit written, by simpa using fits written⟩

theorem getsAll_concat (fit : input.IsWritten → ∀ node ∈ nodes, node.Fits role)
    (gets : Gets input role floor (hand ++ nodes) tokens node) :
    GetsAll input role floor hand tokens (nodes ++ [node]) :=
  ⟨fits_concat fit gets.1, append_assoc hand nodes [node] ▸ gets.2⟩

end

end Parse

end ContractForge
