import ContractForge.Decimal.Shortest
import ContractForge.Source.Error

/-!
# Syntax trees

Every tree is built of one kind of node: a kind from a closed list, a payload,
the place it was read from and the nodes below it. Kinds that stand for single
words are leaves. Some inner kinds use the payload as a tag: the operator of a
binary node, the method name of a call.
-/

namespace ContractForge

/-- What tells the values of names and tables apart. -/
inductive Key where
  | absent
  | whole (value : Int)
  /-- A number that is no integer, by its bits. -/
  | real (bits : UInt64)
  | text (value : String)
deriving DecidableEq

/-- What a node carries besides its children. -/
inductive Payload where
  | absent
  | integer (value : Int)
  | real (value : Float)
  | text (value : String)
  | boolean (value : Bool)

namespace Payload

/-- What a payload is told apart by. Numbers of different kinds can be the same value, and truth
values count as one and zero. What is not a number differs from everything, also from itself. -/
def key? : Payload → Option Key
  | absent => some .absent
  | integer value => some (.whole value)
  | boolean value => some (.whole (if value then 1 else 0))
  | text value => some (.text value)
  | real value =>
    if value.isNaN then none
    else some (((Decimal.whole? value).map Key.whole).getD (.real value.toBits))

def isSame (left right : Payload) : Bool :=
  match left.key?, right.key? with
  | some left, some right => left == right
  | _, _ => false

instance : BEq Payload := ⟨isSame⟩

def text? : Payload → Option String
  | text value => some value
  | _ => none

def isText (payload : Payload) (expected : String) : Bool :=
  payload.text? == some expected

def isOneOf (payload : Payload) (expected : List String) : Bool :=
  payload.text?.any expected.contains

/-- Whether the payload says anything: it is there, and neither zero, false nor empty. -/
def isGiven : Payload → Bool
  | absent => false
  | integer value => value != 0
  | real value => value != 0
  | text value => value != ""
  | boolean value => value

/-- The payload as outlines and messages show it. -/
def shown : Payload → String
  | absent => "None"
  | integer value => toString value
  | real value => Decimal.shortest value
  | text value => Text.quoted value
  | boolean true => "True"
  | boolean false => "False"

/-- The payload as it is spliced into a message: texts stand without quotes. -/
def spliced : Payload → String
  | text value => value
  | payload => payload.shown

end Payload

inductive Kind where
  | program | importFile | classDef | moduleDef | body | methodDef | params | param | marker
  | inclusion | accessor
  | assignment | conditional | loop | returnFrom | breakLoop | nextLoop
  | call | methodCall | args | block | blockParams
  | binary | unary | ternary | index | array | hash | pair
  | literal | interpolated | symbol | identifier | ivar | constant | selfRef
deriving DecidableEq, Repr

namespace Kind

def name : Kind → String
  | program => "program" | importFile => "import" | classDef => "class" | moduleDef => "module"
  | body => "body" | methodDef => "method_def" | params => "params" | param => "param"
  | marker => "marker" | inclusion => "include" | accessor => "attr"
  | assignment => "assignment" | conditional => "conditional" | loop => "loop"
  | returnFrom => "return" | breakLoop => "break" | nextLoop => "next"
  | call => "call" | methodCall => "method_call" | args => "args" | block => "block"
  | blockParams => "block_params"
  | binary => "binary" | unary => "unary" | ternary => "ternary" | index => "index"
  | array => "array" | hash => "hash" | pair => "pair"
  | literal => "literal" | interpolated => "interpolated_string" | symbol => "symbol"
  | identifier => "identifier" | ivar => "ivar" | constant => "constant" | selfRef => "self"

def all : List Kind :=
  [program, importFile, classDef, moduleDef, body, methodDef, params, param, marker, inclusion,
   accessor, assignment, conditional, loop, returnFrom, breakLoop, nextLoop, call, methodCall,
   args, block, blockParams, binary, unary, ternary, index, array, hash, pair, literal,
   interpolated, symbol, identifier, ivar, constant, selfRef]

def ofName? (text : String) : Option Kind :=
  all.find? fun kind => kind.name == text

/-- Kinds whose nodes have no children. -/
def isLeaf : Kind → Bool
  | marker | breakLoop | nextLoop | literal | interpolated | symbol | identifier | ivar
  | constant | selfRef => true
  | _ => false

end Kind

structure Node where
  kind : Kind
  payload : Payload := .absent
  line : Option Int := none
  column : Option Int := none
  children : List Node := []

instance : Inhabited Node := ⟨{ kind := .program }⟩

namespace Node

/-- Build a node, unless its kind is a leaf and children are given. -/
def build? (kind : Kind) (payload : Payload) (line column : Option Int)
    (children : List Node) : Option Node :=
  if kind.isLeaf && !children.isEmpty then none
  else some { kind, payload, line, column, children }

def child? (node : Node) (kind : Kind) : Option Node :=
  node.children.find? fun child => child.kind == kind

def childrenOf (node : Node) (kind : Kind) : List Node :=
  node.children.filter fun child => child.kind == kind

def position (node : Node) : String :=
  match node.line with
  | none => "unknown position"
  | some line => describePosition line node.column

/-! ### Sizes and traversal -/

mutual

/-- The number of nodes of a tree. -/
def size : Node → Nat
  | ⟨_, _, _, _, children⟩ => 1 + sizeAll children

/-- The number of nodes of several trees. -/
def sizeAll : List Node → Nat
  | [] => 0
  | node :: rest => node.size + sizeAll rest

end

theorem sizeAll_append (left right : List Node) :
    sizeAll (left ++ right) = sizeAll left + sizeAll right := by
  induction left with
  | nil => simp [sizeAll]
  | cons node rest ih => simp [sizeAll, ih]; omega

theorem size_eq (node : Node) : node.size = 1 + sizeAll node.children := by
  cases node
  simp [size]

/-- Visit the nodes that are still to be visited: the first one, then its children
before the others. -/
def walkFrom : List Node → List Node
  | [] => []
  | node :: pending => node :: walkFrom (node.children ++ pending)
termination_by pending => sizeAll pending
decreasing_by
  simp only [sizeAll, sizeAll_append, size_eq]
  omega

/-- The node and everything below it, each node before its children. -/
def walk (node : Node) : List Node :=
  walkFrom [node]

/-- Every node of a kind, in the order of the walk. -/
def findNodes (node : Node) (kind : Kind) : List Node :=
  node.walk.filter fun found => found.kind == kind

/-! ### Outlines -/

/-- The line that stands for a node in an outline. -/
def label (node : Node) : String :=
  match node.payload with
  | .absent => node.kind.name
  | payload => s!"{node.kind.name} {payload.shown}"

mutual

/-- The outline of a tree, one line for each node, two blanks deeper for each level. -/
def outlineLines (indent : Int) : Node → List String
  | ⟨kind, payload, line, column, children⟩ =>
    let own : Node := ⟨kind, payload, line, column, []⟩
    (String.ofList (List.replicate (2 * indent.toNat) ' ') ++ own.label) ::
      outlineLinesAll (indent + 1) children

/-- The outlines of several trees below each other. -/
def outlineLinesAll (indent : Int) : List Node → List String
  | [] => []
  | node :: rest => node.outlineLines indent ++ outlineLinesAll indent rest

end

def outline (node : Node) (indent : Int) : String :=
  "\n".intercalate (node.outlineLines indent)

end Node

end ContractForge
