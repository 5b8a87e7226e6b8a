import ContractForge.Target.Type

/-!
# Names of the generated language

Source names are written in words with underscores; generated names in camel
case. A name that is reserved gets an underscore behind it. Where nothing else
is known about a value, its name suggests its type.
-/

namespace ContractForge.Name

/-- Words that cannot be used as names. -/
def reserved : List String :=
  ["abstract", "address", "after", "alias", "anonymous", "apply", "assembly", "assert", "auto",
   "block", "bool", "break", "byte", "bytes", "calldata", "case", "catch", "constant",
   "constructor", "continue", "contract", "copyof", "days", "default", "define", "delete", "do",
   "else", "emit", "enum", "error", "ether", "event", "external", "fallback", "false", "final",
   "for", "function", "gwei", "hours", "if", "immutable", "implements", "import", "in", "indexed",
   "inline", "int", "int256", "interface", "internal", "is", "let", "library", "macro", "mapping",
   "match", "memory", "minutes", "modifier", "msg", "mutable", "new", "null", "of", "override",
   "partial", "payable", "pragma", "private", "promise", "public", "pure", "receive", "reference",
   "relocatable", "require", "return", "returns", "revert", "sealed", "seconds", "selfdestruct",
   "sizeof", "static", "storage", "string", "struct", "super", "supports", "switch", "this",
   "throw", "true", "try", "tx", "type", "typedef", "typeof", "uint", "uint256", "unchecked",
   "using", "var", "view", "virtual", "weeks", "wei", "while", "years"]

/-- The name itself, with an underscore behind it if it is reserved. -/
def safe (name : String) : String :=
  if reserved.contains name then name ++ "_" else name

/-- Beginnings that mark a name as a yes-or-no question. -/
def questionStarts : List String :=
  ["is_", "has_", "can_", "should_"]

def startsQuestion (name : List Char) : Bool :=
  questionStarts.any fun start => start.toList.isPrefixOf name

/-- The words of a name after its suffix has been turned into a word: a question mark asks
`is`, an assignment mark sets, an exclamation mark is dropped. -/
def withoutSuffix (bare : List Char) : List Char :=
  match bare.getLast? with
  | some '!' => bare.dropLast
  | some '?' =>
    if startsQuestion bare.dropLast then bare.dropLast else "is_".toList ++ bare.dropLast
  | some '=' => "set_".toList ++ bare.dropLast
  | _ => bare

/-- A source name in camel case. Leading underscores are kept. -/
def camelCase (name : String) : String :=
  let chars := name.toList
  let underscores := chars.takeWhile (· == '_')
  match Text.underscoreParts (withoutSuffix (chars.dropWhile (· == '_'))) with
  | [] => name
  | first :: others => String.ofList (underscores ++ first ++ others.flatMap Text.capitalized)

/-- A symbol as the member of an enumeration: its words joined with capitals. -/
def enumMember (symbol : String) : String :=
  String.ofList ((Text.underscoreParts symbol.toList).flatMap Text.capitalized)

/-! ### Types suggested by names -/

def stringNames : List String :=
  ["name", "symbol", "title", "description", "uri", "url", "message", "label", "text", "memo",
   "reason", "note", "tag", "token_uri", "base_uri"]

def addressNames : List String :=
  ["owner", "to", "from", "spender", "recipient", "sender", "account", "admin", "operator",
   "beneficiary", "receiver", "holder", "minter", "user", "addr", "new_owner", "wallet"]

def boolNames : List String :=
  ["paused", "enabled", "active", "approved", "locked", "finalized", "flag"]

def suggestedType (name : String) : StaticType :=
  let bare := Text.dropTrailing (fun c => c == '?' || c == '!') (Text.dropLeading '_' name)
  if stringNames.contains bare || Text.endsWith bare "_name" then .string
  else if addressNames.contains bare || Text.endsWith bare "_address" ||
      Text.endsWith bare "_addr" then .address
  else if boolNames.contains bare || startsQuestion bare.toList then .bool
  else .uint256

def singular (name : String) : String :=
  let chars := name.toList
  if Text.endsWith name "ies" then String.ofList (chars.dropLast.dropLast.dropLast ++ ['y'])
  else if Text.endsWith name "s" then String.ofList chars.dropLast
  else name

def suggestedElementType (name : String) : StaticType :=
  suggestedType (singular name)

/-! ### Words for visibility and mutability -/

/-- The visibility that a source word stands for; without a word everything is public. -/
def visibilityOf : Option String → String
  | some "private" => "private"
  | some "protected" => "internal"
  | some "internal" => "internal"
  | _ => "public"

/-- The mutability that the given markers declare; the strictest of them wins. -/
def mutabilityOf (markers : List String) : String :=
  (["pure", "view", "payable"].find? markers.contains).getD ""

/-! ### Literals -/

/-- A character between double quotes. -/
def quotedChar : Char → List Char
  | '\\' => ['\\', '\\']
  | '"' => ['\\', '"']
  | '\n' => ['\\', 'n']
  | '\t' => ['\\', 't']
  | '\r' => ['\\', 'r']
  | c => [c]

def quote (text : String) : String :=
  String.ofList ('"' :: text.toList.flatMap quotedChar ++ ['"'])

end ContractForge.Name
