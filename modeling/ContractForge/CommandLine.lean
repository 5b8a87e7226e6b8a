import ContractForge.Text.Digits
import ContractForge.Text.Search

/-!
# Reading the command line

Arguments are options or values. Long options may be shortened to a beginning
that no other option has, and may have their value behind an equals sign; short
options may have it right behind them. After a double dash everything is a
value.
-/

namespace ContractForge.CommandLine

open Text

/-! ### Commands -/

/-- What was said about an option that takes a value. A double dash in the place of the value
takes back what was said before, but does not count as silence. -/
inductive Setting (α : Type) where
  | unset
  | value (given : α)
  | dashed
deriving DecidableEq

def Setting.value? {α : Type} : Setting α → Option α
  | value given => some given
  | unset | dashed => none

structure CompileRequest where
  input : String := ""
  output : Setting String := .unset
  toStandardOutput : Bool := false
  version : Setting String := .unset
  skipsOptimization : Bool := false
  skipsPacking : Bool := false
  skipsSecurity : Bool := false
  workers : Setting Int := .unset
deriving DecidableEq

/-- What the program is asked to do. -/
inductive Command where
  | compile (request : CompileRequest)
  | parse (input : String)
  | validate (input : String)
  | version
  | overview
deriving DecidableEq

/-- Why a command line asks for nothing. -/
inductive UsageError where
  | helpWanted
  | misuse
deriving DecidableEq

/-! ### Options -/

/-- The options of all commands. -/
inductive Flag where
  | help | output | standardOutput | version | noOptimize | noGas | noSecurity | jobs
deriving DecidableEq

def Flag.takesValue : Flag → Bool
  | output | version | jobs => true
  | _ => false

abbrev Spellings := List (String × Flag)

/-- The options of every command. -/
def commonFlags : Spellings :=
  [("-h", .help), ("--help", .help)]

/-- The options of the command that compiles. -/
def compileFlags : Spellings :=
  commonFlags ++
    [("-o", .output), ("--output", .output), ("--stdout", .standardOutput),
     ("--solidity-version", .version), ("--no-optimize", .noOptimize), ("--no-gas", .noGas),
     ("--no-security", .noSecurity), ("-j", .jobs), ("--jobs", .jobs)]

/-- An option as it was found: its spelling, and the value attached to it. -/
structure FoundOption where
  spelling : String
  flag : Flag
  attached : Option String := none
deriving DecidableEq

inductive Argument where
  | value (text : String)
  | option (found : FoundOption)
  | unknownOption
  | ambiguousOption
  | doubleDash
deriving DecidableEq

/-- A text before and after its first equals sign. -/
def splitEquals (text : String) : String × Option String :=
  let chars := text.toList
  match chars.dropWhile (· != '=') with
  | _ :: value => (String.ofList (chars.takeWhile (· != '=')), some (String.ofList value))
  | [] => (text, none)

/-- The options that an argument with two dashes is a beginning of. -/
def shortened (flags : Spellings) (text : String) : List FoundOption :=
  let (start, attached) := splitEquals text
  flags.filterMap fun (spelling, flag) =>
    if startsWith spelling start then some { spelling, flag, attached } else none

/-- The options that an argument with one dash can be: a letter with its value, or the
beginning of a spelling. -/
def letters (flags : Spellings) (text : String) : List FoundOption :=
  let chars := text.toList
  flags.filterMap fun (spelling, flag) =>
    if spelling.toList == chars.take 2 then
      some { spelling, flag, attached := some (String.ofList (chars.drop 2)) }
    else if startsWith spelling text then some { spelling, flag }
    else none

/-- Whether characters are digits, at least one, with at most a line break after them. -/
def endsInDigits (chars : List Char) : Bool :=
  let rest := chars.dropWhile isDigit
  chars.head?.any isDigit && (rest.isEmpty || rest == ['\n'])

/-- Whether an argument looks like a negative number. -/
def isNegativeNumber (chars : List Char) : Bool :=
  match chars with
  | '-' :: rest =>
    match rest.dropWhile isDigit with
    | '.' :: fraction => endsInDigits fraction
    | _ => endsInDigits rest
  | _ => false

/-- The option that an argument spells in full, with or without an attached value. -/
def exactOption? (flags : Spellings) (text : String) : Option FoundOption :=
  match flags.lookup text, splitEquals text with
  | some flag, _ => some { spelling := text, flag }
  | none, (spelling, some value) => (flags.lookup spelling).map fun flag =>
    { spelling, flag, attached := some value }
  | none, (_, none) => none

def classify (flags : Spellings) (text : String) : Argument :=
  let chars := text.toList
  if chars.head? != some '-' || text == "-" then .value text
  else if text == "--" then .doubleDash
  else match exactOption? flags text with
    | some found => .option found
    | none =>
      let candidates := if startsWith text "--" then shortened flags text
        else letters flags text
      match candidates with
      | [found] => .option found
      | _ :: _ :: _ => .ambiguousOption
      | [] =>
        if isNegativeNumber chars || chars.contains ' ' then .value text else .unknownOption

/-- What all arguments are. After a double dash there are only values. -/
def classifyAll (flags : Spellings) : List String → List Argument
  | [] => []
  | text :: rest =>
    match classify flags text with
    | .doubleDash => .doubleDash :: rest.map .value
    | argument => argument :: classifyAll flags rest

/-! ### Numbers -/

/-- Digits with single underscores between them, not too many. -/
def groupedDigits? (chars : List Char) : Option Nat :=
  let groups := splitAt '_' chars
  if groups.any List.isEmpty || isTooLong groups.flatten then none
  else digitsValue? groups.flatten

/-- A number with an optional sign and white space around it. -/
def integer? (text : String) : Option Int :=
  match trimmed text.toList with
  | '-' :: digits => (groupedDigits? digits).map fun value => -(value : Int)
  | '+' :: digits => (groupedDigits? digits).map fun value => (value : Int)
  | digits => (groupedDigits? digits).map fun value => (value : Int)

/-! ### Reading arguments -/

/-- An option without its value: whether help was asked for in front of it, and the value
attached to it. -/
structure Cluster where
  wantsHelp : Bool := false
  flag : Flag
  attached : Option String

/-- What has been read of the arguments of a command. -/
structure Reading where
  request : CompileRequest := {}
  input : Option String := none
  /-- The last argument was the input. -/
  atInput : Bool := false
  /-- The option whose value comes next. -/
  waiting : Option Cluster := none
  /-- There are arguments that nothing asks for. -/
  hasExtras : Bool := false

/-- Apply an option that takes no value. -/
def setFlag (request : CompileRequest) : Flag → CompileRequest
  | .standardOutput => { request with toStandardOutput := true }
  | .noOptimize => { request with skipsOptimization := true }
  | .noGas => { request with skipsPacking := true }
  | .noSecurity => { request with skipsSecurity := true }
  | _ => request

/-- The value that is given to an option, read as the option wants it. -/
def setting {α : Type} (read? : String → Option α) (value : String) :
    Except UsageError (Setting α) :=
  if value == "--" then return .dashed
  else match read? value with
    | some given => return .value given
    | none => throw .misuse

def setValue (request : CompileRequest) (flag : Flag) (value : String) :
    Except UsageError CompileRequest := do
  match flag with
  | .output => return { request with output := ← setting some value }
  | .version => return { request with version := ← setting some value }
  | .jobs => return { request with workers := ← setting integer? value }
  | _ => return request

/-- Take letters without values off an argument that joins several of them. -/
def cluster (flags : Spellings) (wantsHelp : Bool) (spelling : String) (flag : Flag) :
    (attached : List Char) → Except UsageError Cluster
  | [] => return { wantsHelp, flag, attached := some "" }
  | c :: rest =>
    if flag.takesValue then
      return { wantsHelp, flag, attached := some (String.ofList (c :: rest)) }
    else if startsWith spelling "--" then throw .misuse
    else
      let letter := String.ofList ['-', c]
      match flags.lookup letter with
      | none => throw .misuse
      | some next =>
        let wanted := wantsHelp || flag == .help
        if rest.isEmpty then return { wantsHelp := wanted, flag := next, attached := none }
        else cluster flags wanted letter next rest

def clusterOf (flags : Spellings) (found : FoundOption) : Except UsageError Cluster :=
  match found.attached with
  | none => return { flag := found.flag, attached := none }
  | some attached => cluster flags false found.spelling found.flag attached.toList

/-- Finish an option that was read, given its value. -/
def applyCluster (reading : Reading) (read : Cluster) (value : Option String) :
    Except UsageError Reading := do
  if read.wantsHelp || read.flag == .help then throw .helpWanted
  match value with
  | some value => return { reading with request := ← setValue reading.request read.flag value }
  | none => return { reading with request := setFlag reading.request read.flag }

/-- Read an option. Its value is attached to it or comes next. -/
def readOption (flags : Spellings) (reading : Reading) (found : FoundOption) :
    Except UsageError Reading := do
  let read ← clusterOf flags found
  match read.flag.takesValue, read.attached with
  | true, some value => applyCluster reading read value
  | true, none => return { reading with waiting := some read }
  | false, some _ => throw .misuse
  | false, none => applyCluster reading read none

/-- Read an argument. A double dash is fine right before or behind the input. -/
def readArgument (flags : Spellings) (takesInput : Bool) (reading : Reading)
    (argument : Argument) : Except UsageError Reading := do
  let resting := { reading with atInput := false, waiting := none }
  match reading.waiting, argument with
  | some read, .value value => applyCluster resting read value
  | some _, _ => throw .misuse
  | none, .option found => readOption flags resting found
  | none, .unknownOption => return { resting with hasExtras := true }
  | none, .ambiguousOption => throw .misuse
  | none, .value text =>
    if takesInput && reading.input.isNone then
      return { resting with input := some text, atInput := true }
    else return { resting with hasExtras := true }
  | none, .doubleDash =>
    if takesInput && (reading.input.isNone || reading.atInput) then return resting
    else return { resting with hasExtras := true }

def readCommand (flags : Spellings) (takesInput : Bool) (arguments : List String) :
    Except UsageError Reading := do
  let classified := classifyAll flags arguments
  if classified.contains .ambiguousOption then throw .misuse
  let reading ← classified.foldlM (readArgument flags takesInput) {}
  if reading.waiting.isSome || (takesInput && reading.input.isNone) then throw .misuse
  return reading

/-- The command of a name with its arguments, and whether there are arguments too many. -/
def namedCommand (name : String) (arguments : List String) :
    Except UsageError (Command × Bool) := do
  match name with
  | "compile" =>
    let reading ← readCommand compileFlags true arguments
    let request := { reading.request with input := reading.input.getD "" }
    return (.compile request, reading.hasExtras)
  | "parse" =>
    let reading ← readCommand commonFlags true arguments
    return (.parse (reading.input.getD ""), reading.hasExtras)
  | "validate" =>
    let reading ← readCommand commonFlags true arguments
    return (.validate (reading.input.getD ""), reading.hasExtras)
  | "version" =>
    let reading ← readCommand commonFlags false arguments
    return (.version, reading.hasExtras)
  | _ => throw .misuse

/-- Read a command line from its first argument on; unknown options may stand before the
command, but make it fail in the end. -/
def readFrom (hasExtras : Bool) : List String → Except UsageError Command
  | [] => if hasExtras then throw .misuse else return .overview
  | text :: rest =>
    match classify commonFlags text with
    | .option found => do
      let read ← clusterOf commonFlags found
      if read.attached.isSome then throw .misuse
      throw .helpWanted
    | .unknownOption => readFrom true rest
    | .value name => do
      let (command, extras) ← namedCommand name rest
      if hasExtras || extras then throw .misuse
      return command
    | .ambiguousOption | .doubleDash => throw .misuse

def read (arguments : List String) : Except UsageError Command :=
  readFrom false arguments

def overviewText : String :=
  "usage: solidrail [-h] \x7bcompile,parse,validate,version\x7d ...\n" ++
  "\n" ++
  "Ruby to Solidity Transpiler\n" ++
  "\n" ++
  "positional arguments:\n" ++
  "  \x7bcompile,parse,validate,version\x7d\n" ++
  "    compile             Compile a Ruby contract to Solidity\n" ++
  "    parse               Print the syntax tree of a Ruby file\n" ++
  "    validate            Check a Ruby file for forbidden constructs\n" ++
  "    version             Print the version\n" ++
  "\n" ++
  "options:\n" ++
  "  -h, --help            show this help message and exit\n"

end ContractForge.CommandLine
