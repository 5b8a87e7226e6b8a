import ContractForge.Text.Quoted

/-!
# Numbers written in digits

A run of decimal digits spells a number. The length of the runs that are read is
bounded; a longer one is an error of its own, whatever its value. Widths may be
spelled in the decimal digits of any script; other signs for digits, such as
superscripts, look like a width and cannot be read.
-/

namespace ContractForge.Text

/-- The number of digits up to which numbers are read and written. -/
def digitLimit : Nat := 4300

/-- Whether a run of digits is too long to be read. Leading zeros count. -/
def isTooLong (digits : List Char) : Bool :=
  digitLimit < digits.length

/-- Whether there are more digits than a limit allows, if there is one. -/
def exceeds (limit : Option Nat) (digits : List Char) : Bool :=
  limit.any fun limit => limit < digits.length

/-- The number that decimal digits spell. -/
def digitsValue (digits : List Char) : Nat :=
  digits.foldl (fun value c => 10 * value + (c.toNat - '0'.toNat)) 0

/-- Read digits as a number; the text must be digits only. -/
def digitsValue? (chars : List Char) : Option Nat :=
  if !chars.isEmpty && chars.all isDigit then some (digitsValue chars) else none

/-- What is said about a number with too many digits, and how many they are if they were
counted. -/
def tooLongMessage (count : Option Nat) : String :=
  let counted := match count with
    | some count => s!": value has {count} digits"
    | none => ""
  s!"Exceeds the limit ({digitLimit} digits) for integer string conversion{counted}; " ++
    "use sys.set_int_max_str_digits() to increase the limit"

/-! ### Digits of any script -/

/-- The decimal digits for zero. The other nine follow each of them in their order. -/
def decimalZeros : List Nat :=
  [0x30, 0x660, 0x6F0, 0x7C0, 0x966, 0x9E6, 0xA66, 0xAE6, 0xB66, 0xBE6, 0xC66, 0xCE6, 0xD66,
   0xDE6, 0xE50, 0xED0, 0xF20, 0x1040, 0x1090, 0x17E0, 0x1810, 0x1946, 0x19D0, 0x1A80, 0x1A90,
   0x1B50, 0x1BB0, 0x1C40, 0x1C50, 0xA620, 0xA8D0, 0xA900, 0xA9D0, 0xA9F0, 0xAA50, 0xABF0,
   0xFF10, 0x104A0, 0x10D30, 0x11066, 0x110F0, 0x11136, 0x111D0, 0x112F0, 0x11450, 0x114D0,
   0x11650, 0x116C0, 0x11730, 0x118E0, 0x11950, 0x11C50, 0x11D50, 0x11DA0, 0x16A60, 0x16AC0,
   0x16B50, 0x1D7CE, 0x1D7D8, 0x1D7E2, 0x1D7EC, 0x1D7F6, 0x1E140, 0x1E2F0, 0x1E950, 0x1FBF0]

/-- Signs for digits that are no decimal digits. -/
def otherDigitRanges : Ranges :=
  [(0xB2, 0xB3), (0xB9, 0xB9), (0x1369, 0x1371), (0x19DA, 0x19DA), (0x2070, 0x2070),
   (0x2074, 0x2079), (0x2080, 0x2089), (0x2460, 0x2468), (0x2474, 0x247C), (0x2488, 0x2490),
   (0x24EA, 0x24EA), (0x24F5, 0x24FD), (0x24FF, 0x24FF), (0x2776, 0x277E), (0x2780, 0x2788),
   (0x278A, 0x2792), (0x10A40, 0x10A43), (0x10E60, 0x10E68), (0x11052, 0x1105A),
   (0x1F100, 0x1F10A)]

def decimal? (c : Char) : Option Nat :=
  (decimalZeros.find? fun first => first ≤ c.toNat && c.toNat < first + 10).map (c.toNat - ·)

def isDecimal (c : Char) : Bool :=
  (decimal? c).isSome

def isDigitSign (c : Char) : Bool :=
  isDecimal c || otherDigitRanges.has c

/-- Why signs for digits cannot be read as a number. -/
inductive DigitsError where
  | tooMany (count : Nat)
  | notDecimal (signs : List Char)
deriving DecidableEq

/-- What is said about signs that cannot be read. -/
def DigitsError.message : DigitsError → String
  | tooMany count => tooLongMessage (some count)
  | notDecimal signs => "invalid literal for int() with base 10: " ++
      String.ofList ((quoted (String.ofList signs)).toList.take 200)

/-- Read signs for digits as a number, if the text is nothing else. Digits are counted up to
the first that is not decimal. -/
def readDigits (chars : List Char) : Except DigitsError (Option Nat) :=
  if chars.isEmpty || !chars.all isDigitSign then .ok none
  else if isTooLong (chars.takeWhile isDecimal) then
    .error (.tooMany (chars.takeWhile isDecimal).length)
  else match chars.mapM decimal? with
    | some digits => .ok (some (digits.foldl (10 * · + ·) 0))
    | none => .error (.notDecimal chars)

end ContractForge.Text
