/-!
# Character classes

The classes of characters that source text and generated text are read by:
letters, capitals, digits, word characters, white space and printable
characters. Letters beyond ASCII come from the tables below, which list the
Latin-1, Greek, Cyrillic, kana, ideograph and syllable blocks.
-/

namespace ContractForge.Text

/-- Closed ranges of code points. -/
abbrev Ranges := List (Nat × Nat)

/-- Whether the code point of a character lies in one of the ranges. -/
def Ranges.has (ranges : Ranges) (c : Char) : Bool :=
  ranges.any fun (first, last) => first ≤ c.toNat && c.toNat ≤ last

/-- Letters beyond ASCII. -/
def letterRanges : Ranges :=
  [(0xAA, 0xAA), (0xB5, 0xB5), (0xBA, 0xBA), (0xC0, 0xD6), (0xD8, 0xF6), (0xF8, 0xFF),
   (0x370, 0x373), (0x376, 0x377), (0x37B, 0x37D), (0x37F, 0x37F), (0x386, 0x386),
   (0x388, 0x38A), (0x38C, 0x38C), (0x38E, 0x3A1), (0x3A3, 0x3F5), (0x3F7, 0x3FF),
   (0x400, 0x45F), (0x3041, 0x3096), (0x309D, 0x309F), (0x30A1, 0x30FA), (0x30FC, 0x30FF),
   (0x3400, 0x4DBF), (0x4E00, 0x9FFF), (0xAC00, 0xD7A3)]

/-- Whether a number is in one of several runs of every number or of every other one. Each run is
given by the gap before it, how many numbers it has and how far apart they are. -/
def inRuns : List Nat → Nat → Bool
  | gap :: count :: step :: rest, number =>
    let length := (count - 1) * step + 1
    gap ≤ number &&
      (if number < gap + length then (number - gap) % step == 0
      else inRuns rest (number - (gap + length)))
  | _, _ => false

/-- All capital letters beyond ASCII, as runs. -/
def capitalRuns : List Nat :=
  [64,23,1,1,7,1,33,28,2,2,8,2,2,24,2,0,3,2,3,2,1,1,2,2,0,2,2,0,2,1,2,4,1,1,2,1,1,3,1,3,2,1,1,2,1,
   1,3,2,0,2,2,2,2,2,0,2,2,0,2,1,1,2,2,0,1,1,3,1,1,7,1,1,2,1,1,2,1,1,2,8,2,2,9,2,2,1,1,2,2,2,0,2,1,
   1,29,2,7,2,1,1,2,1,2,2,2,0,3,1,1,4,2,289,2,2,3,1,1,8,1,1,6,2,2,0,2,1,1,2,2,0,2,2,0,16,1,1,9,1,
   35,1,1,2,3,1,3,12,2,5,1,1,2,2,2,0,1,1,2,51,1,48,17,2,9,28,2,0,7,2,2,48,2,2,38,1,2889,38,1,1,1,1,
   5,1,1,722,86,1,2202,43,1,2,3,1,320,75,2,9,49,2,9,8,1,8,6,1,10,8,1,8,8,1,8,6,1,11,4,2,8,8,1,72,4,
   1,12,4,1,12,4,1,12,5,1,11,4,1,262,1,1,4,1,1,3,3,1,2,3,1,2,1,1,3,5,1,6,4,2,0,3,1,2,4,1,10,2,1,5,
   1,1,26,16,1,19,1,1,818,26,1,1840,48,1,48,2,2,0,2,1,2,4,2,0,3,1,1,1,1,2,1,1,8,3,1,1,49,2,8,2,2,4,
   1,1,31053,23,2,19,14,2,135,7,2,3,31,2,10,3,2,0,5,2,4,2,2,2,2,2,3,11,2,0,4,1,1,5,1,1,8,2,0,3,1,1,
   1,1,6,1,1,5,2,2,28,1,1,22315,26,1,1221,40,1,136,36,1,156,11,1,1,15,1,1,7,1,1,2,1,1770,51,1,3053,
   32,1,21888,32,1,26016,26,1,26,26,1,26,26,1,26,2,2,0,1,1,2,1,1,2,2,1,2,4,1,1,8,1,26,26,1,26,2,1,
   1,4,1,2,8,1,1,7,1,27,2,1,1,4,1,1,5,1,1,1,1,3,7,1,27,26,1,26,26,1,26,26,1,26,26,1,26,26,1,26,26,
   1,30,25,1,33,25,1,33,25,1,33,25,1,33,25,1,33,1,1,4405,34,1,2062,26,1,6,26,1,6,26,1]

/-- White space beyond ASCII. -/
def spaceRanges : Ranges :=
  [(0x85, 0x85), (0xA0, 0xA0), (0x1680, 0x1680), (0x2000, 0x200A), (0x2028, 0x2029),
   (0x202F, 0x202F), (0x205F, 0x205F), (0x3000, 0x3000)]

/-- Controls, format characters, separators other than the plain space, and
code points that carry no character of their own. -/
def unprintableRanges : Ranges :=
  [(0x00, 0x1F), (0x7F, 0xA0), (0xAD, 0xAD), (0x600, 0x605), (0x61C, 0x61C), (0x6DD, 0x6DD),
   (0x70F, 0x70F), (0x1680, 0x1680), (0x180E, 0x180E), (0x2000, 0x200F), (0x2028, 0x202F),
   (0x205F, 0x206F), (0x3000, 0x3000), (0xE000, 0xF8FF), (0xFEFF, 0xFEFF), (0xFFF0, 0xFFFB),
   (0xFFFE, 0xFFFF), (0xE0000, 0xE0FFF), (0xF0000, 0x10FFFF)]

/-- A letter of any case or of none. -/
def isLetter (c : Char) : Bool :=
  c.isAlpha || letterRanges.has c

def isCapital (c : Char) : Bool :=
  c.isUpper || 0x80 ≤ c.toNat && inRuns capitalRuns (c.toNat - 0x80)

def isDigit (c : Char) : Bool :=
  '0' ≤ c && c ≤ '9'

def isAlphanumeric (c : Char) : Bool :=
  isLetter c || isDigit c

/-- A character that names are made of: a letter, a digit or an underscore. -/
def isWordChar (c : Char) : Bool :=
  isAlphanumeric c || c == '_'

/-- White space, line breaks included. -/
def isSpace (c : Char) : Bool :=
  c == ' ' || (0x09 ≤ c.toNat && c.toNat ≤ 0x0D) || (0x1C ≤ c.toNat && c.toNat ≤ 0x1F) ||
    spaceRanges.has c

/-- A character that stands for itself when text is shown in quotes. -/
def isPrintable (c : Char) : Bool :=
  !unprintableRanges.has c

/-- The capital form of a character, which may take two letters. -/
def capitalOf (c : Char) : List Char :=
  let code := c.toNat
  let shifted := fun distance => [Char.ofNat (code - distance)]
  if c.isLower then [c.toUpper]
  else if code == 0xDF then ['S', 'S']
  else if code == 0xB5 then [Char.ofNat 0x39C]
  else if code == 0xFF then [Char.ofNat 0x178]
  else if 0xE0 ≤ code && code ≤ 0xFE && code != 0xF7 then shifted 0x20
  else if code == 0x3C2 then [Char.ofNat 0x3A3]
  else if 0x3B1 ≤ code && code ≤ 0x3CB then shifted 0x20
  else if code == 0x3AC then [Char.ofNat 0x386]
  else if 0x3AD ≤ code && code ≤ 0x3AF then shifted 0x25
  else if code == 0x3CC then [Char.ofNat 0x38C]
  else if code == 0x3CD || code == 0x3CE then shifted 0x3F
  else if 0x430 ≤ code && code ≤ 0x44F then shifted 0x20
  else if 0x450 ≤ code && code ≤ 0x45F then shifted 0x50
  else [c]

/-- The text without white space at either end. -/
def trimmed (chars : List Char) : List Char :=
  ((chars.dropWhile isSpace).reverse.dropWhile isSpace).reverse

/-- Whether a text holds nothing but white space. -/
def isBlank (text : String) : Bool :=
  text.toList.all isSpace

end ContractForge.Text
