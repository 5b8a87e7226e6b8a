import ContractForge.Text.Digits

/-!
# Shortest decimal text of a floating-point number

A finite number is written with the fewest digits that read back as the same
number, and with the nearest such digits. The search is exact: the value is
decoded into an integer times a power of two, and every candidate is compared
with the interval of reals that round to it.
-/

namespace ContractForge.Decimal

def twoTo (exponent : Nat) : Nat := Nat.pow 2 exponent

def tenTo (exponent : Nat) : Nat := Nat.pow 10 exponent

/-- A non-negative finite number as `significand * 2 ^ exponent`. -/
structure Binary where
  significand : Nat
  exponent : Int

/-- Decode the bits of a finite number, without its sign. -/
def Binary.ofBits (bits : UInt64) : Binary :=
  let fraction : Nat := bits.toNat % twoTo 52
  let biased : Nat := (bits.toNat / twoTo 52) % twoTo 11
  if biased == 0 then ⟨fraction, -1074⟩ else ⟨fraction + twoTo 52, (biased : Int) - 1075⟩

/-- The value as a fraction of natural numbers, scaled by `10 ^ -power`. -/
def Binary.scaled (value : Binary) (power : Int) : Nat × Nat :=
  let numerator := value.significand * twoTo value.exponent.toNat * tenTo (-power).toNat
  let denominator := twoTo (-value.exponent).toNat * tenTo power.toNat
  (numerator, denominator)

/-- Whether the decimal `digits * 10 ^ power` rounds to the given number. The ends
of the interval belong to it exactly when the significand is even. -/
def Binary.readsBack (value : Binary) (digits : Nat) (power : Int) : Bool :=
  -- Everything is measured in quarters of the last place of the significand.
  let narrowBelow := value.significand == twoTo 52 && value.exponent > -1074
  let below := 4 * value.significand - (if narrowBelow then 1 else 2)
  let above := 4 * value.significand + 2
  let left := digits * tenTo power.toNat * 4 * twoTo (-value.exponent).toNat
  let unit := tenTo (-power).toNat * twoTo value.exponent.toNat
  let low := below * unit
  let high := above * unit
  if value.significand % 2 == 0 then low ≤ left && left ≤ high else low < left && left < high

/-- The power of ten just above a positive number: the least `k` with `value < 10 ^ k`,
searched upward from a start that is known to be too small. -/
def Binary.magnitude (value : Binary) : Nat → Int → Int
  | 0, power => power
  | fuel + 1, power =>
    let (numerator, denominator) := value.scaled power
    if numerator < denominator then power else value.magnitude fuel (power + 1)

/-- The shortest digits and their power of ten, trying one digit first. -/
def Binary.search (value : Binary) (magnitude : Int) : (remaining count : Nat) → Nat × Int
  | 0, _ => (0, 0)
  | remaining + 1, count =>
    let power := magnitude - count
    let (numerator, denominator) := value.scaled power
    let floor := numerator / denominator
    let floorFits := value.readsBack floor power
    let ceilingFits := value.readsBack (floor + 1) power
    let floorIsNearer := 2 * (numerator % denominator) < denominator ||
      (2 * (numerator % denominator) == denominator && floor % 2 == 0)
    if floorFits && (floorIsNearer || !ceilingFits) then (floor, power)
    else if ceilingFits then (floor + 1, power)
    else value.search magnitude remaining (count + 1)

/-- The digits of a positive number, without trailing zeros, and the position of its
decimal point counted from the first digit. -/
def Binary.shortest (value : Binary) : List Char × Int :=
  let (digits, power) := value.search (value.magnitude 700 (-330)) 20 1
  let text := (toString digits).toList
  let point := text.length + power
  let stripped := (text.reverse.dropWhile (· == '0')).reverse
  (stripped, point)

/-- How a number is laid out: positional when the point falls from four places before
the digits to sixteen places after their start, with an exponent of at least two digits
and a sign otherwise. -/
def layout (digits : List Char) (point : Int) : String :=
  if -4 < point && point ≤ 16 then
    if point ≤ 0 then
      "0." ++ String.ofList (List.replicate (-point).toNat '0' ++ digits)
    else
      let whole := digits.take point.toNat
      let fraction := digits.drop point.toNat
      let padding := List.replicate (point.toNat - digits.length) '0'
      String.ofList (whole ++ padding) ++ "." ++
        (if fraction.isEmpty then "0" else String.ofList fraction)
  else
    let exponent := point - 1
    let sign := if exponent < 0 then "-" else "+"
    let size := toString exponent.natAbs
    let padded := if size.length < 2 then "0" ++ size else size
    let mantissa := match digits with
      | [] => "0"
      | [first] => String.ofList [first]
      | first :: others => String.ofList (first :: '.' :: others)
    mantissa ++ "e" ++ sign ++ padded

/-- The shortest text that reads back as the given number. -/
def shortest (value : Float) : String :=
  if value.isNaN then "nan"
  else
    let bits := value.toBits
    let sign := if bits.toNat / twoTo 63 == 1 then "-" else ""
    if value.isInf then sign ++ "inf"
    else
      let binary := Binary.ofBits bits
      if binary.significand == 0 then sign ++ "0.0"
      else
        let (digits, point) := binary.shortest
        sign ++ layout digits point

/-- The integer that a number is, if it is one. -/
def whole? (value : Float) : Option Int :=
  if value.isNaN || value.isInf then none
  else
    let binary := Binary.ofBits value.toBits
    let numerator := binary.significand * twoTo binary.exponent.toNat
    let denominator := twoTo (-binary.exponent).toNat
    let size : Int := numerator / denominator
    if numerator % denominator != 0 then none
    else some (if value < 0 then -size else size)

/-- The number nearest to `mantissa * 10 ^ exponent`. Numbers beyond the range of the
format become infinite, and those too small for it become zero. -/
def nearest (mantissa : Nat) (exponent : Int) : Float :=
  let size := (toString mantissa).length
  if mantissa == 0 || exponent + size < -400 then 0.0
  else if exponent + size > 400 then Float.ofScientific 1 false 400
  else if exponent < 0 then Float.ofScientific mantissa true exponent.natAbs
  else Float.ofScientific mantissa false exponent.natAbs

/-- The digits of a fraction, which may be left out, and what follows them. -/
def splitFraction : List Char → List Char × List Char
  | '.' :: tail => (tail.takeWhile Text.isDigit, tail.dropWhile Text.isDigit)
  | other => ([], other)

/-- The sign and the digits of an exponent after its mark. -/
def splitSign : List Char → Bool × List Char
  | '-' :: digits => (true, digits)
  | '+' :: digits => (false, digits)
  | digits => (false, digits)

/-- The number that an exponent spells, which may be left out. A mark without digits after it is
not a number. -/
def exponent? : List Char → Option Int
  | [] => some 0
  | mark :: tail =>
    let (negative, digits) := splitSign tail
    if mark != 'e' && mark != 'E' then none
    else if digits.isEmpty || !digits.all Text.isDigit then none
    else
      let size : Int := Text.digitsValue digits
      some (if negative then -size else size)

/-- Read digits with an optional fraction and an optional exponent. -/
def parse? (text : List Char) : Option Float :=
  let whole := text.takeWhile Text.isDigit
  let (fraction, afterFraction) := splitFraction (text.dropWhile Text.isDigit)
  let mantissa := Text.digitsValue (whole ++ fraction)
  let scale : Int := -(fraction.length : Int)
  if whole.isEmpty && fraction.isEmpty then none
  else (exponent? afterFraction).map fun exponent => nearest mantissa (scale + exponent)

end ContractForge.Decimal
