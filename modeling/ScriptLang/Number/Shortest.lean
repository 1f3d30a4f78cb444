import ScriptLang.Number.Binary64

/-!
# Shortest decimal text

The text of a double has the fewest digits that read back as the same double, and of those the
nearest ones. A double stands for the interval of reals that round to it; a grid of decimals of a
given length has a member in the interval exactly when one of the double's two neighbours on the
grid lies there.
-/

namespace ScriptLang

/-- The decimal `digits * 10 ^ exponent`. -/
structure Decimal where
  digits : Nat
  exponent : Int
  deriving DecidableEq, Repr

namespace Binary64

/-- The integer `e` with `10 ^ e ≤ num / den < 10 ^ (e + 1)`. Both are positive. -/
def floorLog10 (num den : Nat) : Int :=
  if den ≤ num then
    ((Nat.toDigits 10 (num / den)).length : Int) - 1
  else
    -((Nat.toDigits 10 ((den + num - 1) / num - 1)).length : Int)

/-- The reals that round to a double, between `low / den` and `high / den`. -/
structure Rounding where
  low : Nat
  value : Nat
  high : Nat
  den : Nat
  /-- Whether the ends round to the double too. -/
  closed : Bool

/-- The interval of a positive finite double. Below a power of two the spacing is halved. -/
def rounding (mantissa : Nat) (exponent : Int) : Rounding :=
  let up := (exponent - 2).toNat
  let gap := if mantissa = perBinade ∧ -1074 < exponent then 1 else 2
  { low := (4 * mantissa - gap) <<< up
    value := (4 * mantissa) <<< up
    high := (4 * mantissa + 2) <<< up
    den := 1 <<< (2 - exponent).toNat
    closed := mantissa % 2 = 0 }

/-- The member of the grid `10 ^ exponent` nearest to the value, if the interval has one. A value
halfway between two members goes to the larger. -/
def Rounding.onGrid? (r : Rounding) (exponent : Int) : Option Decimal :=
  let scale := Nat.pow 10 (-exponent).toNat
  let unit := r.den * Nat.pow 10 exponent.toNat
  let below := r.value * scale / unit
  let inside (a b : Nat) : Bool := if r.closed then a ≤ b else a < b
  let belowFits := inside (r.low * scale) (below * unit)
  let aboveFits := inside ((below + 1) * unit) (r.high * scale)
  if aboveFits && (!belowFits || (2 * below + 1) * unit ≤ 2 * (r.value * scale)) then
    some ⟨below + 1, exponent⟩
  else if belowFits then
    some ⟨below, exponent⟩
  else
    none

/-- The first hit on the grids `10 ^ exponent`, `10 ^ (exponent - 1)` and so on. -/
def Rounding.search (r : Rounding) : (fuel : Nat) → (exponent : Int) → Decimal
  | 0, exponent =>
    ⟨r.value * Nat.pow 10 (-exponent).toNat / (r.den * Nat.pow 10 exponent.toNat), exponent⟩
  | fuel + 1, exponent =>
    match r.onGrid? exponent with
    | some d => d
    | none => r.search fuel (exponent - 1)

/-- The shortest decimal of a positive finite double. Seventeen digits always suffice. -/
def shortest (mantissa : Nat) (exponent : Int) : Decimal :=
  let r := rounding mantissa exponent
  r.search 17 (floorLog10 r.value r.den)

end Binary64

/-- Drops zeros at the end. -/
def trimZeros (digits : List Char) : List Char :=
  (digits.reverse.dropWhile (· = '0')).reverse

/-- Digits with the decimal point after the first `point + 1` of them, and at least one digit on
each side of it. -/
def positional (digits : List Char) (point : Int) : List Char :=
  if 0 ≤ point then
    let width := point.toNat + 1
    let whole := digits.take width ++ List.replicate (width - digits.length) '0'
    let rest := digits.drop width
    whole ++ '.' :: (if rest.isEmpty then ['0'] else rest)
  else
    '0' :: '.' :: (List.replicate ((-point).toNat - 1) '0' ++ digits)

/-- Digits with the point after the first one and a power of ten. -/
def scientific (digits : List Char) (point : Int) : List Char :=
  let rest := digits.drop 1
  digits.take 1 ++ (if rest.isEmpty then [] else '.' :: rest) ++ 'e' :: (toString point).toList

/-- Numbers from a ten-thousandth up to ten to the sixteenth are written out, the others with a
power of ten. -/
def Decimal.text (d : Decimal) : String :=
  let all := Nat.toDigits 10 d.digits
  let point := d.exponent + all.length - 1
  let digits := trimZeros all
  String.ofList (if -4 ≤ point ∧ point < 16 then positional digits point else scientific digits point)

/-- The text of a double. A NaN has no sign, a zero has one. -/
def Binary64.text (x : Binary64) : String :=
  let sign := if x.isNegative then "-" else ""
  match x.magnitude with
  | .nan => "NaN"
  | .infinite => sign ++ "inf"
  | .finite mantissa exponent =>
    if mantissa = 0 then sign ++ "0.0" else sign ++ (shortest mantissa exponent).text

end ScriptLang
