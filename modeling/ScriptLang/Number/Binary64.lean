/-!
# Double precision numbers

A double is kept as its bit pattern and never computed with, so that what is written is exactly
what was read: zeros keep their sign and a NaN keeps its payload. Decimals are read in exact
integer arithmetic, to the nearest double, and a tie goes to the even neighbour.
-/

namespace ScriptLang

/-- A double, by its bit pattern. -/
structure Binary64 where
  bits : UInt64
  deriving DecidableEq, Repr, Inhabited

/-- What a bit pattern stands for, sign aside. -/
inductive Magnitude where
  | nan
  | infinite
  /-- `mantissa * 2 ^ exponent`; a normal number has a mantissa of 53 bits. -/
  | finite (mantissa : Nat) (exponent : Int)
  deriving DecidableEq, Repr

namespace Binary64

/-! ## Fields of the bit pattern -/

/-- How many doubles there are from one power of two to the next: `2 ^ 52`. -/
def perBinade : Nat := 1 <<< 52

def isNegative (x : Binary64) : Bool :=
  x.bits.toNat.testBit 63

def biasedExponent (x : Binary64) : Nat :=
  x.bits.toNat / perBinade % 2048

def fraction (x : Binary64) : Nat :=
  x.bits.toNat % perBinade

def magnitude (x : Binary64) : Magnitude :=
  if x.biasedExponent = 2047 then
    if x.fraction = 0 then .infinite else .nan
  else if x.biasedExponent = 0 then
    .finite x.fraction (-1074)
  else
    .finite (perBinade + x.fraction) ((x.biasedExponent : Int) - 1075)

/-! ## Hexadecimal -/

/-- One hexadecimal digit, in upper case. -/
def hexDigit (n : Nat) : Char :=
  if n < 10 then Char.ofNat (48 + n) else Char.ofNat (55 + n)

/-- The lowest `count` hexadecimal digits of a number, the highest of them first. -/
def hexDigits : (count : Nat) → Nat → List Char
  | 0, _ => []
  | count + 1, n => hexDigits count (n / 16) ++ [hexDigit (n % 16)]

/-- The bit pattern in sixteen hexadecimal digits. -/
def hex (x : Binary64) : String :=
  String.ofList (hexDigits 16 x.bits.toNat)

def hexValue? (c : Char) : Option Nat :=
  if '0' ≤ c ∧ c ≤ '9' then some (c.toNat - 48)
  else if 'A' ≤ c ∧ c ≤ 'F' then some (c.toNat - 55)
  else if 'a' ≤ c ∧ c ≤ 'f' then some (c.toNat - 87)
  else none

/-- Reads sixteen hexadecimal digits. -/
def ofHex? (s : String) : Option Binary64 := do
  let digits ← s.toList.mapM hexValue?
  if digits.length = 16 then
    some ⟨UInt64.ofNat (digits.foldl (fun n d => 16 * n + d) 0)⟩
  else
    none

/-! ## Decimals -/

/-- The quotient, rounded to the nearest integer; a half goes to the even one. -/
def roundDiv (num den : Nat) : Nat :=
  let q := num / den
  let r := num % den
  if 2 * r < den then q
  else if den < 2 * r then q + 1
  else if q % 2 = 0 then q else q + 1

/-- The bit pattern, sign aside, of the double nearest to `num / den`. Both are positive. -/
def bitsOfQuotient (num den : Nat) : Nat :=
  let guess : Int := (num.log2 : Int) - den.log2 - 52
  -- `guess` or the number below it puts the quotient between `2 ^ 52` and `2 ^ 53`.
  let fits : Bool := den <<< (52 + guess).toNat ≤ num <<< (-(52 + guess)).toNat
  let exponent := max (if fits then guess else guess - 1) (-1074)
  let mantissa := roundDiv (num <<< (-exponent).toNat) (den <<< exponent.toNat)
  -- A mantissa without its leading bit is a subnormal, one that is rounded up carries over.
  min ((exponent + 1074).toNat * perBinade + mantissa) (2047 * perBinade)

def ofSigned (negative : Bool) (bits : Nat) : Binary64 :=
  ⟨UInt64.ofNat (if negative then 2048 * perBinade + bits else bits)⟩

/-- The double nearest to `digits * 10 ^ exponent`. -/
def ofDecimal (negative : Bool) (digits : Nat) (exponent : Int) : Binary64 :=
  let bits :=
    if digits = 0 then 0
    -- Far out of range on either side; the powers of ten below stay small.
    else if 310 < exponent then 2047 * perBinade
    else if exponent + (digits.log2 / 3 + 1 : Nat) < -330 then 0
    else if 0 ≤ exponent then bitsOfQuotient (digits * Nat.pow 10 exponent.toNat) 1
    else bitsOfQuotient digits (Nat.pow 10 (-exponent).toNat)
  ofSigned negative bits

/-- A finite double as `digits * 10 ^ exponent`, exactly. -/
def toDecimal? (x : Binary64) : Option (Nat × Int) :=
  match x.magnitude with
  | .finite mantissa exponent =>
    if 0 ≤ exponent then some (mantissa <<< exponent.toNat, 0)
    else some (mantissa * Nat.pow 5 (-exponent).toNat, exponent)
  | _ => none

end Binary64

end ScriptLang
