import SlotLisp.Binary32
import SlotLisp.Text

/-!
# Decimal numbers

A decimal number is `± digits * 10 ^ exponent`. Numerals are read as decimal numbers and only then
rounded to binary32, once.
-/

namespace SlotLisp

structure Decimal where
  negative : Bool
  digits : Nat
  exponent : Int
deriving DecidableEq, Repr

namespace Decimal

def toBinary32 (d : Decimal) : Binary32 :=
  let units := d.digits * Binary32.unitsPerOne
  if 0 ≤ d.exponent then Binary32.nearest d.negative (units * Nat.pow 10 d.exponent.toNat) 1
  else Binary32.nearest d.negative units (Nat.pow 10 (-d.exponent).toNat)

/-! ## Reading numerals -/

/-- The exponent part of a numeral: nothing, or an `e`, an optional sign and digits. -/
def readExponent? : Text → Option Int
  | [] => some 0
  | c :: r =>
    let (negative, ds) := Text.splitSign r
    if (c = 69 || c = 101) && !ds.isEmpty && ds.all Byte.isDigit then
      let n : Int := Text.digitsValue ds
      some (if negative then -n else n)
    else none

/-- Reads a numeral: an optional sign, digits with at most one point among them, and an optional
exponent. At least one digit is needed, on either side of the point. -/
def read? (t : Text) : Option Decimal :=
  let (negative, t) := Text.splitSign t
  let whole := t.takeWhile Byte.isDigit
  let (places, t) := match t.dropWhile Byte.isDigit with
    | 46 :: r => (r.takeWhile Byte.isDigit, r.dropWhile Byte.isDigit)
    | r => ([], r)
  if whole.isEmpty && places.isEmpty then none
  else (readExponent? t).map fun e =>
    ⟨negative, Text.digitsValue (whole ++ places), e - places.length⟩

end Decimal

def Binary32.read? (t : Text) : Option Binary32 := (Decimal.read? t).map Decimal.toBinary32

/-!
## Significant digits

`Binary32.significant p x` is the decimal number with `p` significant digits nearest to the finite
nonzero number `x`; of two equally near ones it is the one with an even last digit.
-/

/-- The exponent `e` with `10 ^ e ≤ num / den < 10 ^ (e + 1)`. -/
def floorLog10 (num den : Nat) : Int :=
  if den ≤ num then (Text.ofNat (num / den)).length - 1
  else -(Text.ofNat ((den - 1) / num)).length

namespace Binary32

def significant (p : Nat) (x : Binary32) : Decimal :=
  let lead := floorLog10 x.units unitsPerOne
  -- The last of the `p` digits has this weight.
  let last := lead - (p - 1)
  let digits :=
    if 0 ≤ last then roundDiv x.units (unitsPerOne * Nat.pow 10 last.toNat)
    else roundDiv (x.units * Nat.pow 10 (-last).toNat) unitsPerOne
  -- Rounding up can give one digit too many, which is then a zero.
  if digits = Nat.pow 10 p then ⟨x.isNegative, Nat.pow 10 (p - 1), last + 1⟩
  else ⟨x.isNegative, digits, last⟩

end Binary32

/-!
## General notation

A decimal number is written positionally unless its leading digit stands more than four places
behind the point, or the number of significant digits does not reach up to the point. It is then
written with an exponent of at least two digits. Trailing zeros behind the point are dropped, and
with them the point.
-/

namespace Decimal

def dropTrailingZeros (t : Text) : Text := (t.reverse.dropWhile (· = 48)).reverse

/-- Two runs of digits with a point between them, or the first alone if nothing follows it. -/
def withPoint (whole places : Text) : Text :=
  if places.isEmpty then whole else whole ++ Byte.point :: places

/-- Positional notation of `digits` with the leading one at `10 ^ lead`. -/
def positional (digits : Text) (lead : Int) : Text :=
  if 0 ≤ lead then
    let width := lead.toNat + 1
    withPoint (digits.take width ++ List.replicate (width - digits.length) 48) (digits.drop width)
  else withPoint (ascii "0") (List.replicate ((-lead).toNat - 1) 48 ++ digits)

/-- Notation with an exponent of `digits` with the leading one at `10 ^ lead`. -/
def scientific (digits : Text) (lead : Int) : Text :=
  let exponent := Text.ofNat lead.natAbs
  withPoint (digits.take 1) (digits.drop 1) ++ ascii (if lead < 0 then "e-" else "e+") ++
    List.replicate (2 - exponent.length) 48 ++ exponent

/-- The general notation of a decimal number with `p` significant digits. -/
def general (p : Nat) (d : Decimal) : Text :=
  let digits := Text.ofNat d.digits
  let lead := d.exponent + digits.length - 1
  let shown := dropTrailingZeros digits
  let sign := if d.negative then ascii "-" else []
  sign ++ if lead < -4 || p ≤ lead then scientific shown lead else positional shown lead

end Decimal

end SlotLisp
