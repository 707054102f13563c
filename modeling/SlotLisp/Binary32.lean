/-!
# Binary32 numbers

A number of the language is an IEEE 754 binary32 number. It is kept as its 32 bits, because signed
zeros and the signs of NaNs can be told apart in what a program writes.

Every finite number is a whole multiple of `2 ^ -149`, the smallest positive one. That multiple is
the number's `units`, and all arithmetic is exact arithmetic on units followed by one rounding.
-/

namespace SlotLisp

structure Binary32 where
  bits : UInt32
deriving DecidableEq, Repr

namespace Binary32

/-! ## The parts of a number -/

def isNegative (x : Binary32) : Bool := 0x80000000 ≤ x.bits.toNat

/-- The bits without the sign, as a number. It grows with the absolute value. -/
def magnitude (x : Binary32) : Nat := x.bits.toNat % 0x80000000

def exponentField (x : Binary32) : Nat := x.magnitude / 0x800000

def fraction (x : Binary32) : Nat := x.magnitude % 0x800000

/-- The magnitude of the infinities. Above it are the NaNs. -/
def infiniteMagnitude : Nat := 0x7f800000

def isFinite (x : Binary32) : Bool := x.magnitude < infiniteMagnitude

def isInfinite (x : Binary32) : Bool := x.magnitude = infiniteMagnitude

def isNaN (x : Binary32) : Bool := infiniteMagnitude < x.magnitude

def isZero (x : Binary32) : Bool := x.magnitude = 0

/-- How many units have the size of one: the absolute value of a finite number `x` is
`x.units / unitsPerOne`. -/
def unitsPerOne : Nat := Nat.pow 2 149

/-- The absolute value of a finite number in units. The exponent fields 0 and 1 have the same scale;
only from 1 on is there a leading one above the fraction. -/
def units (x : Binary32) : Nat :=
  if x.exponentField = 0 then x.fraction
  else (0x800000 + x.fraction) * Nat.pow 2 (x.exponentField - 1)

/-- The value of a finite number in units. -/
def signedUnits (x : Binary32) : Int := if x.isNegative then -x.units else x.units

/-! ## Making numbers -/

def ofMagnitude (negative : Bool) (magnitude : Nat) : Binary32 :=
  ⟨UInt32.ofNat (if negative then 0x80000000 + magnitude else magnitude)⟩

def zero : Binary32 := ⟨0⟩

def infinity (negative : Bool) : Binary32 := ofMagnitude negative infiniteMagnitude

/-- The NaN that an operation without a numeric result gives. -/
def invalid : Binary32 := ⟨0xffc00000⟩

/-- A NaN with its quiet bit set; the rest of it is kept. -/
def quiet (x : Binary32) : Binary32 := ⟨x.bits ||| 0x00400000⟩

end Binary32

/-!
## Rounding

`nearestMagnitude num den` is the magnitude of the binary32 number nearest to `num / den` units. Of
two equally near ones it is the even one, and what is too large becomes infinite.

A number of at least `2 ^ 24` units keeps its 24 leading bits and drops the lower `scale` ones; a
smaller one keeps all. Since the exponent field is `scale + 1` when the leading one is present, the
magnitude is `scale * 2 ^ 23` plus the kept bits, also when rounding up carries into a new bit.
-/

/-- The whole number nearest to `num / den`, and of two equally near ones the even one. -/
def roundDiv (num den : Nat) : Nat :=
  let q := num / den
  let twice := 2 * (num % den)
  if den < twice || (twice = den && q % 2 = 1) then q + 1 else q

namespace Binary32

def nearestMagnitude (num den : Nat) : Nat :=
  let scale := (num / den).log2 - 23
  min (scale * 0x800000 + roundDiv num (den * Nat.pow 2 scale)) infiniteMagnitude

/-- The number nearest to `± num / den` units. -/
def nearest (negative : Bool) (num den : Nat) : Binary32 :=
  ofMagnitude negative (nearestMagnitude num den)

end Binary32

/-!
## Arithmetic

Sums and products are the exact results rounded once. A NaN operand is the result, quieted, and of
two NaN operands the first; an operation without a numeric result gives `invalid`. Comparison is
numeric: the two zeros are equal, and a NaN differs from everything, itself included.
-/

namespace Binary32

def neg (x : Binary32) : Binary32 := ⟨x.bits ^^^ 0x80000000⟩

instance : Neg Binary32 := ⟨neg⟩

def add (x y : Binary32) : Binary32 :=
  if x.isNaN then x.quiet
  else if y.isNaN then y.quiet
  else if x.isInfinite then
    if y.isInfinite && x.isNegative != y.isNegative then invalid else x
  else if y.isInfinite then y
  else
    let sum := x.signedUnits + y.signedUnits
    -- An exact zero is negative only as the sum of two negative zeros.
    if sum = 0 then ofMagnitude (x.isNegative && y.isNegative) 0
    else nearest (decide (sum < 0)) sum.natAbs 1

instance : Add Binary32 := ⟨add⟩

def mul (x y : Binary32) : Binary32 :=
  let negative := x.isNegative != y.isNegative
  if x.isNaN then x.quiet
  else if y.isNaN then y.quiet
  else if x.isInfinite || y.isInfinite then
    if x.isZero || y.isZero then invalid else infinity negative
  else nearest negative (x.units * y.units) unitsPerOne

instance : Mul Binary32 := ⟨mul⟩

def beq (x y : Binary32) : Bool :=
  !x.isNaN && !y.isNaN && (x.bits = y.bits || (x.isZero && y.isZero))

instance : BEq Binary32 := ⟨beq⟩

end Binary32

end SlotLisp
