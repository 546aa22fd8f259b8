/-!
# Numbers

A number of the language is a binary64 value, held by its bits. Order, sign, rounding to an
integer and remainder are computed on the bits, so that statements about them are statements
about words and integers. The four arithmetic operations are those of the machine.
-/

set_option autoImplicit false

namespace Stagewise

/-- A binary64 value, given by its bits. Equality of bits is finer than equality of numbers:
the two zeros are equal numbers, and a NaN is no number equal to itself. -/
structure Number where
  bits : UInt64
deriving DecidableEq, Inhabited

namespace Number

def infinityMagnitude : Nat := 0x7FF0000000000000

def isNegative (x : Number) : Bool := 0x8000000000000000 ≤ x.bits

def magnitude (x : Number) : Nat := x.bits.toNat % 0x8000000000000000

def isNaN (x : Number) : Bool := infinityMagnitude < x.magnitude

def isInfinite (x : Number) : Bool := x.magnitude == infinityMagnitude

def isFinite (x : Number) : Bool := x.magnitude < infinityMagnitude

/-- The place of a number on the line: the two zeros share a place, and on numbers that are not
NaN the order of places is the order of numbers. -/
def place (x : Number) : Int := if x.isNegative then -(x.magnitude : Int) else x.magnitude

def lt (x y : Number) : Bool := !x.isNaN && !y.isNaN && x.place < y.place

def le (x y : Number) : Bool := !x.isNaN && !y.isNaN && x.place ≤ y.place

def eq (x y : Number) : Bool := !x.isNaN && !y.isNaN && x.place == y.place

def same (x y : Number) : Bool := x.eq y || (x.isNaN && y.isNaN)

def ofMagnitude (negative : Bool) (magnitude : Nat) : Number :=
  ⟨UInt64.ofNat ((if negative then 0x8000000000000000 else 0) + magnitude)⟩

def neg (x : Number) : Number := ofMagnitude (!x.isNegative) x.magnitude

def abs (x : Number) : Number := ofMagnitude false x.magnitude

def zero : Number := ofMagnitude false 0

def nan : Number := ofMagnitude false 0x7FF8000000000000

def infinity : Number := ofMagnitude false infinityMagnitude

/-- The leading bit of a significand, right above the 52 bits that are stored; it is left out of
the bits of a number and takes the place of the lowest exponent bit. -/
def leadingBit : Nat := 0x10000000000000

def scale (x : Number) : Int := (max (x.magnitude / leadingBit) 1 : Nat) - 1075

def significand (x : Number) : Nat :=
  if x.magnitude / leadingBit = 0 then x.magnitude
  else leadingBit + x.magnitude % leadingBit

def shiftRounded (n k : Nat) : Nat :=
  let unit := 1 <<< k
  let quotient := n / unit
  let twice := 2 * (n % unit)
  if unit < twice || (twice == unit && quotient % 2 == 1) then quotient + 1 else quotient

/-- The number nearest to `n * 2 ^ e`, a half going to the even significand; infinity when that
is out of range. A significand that rounds up to the next power of two carries into the
exponent, because the exponent bits stand right above it. -/
def ofScaled (negative : Bool) (n : Nat) (e : Int) : Number :=
  if n = 0 then ofMagnitude negative 0
  else
    let top : Int := n.log2 + e
    let unit : Int := max (top - 52) (-1074)
    let drop : Int := unit - e
    let rounded := if 0 ≤ drop then shiftRounded n drop.toNat else n <<< (-drop).toNat
    let magnitude := (unit + 1074).toNat * leadingBit + rounded
    ofMagnitude negative (min magnitude infinityMagnitude)

def ofNat (n : Nat) : Number := ofScaled false n 0

def ofInt (n : Int) : Number := ofScaled (n < 0) n.natAbs 0

/-- The number nearest to `n / d`. The quotient is taken with at least 64 significant bits and a
last bit that records whether anything was cut off, so rounding it again is exact. -/
def ofRatio (negative : Bool) (n d : Nat) : Number :=
  if n = 0 then ofMagnitude negative 0
  else
    let s := d.log2 + 66 - n.log2
    let scaled := n <<< s
    let sticky := if scaled % d = 0 then 0 else 1
    ofScaled negative (2 * (scaled / d) + sticky) (-(s : Int) - 1)

def wholeMagnitude (x : Number) : Nat :=
  if 0 ≤ x.scale then x.significand <<< x.scale.toNat else x.significand >>> (-x.scale).toNat

def isIntegral (x : Number) : Bool :=
  x.isFinite && (0 ≤ x.scale || x.significand % (1 <<< (-x.scale).toNat) == 0)

def trunc (x : Number) : Number :=
  if x.isFinite then ofScaled x.isNegative x.wholeMagnitude 0 else x

def floor (x : Number) : Number :=
  if !x.isFinite || x.isIntegral then x
  else if x.isNegative then ofScaled true (x.wholeMagnitude + 1) 0
  else ofScaled false x.wholeMagnitude 0

def toInt (x : Number) : Int :=
  if x.isNegative then -(x.wholeMagnitude : Int) else x.wholeMagnitude

def maxCount : Nat := 0xFFFFFFFFFFFFFFFF

/-- The count nearest to `x` toward zero: 0 for NaN and for what is negative, the largest count
for what is too large. -/
def toCount (x : Number) : Nat :=
  if x.isNaN || x.isNegative then 0
  else if x.isInfinite then maxCount
  else min x.wholeMagnitude maxCount

def add (x y : Number) : Number := ⟨(Float.ofBits x.bits + Float.ofBits y.bits).toBits⟩

def sub (x y : Number) : Number := ⟨(Float.ofBits x.bits - Float.ofBits y.bits).toBits⟩

def mul (x y : Number) : Number := ⟨(Float.ofBits x.bits * Float.ofBits y.bits).toBits⟩

def div (x y : Number) : Number := ⟨(Float.ofBits x.bits / Float.ofBits y.bits).toBits⟩

/-- The remainder of `x` by `y`, of the sign of `x` and exact: both magnitudes are integers in
units of the smaller last place. -/
def rem (x y : Number) : Number :=
  if x.isNaN || y.isNaN || x.isInfinite || y.magnitude == 0 then nan
  else if y.isInfinite then x
  else
    let unit := min x.scale y.scale
    let a := x.significand <<< (x.scale - unit).toNat
    let b := y.significand <<< (y.scale - unit).toNat
    ofScaled x.isNegative (a % b) unit

def min (x y : Number) : Number :=
  if x.isNaN then y else if y.lt x then y else x

def max (x y : Number) : Number :=
  if x.isNaN then y else if x.lt y then y else x

end Number

end Stagewise
