import Stagewise.Number.Basic

/-!
# Decimal form of numbers

A number is written with the fewest decimal digits that read back to it. The digits are found
by exact arithmetic: the decimals that read back to a number form an interval, and on each grid
of decimals, coarse to fine, the two neighbours of the number are tried. Reading is exact as
well: a decimal is a ratio of naturals, and the nearest number is taken.
-/

set_option autoImplicit false

namespace Stagewise

structure Decimal where
  digits : Nat
  exponent : Int
deriving DecidableEq

namespace Decimal

def compareBinary (d : Decimal) (n : Nat) (e : Int) : Ordering :=
  compare ((d.digits * Nat.pow 10 d.exponent.toNat) <<< (-e).toNat)
    ((n * Nat.pow 10 (-d.exponent).toNat) <<< e.toNat)

/-- Whether `d` lies among the reals nearest to the magnitude of the finite number `x`: between
the middles of the gaps beside it, the middles included when the significand is even. Below a
power of two the gap is half as wide. -/
def readsBack (x : Number) (d : Decimal) : Bool :=
  let m := x.significand
  let narrow := m == Number.leadingBit && x.scale != -1074
  let low := d.compareBinary (if narrow then 4 * m - 1 else 4 * m - 2) (x.scale - 2)
  let high := d.compareBinary (4 * m + 2) (x.scale - 2)
  let even := m % 2 == 0
  (low == .gt || (even && low == .eq)) && (high == .lt || (even && high == .eq))

def strip : Nat → Decimal → Decimal
  | 0, d => d
  | n + 1, d =>
    if d.digits ≠ 0 ∧ d.digits % 10 = 0 then strip n ⟨d.digits / 10, d.exponent + 1⟩ else d

def width (n : Nat) : Nat := (Nat.toDigits 10 n).length

def places (x : Number) : Int :=
  if 0 ≤ x.scale then width (x.significand <<< x.scale.toNat)
  else
    -- scaled so that the quotient is at least one
    let shift : Nat := 330
    (width ((x.significand * Nat.pow 10 shift) >>> (-x.scale).toNat) : Int) - (shift : Int)

inductive Tie where
  | up
  | even
deriving DecidableEq

def Tie.takesLower (tie : Tie) (digits part whole : Nat) : Bool :=
  2 * part < whole || (2 * part == whole && tie == .even && digits % 2 == 0)

def onGrid (tie : Tie) (x : Number) (e : Int) : Option Decimal :=
  let num := (x.significand * Nat.pow 10 (-e).toNat) <<< x.scale.toNat
  let den := Nat.pow 10 e.toNat <<< (-x.scale).toNat
  let below : Decimal := ⟨num / den, e⟩
  let above : Decimal := ⟨num / den + 1, e⟩
  match below.readsBack x, above.readsBack x with
  | true, true => some (if tie.takesLower (num / den) (num % den) den then below else above)
  | true, false => some below
  | false, true => some above
  | false, false => none

/-- The shortest decimal that reads back to the magnitude of a finite number. Seventeen digits
always do; the last branch states the exact value. -/
def shortest (tie : Tie) (x : Number) : Decimal :=
  if x.magnitude = 0 then ⟨0, 0⟩
  else
    let top := places x
    match (List.range 17).findSome? fun n => onGrid tie x (top - ((n : Nat) + 1 : Int)) with
    | some d => strip 17 d
    | none =>
      if 0 ≤ x.scale then ⟨x.significand <<< x.scale.toNat, 0⟩
      else ⟨x.significand * Nat.pow 5 (-x.scale).toNat, x.scale⟩

def positional (d : Decimal) : String :=
  let digits := Nat.toDigits 10 d.digits
  if 0 ≤ d.exponent then String.ofList (digits ++ List.replicate d.exponent.toNat '0')
  else
    let after := (-d.exponent).toNat
    let padded := List.replicate (after + 1 - digits.length) '0' ++ digits
    let whole := padded.length - after
    String.ofList (padded.take whole ++ '.' :: padded.drop whole)

def scientific (d : Decimal) : String :=
  match Nat.toDigits 10 d.digits with
  | [] => "0"
  | [c] => String.singleton c ++ "e" ++ toString d.exponent
  | c :: cs =>
    String.ofList (c :: '.' :: cs) ++ "e" ++ toString (d.exponent + cs.length)

/-- The number nearest to `d`. Decimals far outside the range of numbers are answered without
writing them out. -/
def toNumber (negative : Bool) (d : Decimal) : Number :=
  let top := d.exponent + width d.digits
  if d.digits = 0 ∨ top < -330 then Number.ofMagnitude negative 0
  else if 310 < top then Number.ofMagnitude negative Number.infinityMagnitude
  else if 0 ≤ d.exponent then Number.ofScaled negative (d.digits * Nat.pow 10 d.exponent.toNat) 0
  else Number.ofRatio negative d.digits (Nat.pow 10 (-d.exponent).toNat)

end Decimal

namespace Number

def plain (x : Number) : String :=
  if x.isNaN then "NaN"
  else
    let sign := if x.isNegative then "-" else ""
    if x.isInfinite then sign ++ "inf" else sign ++ (Decimal.shortest .up x).positional

/-- The form in printed programs: integers up to fifteen digits have no sign of zero, and the
special values have their names in the language. -/
def text (x : Number) : String :=
  if x.isNaN then "NaN"
  else if x.isInfinite then if x.isNegative then "-Infinity" else "Infinity"
  else if x.isIntegral && x.wholeMagnitude < 1000000000000000 then toString x.toInt
  else x.plain

/-- The form in JSON documents: shortest digits, ties to the even digit, always with a point or an
exponent, an exponent outside `10 ^ -5` to `10 ^ 16`; the special values have no form and are
`none`. -/
def documentText? (x : Number) : Option String :=
  if !x.isFinite then none
  else
    let sign := if x.isNegative then "-" else ""
    let d := Decimal.shortest .even x
    let top := d.exponent + Decimal.width d.digits
    let body :=
      if d.digits = 0 then "0.0"
      else if -5 < top ∧ top ≤ 16 then
        if 0 ≤ d.exponent then d.positional ++ ".0" else d.positional
      else d.scientific
    some (sign ++ body)

end Number

end Stagewise
