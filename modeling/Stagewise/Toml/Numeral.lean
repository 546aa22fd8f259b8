import Stagewise.Json.Reader
import Stagewise.Toml.Basic

/-!
# Numerals and moments in configurations

Whole numbers are decimal, or hexadecimal, octal or binary behind their marks; they fit a signed
machine word. Other numbers have a fraction, an exponent or a name. Single underscores may stand
between digits. Moments are dates and times of day.
-/

set_option autoImplicit false

namespace Stagewise.Toml

def digits? (isDigit : Char → Bool) : List Char → Option (List Char × List Char)
  | [] => none
  | c :: cs =>
    if isDigit c then
      match cs with
      | '_' :: rest => (digits? isDigit rest).map fun (ds, rest) => (c :: ds, rest)
      | d :: rest =>
        if isDigit d then (digits? isDigit (d :: rest)).map fun (ds, rest) => (c :: ds, rest)
        else some ([c], d :: rest)
      | [] => some ([c], [])
    else none

def whole? : List Char → Option (List Char × List Char)
  | '0' :: cs => some (['0'], cs)
  | cs => digits? Char.isDigit cs

def digitBelow? (base : Nat) (c : Char) : Option Nat :=
  (Json.Reader.hexValue? c).filter fun d => d < base

def based? (base : Nat) (cs : List Char) : Option (Toml × List Char) := do
  let (ds, rest) ← digits? (fun c => (digitBelow? base c).isSome) cs
  let n := ds.foldl (fun n c => n * base + (digitBelow? base c).getD 0) 0
  if n < 0x8000000000000000 then return (.integer n, rest) else none

def exponent? : List Char → Option (Option Int × List Char)
  | c :: cs =>
    if c = 'e' || c = 'E' then
      let (negative, cs) := match cs with
        | '-' :: cs => (true, cs)
        | '+' :: cs => (false, cs)
        | cs => (false, cs)
      (digits? Char.isDigit cs).map fun (ds, rest) =>
        let n : Int := Json.Reader.digitsValue ds
        (some (if negative then -n else n), rest)
    else some (none, c :: cs)
  | [] => some (none, [])

/-- A decimal numeral after its sign. One beyond all numbers is refused if it is positive and
infinite if it is negative. -/
def decimal? (negative : Bool) (cs : List Char) : Option (Toml × List Char) := do
  let (whole, cs) ← whole? cs
  let (part, pointed, cs) ← match cs with
    | '.' :: cs => (digits? Char.isDigit cs).map fun (ds, rest) => (ds, true, rest)
    | cs => some ([], false, cs)
  let (power, cs) ← exponent? cs
  if !pointed && power.isNone then
    let n : Int := Json.Reader.digitsValue whole
    let n := if negative then -n else n
    if n < -0x8000000000000000 || 0x8000000000000000 ≤ n then none
    else return (.integer n, cs)
  else
    let decimal : Decimal :=
      ⟨Json.Reader.digitsValue (whole ++ part), power.getD 0 - part.length⟩
    let x := decimal.toNumber negative
    if x.isInfinite && !negative then none else return (.number x, cs)

def unsigned? (negative : Bool) : List Char → Option (Toml × List Char)
  | 'i' :: 'n' :: 'f' :: cs =>
    some (.number (if negative then Number.infinity.neg else Number.infinity), cs)
  | 'n' :: 'a' :: 'n' :: cs => some (.number (if negative then Number.nan.neg else Number.nan), cs)
  | cs => decimal? negative cs

def numeral? : List Char → Option (Toml × List Char)
  | '0' :: 'x' :: cs => based? 16 cs
  | '0' :: 'o' :: cs => based? 8 cs
  | '0' :: 'b' :: cs => based? 2 cs
  | '-' :: cs => unsigned? true cs
  | '+' :: cs => unsigned? false cs
  | cs => unsigned? false cs

def field? (width low high : Nat) (cs : List Char) : Option (Nat × List Char) :=
  let ds := cs.take width
  let n := Json.Reader.digitsValue ds
  if ds.length = width && ds.all Char.isDigit && low ≤ n && n ≤ high then some (n, cs.drop width)
  else none

def isLeap (year : Nat) : Bool := year % 4 = 0 && (year % 100 ≠ 0 || year % 400 = 0)

def daysIn (year month : Nat) : Nat :=
  if month = 2 then if isLeap year then 29 else 28
  else if [4, 6, 9, 11].contains month then 30
  else 31

def date? (cs : List Char) : Option (List Char) := do
  let (year, cs) ← field? 4 0 9999 cs
  let (month, cs) ← field? 2 1 12 (← Json.Reader.expect ['-'] cs)
  let (_, cs) ← field? 2 1 (daysIn year month) (← Json.Reader.expect ['-'] cs)
  return cs

def clock? (cs : List Char) : Option (List Char) := do
  let (_, cs) ← field? 2 0 23 cs
  let (_, cs) ← field? 2 0 59 (← Json.Reader.expect [':'] cs)
  let (_, cs) ← field? 2 0 60 (← Json.Reader.expect [':'] cs)
  match cs with
  | '.' :: cs => (Json.Reader.digits cs).map Prod.snd
  | cs => return cs

def zone? : List Char → Option (List Char)
  | c :: cs =>
    if c = 'Z' || c = 'z' then some cs
    else if c = '+' || c = '-' then do
      let (_, cs) ← field? 2 0 23 cs
      let (_, cs) ← field? 2 0 59 (← Json.Reader.expect [':'] cs)
      return cs
    else some (c :: cs)
  | [] => some []

def afterMoment? (cs : List Char) : Option (List Char) :=
  match date? cs with
  | none => clock? cs
  | some [] => some []
  | some (c :: rest) =>
    if c = 'T' || c = 't' || c = ' ' then
      match clock? rest with
      | some rest => zone? rest
      | none => some (c :: rest)
    else some (c :: rest)

def moment? (cs : List Char) : Option (Toml × List Char) :=
  (afterMoment? cs).map fun rest =>
    (.moment (String.ofList (cs.take (cs.length - rest.length))), rest)

end Stagewise.Toml
