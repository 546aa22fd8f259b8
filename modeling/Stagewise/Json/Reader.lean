import Stagewise.Json.Basic

/-!
# Reading documents

The reader takes a whole text and refuses anything but one document with blanks around it. Each
step gives its result and the characters not yet read. Lists and records may be nested 127 deep.
-/

set_option autoImplicit false

namespace Stagewise.Json

namespace Reader

def isBlank (c : Char) : Bool := c = ' ' || c = '\n' || c = '\t' || c = '\r'

def skipBlanks (cs : List Char) : List Char := cs.dropWhile isBlank

def expect : List Char → List Char → Option (List Char)
  | [], cs => some cs
  | _, [] => none
  | w :: ws, c :: cs => if w = c then expect ws cs else none

def hexValue? (c : Char) : Option Nat :=
  if '0' ≤ c ∧ c ≤ '9' then some (c.toNat - 48)
  else if 'a' ≤ c ∧ c ≤ 'f' then some (c.toNat - 87)
  else if 'A' ≤ c ∧ c ≤ 'F' then some (c.toNat - 55)
  else none

def unit? : List Char → Option (Nat × List Char)
  | a :: b :: c :: d :: cs => do
    let a ← hexValue? a
    let b ← hexValue? b
    let c ← hexValue? c
    let d ← hexValue? d
    return (((a * 16 + b) * 16 + c) * 16 + d, cs)
  | _ => none

def coded (cs : List Char) : Option (Char × List Char) := do
  let (high, rest) ← unit? cs
  if 0xD800 ≤ high ∧ high < 0xDC00 then
    let rest ← expect ['\\', 'u'] rest
    let (low, rest) ← unit? rest
    if 0xDC00 ≤ low ∧ low < 0xE000 then
      return (Char.ofNat (0x10000 + (high - 0xD800) * 0x400 + (low - 0xDC00)), rest)
    else none
  else if 0xDC00 ≤ high ∧ high < 0xE000 then none
  else return (Char.ofNat high, rest)

def escaped : List Char → Option (Char × List Char)
  | '"' :: cs => some ('"', cs)
  | '\\' :: cs => some ('\\', cs)
  | '/' :: cs => some ('/', cs)
  | 'b' :: cs => some (Char.ofNat 8, cs)
  | 'f' :: cs => some (Char.ofNat 12, cs)
  | 'n' :: cs => some ('\n', cs)
  | 'r' :: cs => some ('\r', cs)
  | 't' :: cs => some ('\t', cs)
  | 'u' :: cs => coded cs
  | _ => none

/-- The rest of a text after its opening quote; `fuel` is at least the number of characters. -/
def text (fuel : Nat) (cs : List Char) (acc : List Char) : Option (String × List Char) :=
  match fuel, cs with
  | _, [] => none
  | 0, _ => none
  | fuel + 1, c :: cs =>
    if c = '"' then some (String.ofList acc.reverse, cs)
    else if c = '\\' then
      match escaped cs with
      | some (c, cs) => text fuel cs (c :: acc)
      | none => none
    else if c.toNat < 32 then none
    else text fuel cs (c :: acc)

def digitsValue (digits : List Char) : Nat :=
  digits.foldl (fun acc c => acc * 10 + (c.toNat - 48)) 0

def digits (cs : List Char) : Option (List Char × List Char) :=
  match cs.takeWhile Char.isDigit with
  | [] => none
  | ds => some (ds, cs.dropWhile Char.isDigit)

def wholeDigits : List Char → Option (List Char × List Char)
  | '0' :: cs =>
    match cs with
    | c :: _ => if c.isDigit then none else some (['0'], cs)
    | [] => some (['0'], cs)
  | cs => digits cs

def fraction : List Char → Option (List Char × List Char)
  | '.' :: cs => digits cs
  | cs => some ([], cs)

def exponent : List Char → Option (Option Int × List Char)
  | c :: cs =>
    if c = 'e' ∨ c = 'E' then
      match cs with
      | '-' :: cs => (digits cs).map fun (ds, cs) => (some (-(digitsValue ds : Int)), cs)
      | '+' :: cs => (digits cs).map fun (ds, cs) => (some (digitsValue ds : Int), cs)
      | cs => (digits cs).map fun (ds, cs) => (some (digitsValue ds : Int), cs)
    else some (none, c :: cs)
  | [] => some (none, [])

/-- A numeral. Whole ones that fit a machine word are integers; minus zero is not, because it
has its own sign. Numerals out of range are refused. -/
def numeral (negative : Bool) (cs : List Char) : Option (Json × List Char) := do
  let (whole, cs) ← wholeDigits cs
  let pointed := cs.head? = some '.'
  let (part, cs) ← fraction cs
  let (power, cs) ← exponent cs
  let n := digitsValue whole
  let fits := if negative then 0 < n ∧ n ≤ 0x8000000000000000 else n ≤ Number.maxCount
  if !pointed ∧ power.isNone ∧ fits then
    return (.integer (if negative then -(n : Int) else n), cs)
  else
    let decimal : Decimal :=
      ⟨digitsValue (whole ++ part), power.getD 0 - part.length⟩
    let x := decimal.toNumber negative
    if x.isFinite then return (.number x, cs) else none

def items (value : List Char → Option (Json × List Char)) (fuel : Nat) (cs : List Char)
    (acc : List Json) : Option (List Json × List Char) :=
  match fuel with
  | 0 => none
  | fuel + 1 =>
    match value cs with
    | none => none
    | some (item, cs) =>
      match skipBlanks cs with
      | ',' :: cs => items value fuel cs (item :: acc)
      | ']' :: cs => some ((item :: acc).reverse, cs)
      | _ => none

def fields (total : Nat) (value : List Char → Option (Json × List Char)) (fuel : Nat)
    (cs : List Char) (acc : List (String × Json)) : Option (List (String × Json) × List Char) :=
  match fuel with
  | 0 => none
  | fuel + 1 =>
    match skipBlanks cs with
    | '"' :: cs =>
      match text total cs [] with
      | none => none
      | some (name, cs) =>
        match skipBlanks cs with
        | ':' :: cs =>
          match value cs with
          | none => none
          | some (item, cs) =>
            match skipBlanks cs with
            | ',' :: cs => fields total value fuel cs ((name, item) :: acc)
            | '}' :: cs => some (((name, item) :: acc).reverse, cs)
            | _ => none
        | _ => none
    | _ => none

/-- A document in which lists and records are nested less than `depth` deep; `total` is at least
the number of characters. -/
def value (total depth : Nat) (cs : List Char) : Option (Json × List Char) :=
  match skipBlanks cs with
  | 'n' :: cs => (expect "ull".toList cs).map fun cs => (.null, cs)
  | 't' :: cs => (expect "rue".toList cs).map fun cs => (.bool true, cs)
  | 'f' :: cs => (expect "alse".toList cs).map fun cs => (.bool false, cs)
  | '"' :: cs => (text total cs []).map fun (s, cs) => (.string s, cs)
  | '-' :: cs => numeral true cs
  | '[' :: cs =>
    match depth with
    | 0 | 1 => none
    | depth + 1 =>
      match skipBlanks cs with
      | ']' :: cs => some (.array [], cs)
      | cs => (items (value total depth) total cs []).map fun (xs, cs) => (.array xs, cs)
  | '{' :: cs =>
    match depth with
    | 0 | 1 => none
    | depth + 1 =>
      match skipBlanks cs with
      | '}' :: cs => some (.object [], cs)
      | cs => (fields total (value total depth) total cs []).map fun (xs, cs) => (.object xs, cs)
  | cs => numeral false cs

end Reader

def parse? (s : String) : Option Json :=
  match Reader.value s.length 128 s.toList with
  | some (json, rest) => if (Reader.skipBlanks rest).isEmpty then some json else none
  | none => none

end Stagewise.Json
