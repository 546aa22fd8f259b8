import Stagewise.Text.Ignorable
import Stagewise.Text.Mark
import Stagewise.Text.Shapeless

/-!
# Quoted text

Text between double quotes, with a backslash before quotes and backslashes, short escapes for
the common control characters and a four digit code for the others.
-/

set_option autoImplicit false

namespace Stagewise.Text

def hexDigit (n : Nat) : Char := (Nat.toDigits 16 (n % 16)).headD '0'

def escape (c : Char) : List Char :=
  if c = '"' then ['\\', '"']
  else if c = '\\' then ['\\', '\\']
  else if c = '\n' then ['\\', 'n']
  else if c = '\r' then ['\\', 'r']
  else if c = '\t' then ['\\', 't']
  else if c.toNat = 8 then ['\\', 'b']
  else if c.toNat = 12 then ['\\', 'f']
  else if c.toNat < 32 then ['\\', 'u', '0', '0', hexDigit (c.toNat / 16), hexDigit c.toNat]
  else [c]

def quote (s : String) : String :=
  String.ofList ('"' :: s.toList.flatMap escape ++ ['"'])

/-- What stands for one character in inspected text: a mark, a shapeless and an ignorable character
are written as their code in braces. -/
def inspectEscape (c : Char) : List Char :=
  if c = '"' then ['\\', '"']
  else if c = '\\' then ['\\', '\\']
  else if c = '\n' then ['\\', 'n']
  else if c = '\r' then ['\\', 'r']
  else if c = '\t' then ['\\', 't']
  else if c.toNat = 0 then ['\\', '0']
  else if isMark c || isShapeless c || isIgnorable c then
    '\\' :: 'u' :: '\x7b' :: Nat.toDigits 16 c.toNat ++ ['\x7d']
  else [c]

def inspect (s : String) : String :=
  String.ofList ('"' :: s.toList.flatMap inspectEscape ++ ['"'])

def inspectList (texts : List String) : String :=
  "[" ++ ", ".intercalate (texts.map inspect) ++ "]"

def join (separator : String) (texts : List String) : String := separator.intercalate texts

end Stagewise.Text
