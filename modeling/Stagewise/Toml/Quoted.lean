import Stagewise.Json.Reader

/-!
# Quoted text in configurations

Texts stand in double quotes, where a backslash escapes, or in single quotes, where nothing does.
Three quotes open and close a text of several lines. A new line right after the opening quotes is
left out, and every new line of the text is one character.
-/

set_option autoImplicit false

namespace Stagewise.Toml

def apostrophe : Char := Char.ofNat 39

def isBlank (c : Char) : Bool := c = ' ' || c = '\t'

def skipBlanks (cs : List Char) : List Char := cs.dropWhile isBlank

def isText (c : Char) : Bool := c = '\t' || (32 ≤ c.toNat && c.toNat ≠ 127)

def newLine? : List Char → Option (List Char)
  | '\n' :: cs | '\r' :: '\n' :: cs => some cs
  | _ => none

def coded? (digits : Nat) (cs : List Char) : Option (Char × List Char) := do
  let code := cs.take digits
  if code.length ≠ digits then none
  else
    let values ← code.mapM Json.Reader.hexValue?
    let n := values.foldl (fun n d => n * 16 + d) 0
    if n.isValidChar then return (Char.ofNat n, cs.drop digits) else none

def escaped? : List Char → Option (Char × List Char)
  | '"' :: cs => some ('"', cs)
  | '\\' :: cs => some ('\\', cs)
  | 'b' :: cs => some (Char.ofNat 8, cs)
  | 'f' :: cs => some (Char.ofNat 12, cs)
  | 'n' :: cs => some ('\n', cs)
  | 'r' :: cs => some ('\r', cs)
  | 't' :: cs => some ('\t', cs)
  | 'u' :: cs => coded? 4 cs
  | 'U' :: cs => coded? 8 cs
  | _ => none

def line? (quote : Char) : Nat → List Char → List Char → Option (String × List Char)
  | fuel + 1, c :: cs, acc =>
    if c = quote then some (String.ofList acc.reverse, cs)
    else if quote = '"' && c = '\\' then
      match escaped? cs with
      | some (c, cs) => line? quote fuel cs (c :: acc)
      | none => none
    else if isText c then line? quote fuel cs (c :: acc)
    else none
  | _, _, _ => none

def skipLines : List Char → List Char
  | '\r' :: '\n' :: cs => skipLines cs
  | c :: cs => if isBlank c || c = '\n' then skipLines cs else c :: cs
  | [] => []

def continued? (cs : List Char) : Option (List Char) := (newLine? (skipBlanks cs)).map skipLines

/-- The rest of a text of several lines. Up to two quotes may stand right before the closing
ones. -/
def lines? (quote : Char) : Nat → List Char → List Char → Option (String × List Char)
  | fuel + 1, c :: cs, acc =>
    if c = quote then
      let count := ((c :: cs).takeWhile fun d => d = quote).length
      if count < 3 then
        lines? quote fuel ((c :: cs).drop count) (List.replicate count quote ++ acc)
      else
        let inner := min (count - 3) 2
        some (String.ofList (List.replicate inner quote ++ acc).reverse, (c :: cs).drop (inner + 3))
    else
      match newLine? (c :: cs) with
      | some cs => lines? quote fuel cs ('\n' :: acc)
      | none =>
        if quote = '"' && c = '\\' then
          match continued? cs with
          | some cs => lines? quote fuel cs acc
          | none =>
            match escaped? cs with
            | some (c, cs) => lines? quote fuel cs (c :: acc)
            | none => none
        else if isText c then lines? quote fuel cs (c :: acc)
        else none
  | _, _, _ => none

def quotedLine? : List Char → Option (String × List Char)
  | [] => none
  | quote :: cs =>
    if quote = '"' || quote = apostrophe then line? quote (cs.length + 1) cs [] else none

def quoted? (cs : List Char) : Option (String × List Char) :=
  match cs with
  | a :: b :: c :: rest =>
    if (a = '"' || a = apostrophe) && b = a && c = a then
      let rest := (newLine? rest).getD rest
      lines? a (rest.length + 1) rest []
    else quotedLine? cs
  | cs => quotedLine? cs

end Stagewise.Toml
