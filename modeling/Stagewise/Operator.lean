/-!
# Operators

The unary and binary operators of the language, their symbols and their classes.
-/

set_option autoImplicit false

namespace Stagewise

inductive UnaryOp where
  | neg
  | not
deriving DecidableEq, Inhabited

def UnaryOp.symbol : UnaryOp → String
  | .neg => "-"
  | .not => "!"

inductive BinaryOp where
  | add
  | sub
  | mul
  | div
  | mod
  | eq
  | ne
  | lt
  | le
  | gt
  | ge
  | and
  | or
deriving DecidableEq, Inhabited

namespace BinaryOp

def symbol : BinaryOp → String
  | add => "+"
  | sub => "-"
  | mul => "*"
  | div => "/"
  | mod => "%"
  | eq => "=="
  | ne => "!="
  | lt => "<"
  | le => "<="
  | gt => ">"
  | ge => ">="
  | and => "&&"
  | or => "||"

def isOrdering : BinaryOp → Bool
  | lt | le | gt | ge => true
  | _ => false

def isArithmetic : BinaryOp → Bool
  | add | sub | mul | div | mod => true
  | _ => false

def isLogical : BinaryOp → Bool
  | and | or => true
  | _ => false

def flip : BinaryOp → BinaryOp
  | lt => gt
  | le => ge
  | gt => lt
  | ge => le
  | op => op

end BinaryOp

end Stagewise
