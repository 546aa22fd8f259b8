/-!
# Special forms

Calls that evaluate their arguments in a way of their own. A form is known by its name, as long as
the program does not bind the name.
-/

set_option autoImplicit false

namespace Stagewise

inductive Form where
  | comptime
  | runtime
  | typeOf
  | assert
  | trust
deriving DecidableEq

namespace Form

def name : Form → String
  | comptime => "comptime"
  | runtime => "runtime"
  | typeOf => "typeOf"
  | assert => "assert"
  | trust => "trust"

def ofName? (name : String) : Option Form :=
  [comptime, runtime, typeOf, assert, trust].find? fun form => form.name == name

end Form

end Stagewise
