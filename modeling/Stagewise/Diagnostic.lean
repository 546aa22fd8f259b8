import Stagewise.Error
import Stagewise.Term.Json

/-!
# Diagnostics

Findings about a program: what an evaluation reports without failing, and errors in the form in
which they are shown.
-/

set_option autoImplicit false

namespace Stagewise

inductive Level where
  | info
  | warning
  | error
deriving DecidableEq

namespace Level

def name : Level → String
  | info => "info"
  | warning => "warning"
  | error => "error"

def title : Level → String
  | info => "INFO"
  | warning => "WARNING"
  | error => "ERROR"

def ofName? (name : String) : Option Level :=
  [info, warning, error].find? fun level => level.name == name

end Level

structure Diagnostic where
  level : Level
  message : String
  span : Option Span := none
  suggestions : List String := []
  code : Option String := none

namespace Diagnostic

def warning (message : String) (span : Option Span) : Diagnostic :=
  ⟨.warning, message, span, [], none⟩

/-- An error as a finding. Its span ends behind its start. -/
def ofError (e : Error) : Diagnostic :=
  ⟨.error, e.text, e.span?.map fun s => ⟨s.lo, s.lo + s.length⟩, [], some e.code⟩

def isError (d : Diagnostic) : Bool := d.level == .error

def text (d : Diagnostic) : String :=
  let code := match d.code with
    | some code => s!" [{code}]"
    | none => ""
  let hints :=
    if d.suggestions.isEmpty then "" else " (hints: " ++ Text.join "; " d.suggestions ++ ")"
  d.message ++ code ++ hints

def toJson (d : Diagnostic) : Json :=
  Json.present [("level", some (.string d.level.name)), ("message", some (.string d.message)),
    ("span", d.span.map Span.toJson),
    ("suggestions", if d.suggestions.isEmpty then none else some (.strings d.suggestions)),
    ("code", d.code.map .string)]

def ofJson? (json : Json) : Option Diagnostic := do
  match ← json.parts? ["level", "message", "span", "suggestions", "code"] with
  | [some level, some message, span, suggestions, code] =>
    let suggestions ← match suggestions with
      | none => some []
      | some items => do (← items.array?).mapM Json.string?
    return ⟨← Level.ofName? (← level.bareTag? .plain), ← message.string?,
      ← Json.optional? Span.ofJson? span, suggestions, ← Json.optional? Json.string? code⟩
  | _ => none

end Diagnostic

inductive Layout where
  | pretty
  | plain
deriving DecidableEq

namespace Layout

def name : Layout → String
  | pretty => "pretty"
  | plain => "plain"

def ofName? (name : String) : Option Layout := [pretty, plain].find? fun l => l.name == name

def header (context : String) (d : Diagnostic) : Layout → String
  | pretty =>
    s!"{d.level.name}[{context}]: {d.message}" ++
      match d.code with
      | some code => s!" ({code})"
      | none => ""
  | plain => s!"[{context}] {d.level.title}: {d.message}"

def spanLine (s : Span) : Layout → String
  | pretty => s!"  --> {s.text}"
  | plain => s!"   at {s.text}"

def hintLine (hint : String) : Layout → String
  | pretty => s!"  = help: {hint}"
  | plain => s!"   suggestion: {hint}"

def render (layout : Layout) (d : Diagnostic) (context : String) (verbose : Bool) : List String :=
  if d.level == .info && !verbose then []
  else
    layout.header context d ::
      (d.span.map fun s => layout.spanLine s).toList ++
      d.suggestions.map fun hint => layout.hintLine hint

end Layout

end Stagewise
