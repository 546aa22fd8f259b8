import Stagewise.Source.Span
import Stagewise.Term.Text

/-!
# Errors

An evaluation fails for a cause, which fixes the category and the text of the error, or because
the program throws a value.
-/

set_option autoImplicit false

namespace Stagewise

inductive Category where
  | type
  | staging
  | assertion
  | contradiction
deriving DecidableEq

namespace Category

def title : Category → String
  | type => "type error"
  | staging => "staging error"
  | assertion => "assertion failed"
  | contradiction => "contradictory constraint"

def code : Category → String
  | type => "refine::type_error"
  | staging => "refine::staging_error"
  | assertion => "refine::assertion_error"
  | contradiction => "refine::contradiction"

end Category

inductive Subject where
  | value (v : Value)
  | known (c : Constraint)
  | thing (name : String)

def Subject.text : Subject → String
  | value v => v.repr
  | known c => c.text
  | thing name => name

inductive Cause where
  | cannotAdd (a b : Value)
  | notNumbers (op : BinaryOp) (a b : Value)
  | cannotCompare (a b : Value)
  | notBooleans (op : BinaryOp) (a b : Value)
  | cannotNegate (v : Value)
  | cannotInvert (v : Value)
  | conditionNotBoolean (v : Value)
  | noField (subject : Subject) (name : String)
  | cannotReadField (subject : Subject) (name : String)
  | outOfBounds (key : Value) (subject : Subject)
  | cannotIndexWith (object key : Value)
  | cannotIndex (subject : Subject)
  | invalidIndex (key : Value)
  | cannotSpreadIntoObject (subject : Subject)
  | cannotSpreadIntoArray (subject : Subject)
  | cannotTakeRest (subject : Subject)
  | unbound (name : String)
  | notAType (subject : Subject)
  | typeNotKnown (type : Term)
  | emptyType (type : Term)
  | notMatching (v : Value) (p : Pattern)
  | neverMatchesPattern (c : Constraint) (p : Pattern)
  | neverMatchesType (c type : Constraint)
  | noCaseAccepts (v : Value)
  | notExhaustive (c : Constraint)
  | onlyDeclared (name module : String) (c : Constraint)
  | noExport (module name : String)
  | assertNotBoolean (subject : Subject)
  | assertedFalse (condition : Term)
  | notSatisfied (v : Value) (c : Constraint)
  | wrongArgumentCount (form : String)
  | depthExceeded (limit : Nat)
  | unknownBuiltin (name : String)
  | notAFunction (subject : Subject)
  | arity (subject : Subject) (expected actual : Nat)
  | parameter (name : String) (expected : Constraint) (actual : Subject)
  | argument (position : Nat) (builtin : String) (expected actual : Constraint)
  | mismatch (what : String) (actual : Value)
  | missingArgument (position : Nat)
  | lengthOf (v : Value)
  | separator (v : Value)
  | filterResult (v : Value)
  | endlessRange (start stop : Number)
  | fieldName
  | notFieldTypes
  | notFieldType (name : String) (v : Value)
  | notItemType (v : Value)
  | notEntry (v : Value)
  | builderResult (v : Value)
  | builderNotKnown
  | operand (what : String) (expected actual : Constraint)
  | notKnown (e : Term)
  | inputNameNotKnown
  | inputNotKnown (e : Term)
  | argumentsNotKnown (builtin : String)
  | functionArguments (builtin : String)
  | tooManySpecializations (limit : Nat) (name : String)
  | noRuntimeForm (v : Value)
  | stated (category : Category) (message : String)

namespace Cause

def category : Cause → Category
  | typeNotKnown _ | depthExceeded _ | builderNotKnown | notKnown _ | inputNameNotKnown
  | inputNotKnown _ | argumentsNotKnown _ | functionArguments _ | tooManySpecializations _ _
  | noRuntimeForm _ => .staging
  | assertedFalse _ | notSatisfied _ _ => .assertion
  | emptyType _ => .contradiction
  | stated category _ => category
  | _ => .type

def message : Cause → String
  | cannotAdd a b => s!"cannot add {a.repr} and {b.repr}"
  | notNumbers op a b => s!"operator `{op.symbol}` expects numbers, got {a.repr} and {b.repr}"
  | cannotCompare a b => s!"cannot compare {a.repr} with {b.repr}"
  | notBooleans op a b => s!"operator `{op.symbol}` expects booleans, got {a.repr} and {b.repr}"
  | cannotNegate v => s!"cannot negate {v.repr}"
  | cannotInvert v => s!"`!` expects a boolean, got {v.repr}"
  | conditionNotBoolean v => s!"condition must be a boolean, got {v.repr}"
  | noField subject name => s!"{subject.text} has no field `{name}`"
  | cannotReadField subject name => s!"cannot read field `{name}` of {subject.text}"
  | outOfBounds key subject => s!"index {key.repr} out of bounds for {subject.text}"
  | cannotIndexWith object key => s!"cannot index {object.repr} with {key.repr}"
  | cannotIndex subject => s!"cannot index {subject.text}"
  | invalidIndex key => s!"{key.repr} is not a valid index"
  | cannotSpreadIntoObject subject => s!"cannot spread {subject.text} into an object"
  | cannotSpreadIntoArray subject => s!"cannot spread {subject.text} into an array"
  | cannotTakeRest subject => s!"cannot take the rest of {subject.text}"
  | unbound name => s!"unbound variable `{name}`"
  | notAType subject => s!"{subject.text} is not a type"
  | typeNotKnown type => s!"type `{type.text}` must be known at compile time"
  | emptyType type => s!"type `{type.text}` admits no value"
  | notMatching v p => s!"{v.repr} does not match pattern {p.text}"
  | neverMatchesPattern c p => s!"{c.text} can never match pattern {p.text}"
  | neverMatchesType c type => s!"{c.text} can never match type {type.text}"
  | noCaseAccepts v => s!"no match case accepts {v.repr}"
  | notExhaustive c => s!"non-exhaustive match: no case accepts {c.text}"
  | onlyDeclared name module c =>
    s!"`{name}` from \"{module}\" is only declared ({c.text}); it has no value to run with"
  | noExport module name => s!"module \"{module}\" has no export `{name}`"
  | assertNotBoolean subject => s!"assert condition must be a boolean, got {subject.text}"
  | assertedFalse condition => s!"{condition.text} is false"
  | notSatisfied v c => s!"{v.repr} does not satisfy {c.text}"
  | wrongArgumentCount form => s!"wrong number of arguments to `{form}`"
  | depthExceeded limit => s!"call depth exceeded {limit}"
  | unknownBuiltin name => s!"unknown builtin `{name}`"
  | notAFunction subject => s!"{subject.text} is not a function"
  | arity subject expected actual =>
    s!"{subject.text} expects {expected} argument(s), got {actual}"
  | parameter name expected actual =>
    s!"parameter `{name}` expects {expected.text}, got {actual.text}"
  | argument position builtin expected actual =>
    s!"argument {position} of `{builtin}` must be {expected.text}, got {actual.text}"
  | mismatch what actual => s!"expected {what}, got {actual.repr}"
  | missingArgument position => s!"missing argument {position}"
  | lengthOf v => s!"`length` expects an array or a string, got {v.repr}"
  | separator v => s!"`join` separator must be a string, got {v.repr}"
  | filterResult v => s!"`filter` predicate returned {v.repr}"
  | endlessRange start stop => s!"range from {start.text} to {stop.text} has no end"
  | fieldName => "`fieldType` expects a field name"
  | notFieldTypes => "`objectType` expects an object of types"
  | notFieldType name v => s!"field `{name}` of `objectType` is {v.repr}, not a type"
  | notItemType v => s!"`tupleType` element {v.repr} is not a type"
  | notEntry v => s!"entry {v.repr} is not a [name, value] pair"
  | builderResult v => s!"`recType` builder returned {v.repr}, not a type"
  | builderNotKnown => "`recType` builder must produce a type at compile time"
  | operand what expected actual => s!"{what} expects {expected.text}, got {actual.text}"
  | notKnown e => s!"`{e.text}` is not known at compile time"
  | inputNameNotKnown => "`runtime` input name must be a compile-time string"
  | inputNotKnown e => s!"`runtime` needs a compile-time value, got `{e.text}`"
  | argumentsNotKnown builtin => s!"`{builtin}` needs compile-time arguments"
  | functionArguments builtin => s!"`{builtin}` cannot run with function arguments"
  | tooManySpecializations limit name =>
    s!"more than {limit} specializations; `{name}` is called with too many compile-time keys"
  | noRuntimeForm v => s!"{v.repr} has no runtime representation"
  | stated _ message => message

end Cause

inductive Error where
  | failure (cause : Cause) (span : Option Span)
  | thrown (v : Value)
  | generic (message : String)

namespace Error

def of (cause : Cause) : Error := failure cause none

def located (span : Option Span) (cause : Cause) : Error := failure cause span

def withSpan (span : Option Span) : Error → Error
  | failure cause none => failure cause span
  | e => e

def span? : Error → Option Span
  | failure _ span => span
  | _ => none

def message : Error → String
  | failure cause _ => cause.message
  | thrown v => v.text
  | generic message => message

def text : Error → String
  | failure cause _ => s!"{cause.category.title}: {cause.message}"
  | thrown v => s!"uncaught throw: {v.text}"
  | generic message => message

def code : Error → String
  | failure cause _ => cause.category.code
  | thrown _ => "refine::thrown"
  | generic _ => "refine::generic"

end Error

end Stagewise
