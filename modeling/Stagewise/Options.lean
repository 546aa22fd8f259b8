import Stagewise.Json.Record

/-!
# Options

The limits and switches of an evaluation.
-/

set_option autoImplicit false

namespace Stagewise

structure Options where
  maxCallDepth : Nat := 64
  maxSpecializations : Nat := 64
  warnUnreachable : Bool := true
deriving DecidableEq, Inhabited

namespace Options

def toJson (o : Options) : Json :=
  .object [("max_call_depth", .integer o.maxCallDepth),
    ("max_specializations", .integer o.maxSpecializations),
    ("warn_unreachable", .bool o.warnUnreachable)]

def ofJson? (d : Json.Dialect) (json : Json) : Option Options := do
  match ← d.parts? ["max_call_depth", "max_specializations", "warn_unreachable"] json with
  | [depth, specializations, unreachable] =>
    return {
      maxCallDepth := ← Json.orDefault? Json.count? 64 depth
      maxSpecializations := ← Json.orDefault? Json.count? 64 specializations
      warnUnreachable := ← Json.orDefault? Json.bool? true unreachable }
  | _ => none

end Options

end Stagewise
