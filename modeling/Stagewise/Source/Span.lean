/-!
# Spans

The range of a program text that a part of the program was read from.
-/

set_option autoImplicit false

namespace Stagewise

/-- A range of offsets; nothing keeps the end behind the start. -/
structure Span where
  lo : Nat
  hi : Nat
deriving DecidableEq, Inhabited

namespace Span

def length (s : Span) : Nat := s.hi - s.lo

def isEmpty (s : Span) : Bool := s.length == 0

def join (s t : Span) : Span := ⟨min s.lo t.lo, max s.hi t.hi⟩

def text (s : Span) : String := s!"Span({s.lo}-{s.hi})"

end Span

end Stagewise
