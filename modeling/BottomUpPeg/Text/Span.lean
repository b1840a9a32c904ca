namespace BottomUpPeg

abbrev Input := Array Char

structure Span where
  start : Nat
  stop : Nat
  deriving DecidableEq, Repr

namespace Span

def length (span : Span) : Nat := span.stop - span.start

def isEmpty (span : Span) : Bool := span.start == span.stop

def display (span : Span) : String := toString span.start ++ ".." ++ toString span.stop

end Span

namespace Input

def ofString (s : String) : Input := s.toList.toArray

def toString (input : Input) : String := String.ofList input.toList

def text (input : Input) (span : Span) : String :=
  String.ofList (input.extract span.start span.stop).toList

def text? (input : Input) (span : Span) : Option String :=
  if span.start ≤ span.stop ∧ span.stop ≤ input.size then some (input.text span) else none

end Input

end BottomUpPeg
