import BottomUpPeg.Text.Span

namespace BottomUpPeg

namespace Text

def offsetsFrom (place : Nat) : List Char → List Nat
  | [] => [place]
  | c :: rest => place :: offsetsFrom (place + c.utf8Size) rest

/-- The part of a text between two places in its encoded form. There is none unless a character
begins or the text ends at both, and the first is not behind the second. -/
def between? (text : String) (start stop : Nat) : Option String :=
  if h : String.Pos.Raw.IsValid text ⟨start⟩ ∧ String.Pos.Raw.IsValid text ⟨stop⟩ ∧
      start ≤ stop then
    some (String.extract ⟨⟨start⟩, h.1⟩ ⟨⟨stop⟩, h.2.1⟩)
  else none

end Text

namespace Input

def offsets (input : Input) : List Nat := Text.offsetsFrom 0 input.toList

def slice? (input : Input) (span : Span) : Option String :=
  match input.offsets[span.start]?, input.offsets[span.stop]? with
  | some start, some stop => Text.between? input.toString start stop
  | _, _ => none

end Input

end BottomUpPeg
