import BottomUpPeg.CharSet.Basic
import BottomUpPeg.Text.Escape

namespace BottomUpPeg.CharSet

def bracketEscape (c : Char) : List Char :=
  if c = '\\' ∨ c = ']' ∨ c = '[' ∨ c = '^' ∨ c = '-' then ['\\', c] else Text.escape c

def rangeForm (r : CharRange) : List Char :=
  if r.first = r.last then bracketEscape r.first
  else if rank r.first + 1 = rank r.last then bracketEscape r.first ++ bracketEscape r.last
  else bracketEscape r.first ++ '-' :: bracketEscape r.last

def display (s : CharSet) : String :=
  match s.single? with
  | some c => String.ofList ('\'' :: Text.escape c ++ ['\''])
  | none =>
      let caret := if s.inverted then ['^'] else []
      String.ofList ('[' :: caret ++ s.ranges.flatMap rangeForm ++ [']'])

end BottomUpPeg.CharSet
