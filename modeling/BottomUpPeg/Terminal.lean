import BottomUpPeg.CharSet.Display
import BottomUpPeg.Text.Lowercase
import BottomUpPeg.Text.Span

namespace BottomUpPeg

inductive Terminal where
  | chars (set : CharSet)
  | literal (text : String) (ignoreCase : Bool)
  | nothing
  | start
  deriving DecidableEq

namespace Terminal

def form : Terminal → String
  | .chars set => set.display
  | .literal text ignoreCase =>
      String.ofList ('"' :: text.toList.flatMap Text.escape ++ ['"']) ++ if ignoreCase then "i" else ""
  | .nothing => "()"
  | .start => "^"

def spells (input : Input) (ignoreCase : Bool) : List Char → Nat → Bool
  | [], _ => true
  | expected :: rest, pos =>
      match input[pos]? with
      | none => false
      | some actual =>
          (actual == expected || (ignoreCase && Text.lowercase actual == Text.lowercase expected))
            && spells input ignoreCase rest (pos + 1)

/-- No terminal matches past the end of the input. -/
def length? (input : Input) (pos : Nat) (t : Terminal) : Option Nat :=
  if pos ≤ input.size then
    match t with
    | .chars set =>
        match input[pos]? with
        | some c => if set.contains c then some 1 else none
        | none => none
    | .literal text ignoreCase =>
        if spells input ignoreCase text.toList pos then some text.toList.length else none
    | .nothing => some 0
    | .start => if pos = 0 then some 0 else none
  else none

end Terminal

end BottomUpPeg
