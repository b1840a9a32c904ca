import BottomUpPeg.Grammar.Basic
import BottomUpPeg.Match.Basic

namespace BottomUpPeg

def Shape.preference (s : Shape) (length index length' index' : Nat) : Ordering :=
  match s with
  | .group .first _ => compare index' index
  | .group .longest _ => (compare length length').then (compare index' index)
  | _ => .eq

namespace Match

def compareLengths : List Match → List Match → Ordering
  | m :: rest, m' :: rest' => (compare m.length m'.length).then (compareLengths rest rest')
  | _, _ => .eq

mutual

/-- `gt` means that the first is better. -/
def compareIn (g : Grammar) : Match → Match → Ordering
  | ⟨clause, _, length, index, parts⟩, other =>
      ((g.shape clause).preference length index other.length other.index).then <|
      (if parts.length = other.parts.length then compareLengths parts other.parts else .eq).then <|
      (compare length other.length).then <|
      (compareAllIn g parts other.parts).then <|
      compare parts.length other.parts.length

def compareAllIn (g : Grammar) : List Match → List Match → Ordering
  | m :: rest, m' :: rest' => (compareIn g m m').then (compareAllIn g rest rest')
  | _, _ => .eq

end

def isBetter (g : Grammar) (new old : Match) : Bool := compareIn g new old == .gt

def better (g : Grammar) (a b : Match) : Match := if b.isBetter g a then b else a

end Match

end BottomUpPeg
