import BottomUpPeg.Clause.Flags

namespace BottomUpPeg

namespace Shape

def leading (zero : Nat → Bool) : List Slot → List Nat
  | [] => []
  | s :: rest => if zero s.clause then s.clause :: leading zero rest else [s.clause]

def seedChildren (zero : Nat → Bool) : Shape → List Nat
  | .terminal _ => []
  | .group .seq slots => leading zero slots
  | .group _ slots => slots.map (·.clause)
  | .unary _ slot => [slot.clause]

end Shape

namespace Linked

/-- The clauses to evaluate at a position where clause `i` matches, ascending. -/
def seedParents (clauses : Array Linked) (zero : Nat → Bool) (i : Nat) : List Nat :=
  (List.range clauses.size).filter fun parent =>
    let s := (clause clauses parent).shape
    s.isMemoized && (s.seedChildren zero).contains i

end Linked

end BottomUpPeg
