import BottomUpPeg.Grammar.Basic
import BottomUpPeg.Match.Step

namespace BottomUpPeg

namespace Look

/-- Each repetition takes a character, so the fuel needed is one more than the number of characters
left. -/
def repetition (look : Look) (clause : Nat) (slot : Slot) : Nat → Nat → Option Match
  | 0, _ => none
  | fuel + 1, pos => look.repeated (repetition look clause slot fuel) clause slot pos

end Look

namespace Grammar

def descend (g : Grammar) (input : Input) : Nat → Nat → Nat → Option Match
  | 0, _, _ => none
  | depth + 1, clause, pos =>
      match g.shape clause with
      | .unary .oneOrMore slot =>
          Look.repetition (descend g input depth) clause slot (input.size - pos + 1) pos
      | s => s.step input (descend g input depth) (fun _ => none) clause pos

/-- Exact recursive descent. It is meant for clauses from which no cycle is reachable: there no
clause stands below itself, and the number of clauses bounds the depth. -/
def topDown (g : Grammar) (input : Input) (clause pos : Nat) : Option Match :=
  g.descend input g.size clause pos

end Grammar

end BottomUpPeg
