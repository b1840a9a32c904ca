import BottomUpPeg.Expr.Basic

namespace BottomUpPeg

structure Slot where
  clause : Nat
  label : Option String
  deriving DecidableEq, Repr

inductive Shape where
  | terminal (t : Terminal)
  | group (kind : Group) (slots : List Slot)
  | unary (kind : Unary) (slot : Slot)
  deriving DecidableEq

namespace Shape

instance : Inhabited Shape := ⟨.terminal .nothing⟩

def slots : Shape → List Slot
  | .terminal _ => []
  | .group _ slots => slots
  | .unary _ slot => [slot]

def children (s : Shape) : List Nat := s.slots.map (·.clause)

def renumber (f : Nat → Nat) : Shape → Shape
  | .terminal t => .terminal t
  | .group kind slots => .group kind (slots.map fun s => { s with clause := f s.clause })
  | .unary kind slot => .unary kind { slot with clause := f slot.clause }

def isTerminal : Shape → Bool
  | .terminal _ => true
  | _ => false

/-- Whether matches of the clause are kept. Terminals are matched on the spot, and a negative
lookahead is decided on demand, since it can cease to hold while a parse goes on. -/
def isMemoized : Shape → Bool
  | .terminal _ => false
  | .unary .notFollowedBy _ => false
  | _ => true

def strength : Shape → Nat
  | .terminal _ => 4
  | .unary _ _ => 3
  | .group .seq _ => 2
  | .group _ _ => 1

end Shape

end BottomUpPeg
