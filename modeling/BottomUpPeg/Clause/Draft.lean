import BottomUpPeg.Clause.Shape
import BottomUpPeg.Definition.Basic

namespace BottomUpPeg

inductive Body where
  | shape (s : Shape)
  | reference (rule : String)
  deriving DecidableEq

def Body.strength : Body → Nat
  | .shape s => s.strength
  | .reference _ => 4

/-- A clause whose references are still names, with its written form. -/
structure Draft where
  body : Body
  form : String
  deriving DecidableEq

instance : Inhabited Draft := ⟨⟨.shape default, ""⟩⟩

namespace Draft

def wrapped (limit : Nat) (part : Draft) : String :=
  if part.body.strength ≤ limit then "(" ++ part.form ++ ")" else part.form

/-- A label binds like a unary form. -/
def slotForm (parent : Nat) (label : Option String) (part : Draft) : String :=
  match label with
  | none => part.wrapped parent
  | some name => name ++ ":" ++ part.wrapped (max parent 3)

end Draft

/-- Drafts in the order in which they were first met; no two have the same form. -/
abbrev Arena := Array Draft

namespace Arena

def draft (arena : Arena) (i : Nat) : Draft := arena[i]?.getD default

def slotForm (arena : Arena) (parent : Nat) (slot : Slot) : String :=
  Draft.slotForm parent slot.label (arena.draft slot.clause)

def shapeForm (arena : Arena) (s : Shape) : String :=
  match s with
  | .terminal t => t.form
  | .group kind slots =>
      let separator := match kind with
        | .seq => " "
        | .first => " / "
        | .longest => " | "
      separator.intercalate (slots.map (arena.slotForm s.strength))
  | .unary .oneOrMore slot => arena.slotForm s.strength slot ++ "+"
  | .unary .followedBy slot => "&" ++ arena.slotForm s.strength slot
  | .unary .notFollowedBy slot => "!" ++ arena.slotForm s.strength slot

def bodyForm (arena : Arena) : Body → String
  | .shape s => arena.shapeForm s
  | .reference rule => rule

def find? (arena : Arena) (form : String) : Option Nat :=
  arena.toList.findIdx? (·.form = form)

def add (arena : Arena) (body : Body) : Nat × Arena :=
  match arena.find? (arena.bodyForm body) with
  | some i => (i, arena)
  | none => (arena.size, arena.push ⟨body, arena.bodyForm body⟩)

mutual

/-- The label around an expression is left to the place it stands in. -/
def intern : Expr → Arena → Nat × Arena
  | .terminal t, arena => arena.add (.shape (.terminal t))
  | .reference rule, arena => arena.add (.reference rule)
  | .group kind items, arena =>
      let (slots, arena) := internSlots items arena
      arena.add (.shape (.group kind slots))
  | .unary kind item, arena =>
      let (clause, arena) := intern item arena
      arena.add (.shape (.unary kind ⟨clause, item.outerLabel⟩))
  | .label _ item, arena => intern item arena

def internSlots : List Expr → Arena → List Slot × Arena
  | [], arena => ([], arena)
  | e :: rest, arena =>
      let (clause, arena) := intern e arena
      let (slots, arena) := internSlots rest arena
      (⟨clause, e.outerLabel⟩ :: slots, arena)

end

def internAll : List Definition → Arena → List Nat × Arena
  | [], arena => ([], arena)
  | d :: rest, arena =>
      let (root, arena) := intern d.body arena
      let (roots, arena) := internAll rest arena
      (root :: roots, arena)

end Arena

end BottomUpPeg
