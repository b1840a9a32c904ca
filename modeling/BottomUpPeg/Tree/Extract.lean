import BottomUpPeg.Parse.Query
import BottomUpPeg.Tree.Basic

namespace BottomUpPeg

namespace Match

/-- The label of the slot goes before that of the clause. -/
def wrap (g : Grammar) (input : Input) (label : Option String) (m : Match) (nodes : List Node) :
    List Node :=
  match label.or (g.clause m.clause).label with
  | some name => [⟨name, ⟨m.start, m.stop⟩, input.text ⟨m.start, m.stop⟩, nodes⟩]
  | none => nodes

mutual

/-- Of a choice the slot of the alternative it took counts, and the tail of a repetition is more of
the same, not a part of its own. -/
def nodes (g : Grammar) (input : Input) : Match → List Node
  | ⟨clause, _, _, index, parts⟩ =>
      match g.shape clause with
      | .terminal _ => []
      | .group .seq slots => nodesInSlots g input slots parts
      | .group _ slots =>
          match slots[index]? with
          | some slot => nodesInHead g input slot.label parts
          | none => []
      | .unary .oneOrMore slot =>
          nodesInHead g input slot.label parts ++ nodesInTail g input parts
      | .unary _ _ => []

def nodesInSlots (g : Grammar) (input : Input) : List Slot → List Match → List Node
  | slot :: slots, m :: rest =>
      wrap g input slot.label m (nodes g input m) ++ nodesInSlots g input slots rest
  | _, _ => []

def nodesInHead (g : Grammar) (input : Input) (label : Option String) : List Match → List Node
  | [] => []
  | m :: _ => wrap g input label m (nodes g input m)

def nodesInTail (g : Grammar) (input : Input) : List Match → List Node
  | _ :: m :: _ => nodes g input m
  | _ => []

end

end Match

def Parse.tree (p : Parse) (m : Match) (label : String) : Node :=
  ⟨label, ⟨m.start, m.stop⟩, p.text m, m.nodes p.grammar p.input⟩

end BottomUpPeg
