import BottomUpPeg.Text.Escape
import BottomUpPeg.Text.Span

namespace BottomUpPeg

structure Node where
  label : String
  span : Span
  text : String
  children : List Node

namespace Node

def isLeaf (n : Node) : Bool := n.children.isEmpty

def child? (n : Node) (label : String) : Option Node := n.children.find? (·.label = label)

mutual

def preorder : Node → List Node
  | ⟨label, span, text, children⟩ => ⟨label, span, text, children⟩ :: preorderAll children

def preorderAll : List Node → List Node
  | [] => []
  | n :: rest => preorder n ++ preorderAll rest

end

mutual

def size : Node → Nat
  | ⟨_, _, _, children⟩ => sizeAll children + 1

def sizeAll : List Node → Nat
  | [] => 0
  | n :: rest => size n + sizeAll rest

end

theorem sizeAll_append (ns ms : List Node) : sizeAll (ns ++ ms) = sizeAll ns + sizeAll ms := by
  induction ns with
  | nil => simp [sizeAll]
  | cons n ns ih => rw [List.cons_append, sizeAll, sizeAll, ih, Nat.add_assoc]

def visit (label : String) : List Node → List Node
  | [] => []
  | n :: stack =>
      if n.label = label then n :: visit label (n.children ++ stack)
      else visit label (n.children ++ stack)
  termination_by stack => sizeAll stack
  decreasing_by
    all_goals
      cases n
      simp only [sizeAll_append, sizeAll, size]
      omega

def findAll (n : Node) (label : String) : List Node := visit label [n]

mutual

def sexpr : Node → String
  | ⟨label, _, text, []⟩ => "(" ++ label ++ " " ++ text ++ ")"
  | ⟨label, _, _, n :: rest⟩ => "(" ++ label ++ sexprAll (n :: rest) ++ ")"

def sexprAll : List Node → String
  | [] => ""
  | n :: rest => " " ++ sexpr n ++ sexprAll rest

end

mutual

def outline (depth : Nat) : Node → String
  | ⟨label, span, text, children⟩ =>
      String.ofList (List.replicate (2 * depth) ' ') ++ label ++ " " ++ span.display ++ ": " ++
        Text.quoted text ++ "\n" ++ outlineAll (depth + 1) children

def outlineAll (depth : Nat) : List Node → String
  | [] => ""
  | n :: rest => outline depth n ++ outlineAll depth rest

end

end Node

end BottomUpPeg
