namespace BottomUpPeg.Graph

def assign {α : Type} (a : Array α) (vs : List Nat) (x : α) : Array α :=
  vs.foldl (fun a v => a.setIfInBounds v x) a

/-- The state of a search for strongly connected components. The stack holds the nodes that were
entered and belong to no component yet, latest first. The low number of a node is that of a node on
the stack, itself or one entered before it, to which it leads. -/
structure Tarjan where
  index : Array (Option Nat)
  low : Array Nat
  onStack : Array Bool
  stack : List Nat
  count : Nat
  components : List (List Nat)

namespace Tarjan

def start (size : Nat) : Tarjan :=
  ⟨Array.replicate size none, Array.replicate size 0, Array.replicate size false, [], 0, []⟩

def indexOf (t : Tarjan) (v : Nat) : Option Nat := t.index[v]?.getD none

def lowOf (t : Tarjan) (v : Nat) : Nat := t.low[v]?.getD 0

def isOnStack (t : Tarjan) (v : Nat) : Bool := t.onStack[v]?.getD false

def enter (t : Tarjan) (v : Nat) : Tarjan :=
  { t with
    index := t.index.setIfInBounds v (some t.count)
    low := t.low.setIfInBounds v t.count
    onStack := t.onStack.setIfInBounds v true
    stack := v :: t.stack
    count := t.count + 1 }

def lower (t : Tarjan) (v n : Nat) : Tarjan :=
  { t with low := t.low.setIfInBounds v (min (t.lowOf v) n) }

def popTo (v : Nat) : List Nat → List Nat × List Nat
  | [] => ([], [])
  | w :: rest => if w = v then ([w], rest) else (w :: (popTo v rest).1, (popTo v rest).2)

/-- If no node entered before `v` can be reached from what lies above `v` on the stack, these nodes
are its component. -/
def leave (t : Tarjan) (v : Nat) : Tarjan :=
  if t.indexOf v = some (t.lowOf v) then
    let popped := popTo v t.stack
    { t with
      onStack := assign t.onStack popped.1 false
      stack := popped.2
      components := t.components ++ [popped.1] }
  else t

def follow (visit : Tarjan → Nat → Tarjan) (v : Nat) (t : Tarjan) (w : Nat) : Tarjan :=
  match t.indexOf w with
  | none => let inner := visit t w; inner.lower v (inner.lowOf w)
  | some i => if t.isOnStack w then t.lower v i else t

/-- The nodes on the way to a visit are all different, so their number bounds the depth. -/
def visit (next : Nat → List Nat) : Nat → Tarjan → Nat → Tarjan
  | 0, t, _ => t
  | fuel + 1, t, v => ((next v).foldl (follow (visit next fuel) v) (t.enter v)).leave v

def visitNew (next : Nat → List Nat) (size : Nat) (t : Tarjan) (v : Nat) : Tarjan :=
  if (t.indexOf v).isNone then visit next size t v else t

def search (next : Nat → List Nat) (size : Nat) : Tarjan :=
  (List.range size).foldl (visitNew next size) (start size)

end Tarjan

/-- The strongly connected components, each behind those to which it leads. -/
def components (next : Nat → List Nat) (size : Nat) : List (List Nat) :=
  (Tarjan.search next size).components

def label {α : Type} (f : Nat → List Nat → α) (components : List (List Nat)) (a : Array α) :
    Array α :=
  components.zipIdx.foldl (fun a (members, c) => assign a members (f c members)) a

def isCycle (next : Nat → List Nat) (members : List Nat) : Bool :=
  decide (1 < members.length) || members.any fun v => (next v).contains v

end BottomUpPeg.Graph
