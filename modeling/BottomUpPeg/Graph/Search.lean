namespace BottomUpPeg.Graph

/-- The state of a depth-first search: the nodes it entered and those it left, latest first. -/
structure Walk where
  entered : List Nat
  left : List Nat
  deriving DecidableEq, Repr

def Walk.empty : Walk := ⟨[], []⟩

/-- The depth is at most the number of nodes, which is the fuel a search needs. -/
def Walk.visit (next : Nat → List Nat) : Nat → Walk → Nat → Walk
  | 0, w, _ => w
  | fuel + 1, w, v =>
      if v ∈ w.entered then w
      else
        let inner := (next v).foldl (Walk.visit next fuel) ⟨v :: w.entered, w.left⟩
        ⟨inner.entered, v :: inner.left⟩

def search (next : Nat → List Nat) (size : Nat) (roots : List Nat) : Walk :=
  roots.foldl (Walk.visit next size) Walk.empty

def postorder (next : Nat → List Nat) (size : Nat) (roots : List Nat) : List Nat :=
  (search next size roots).left.reverse

/-- Looks for a cycle along a path, `path` holding the nodes on the way and `done` those with no
cycle beyond them. The error is the first node met again on its own path. -/
def explore (next : Nat → List Nat) : Nat → List Nat → List Nat → Nat → Except Nat (List Nat)
  | 0, _, done, _ => .ok done
  | fuel + 1, path, done, v =>
      if v ∈ path then .error v
      else if v ∈ done then .ok done
      else
        match (next v).foldlM (explore next fuel (v :: path)) done with
        | .error w => .error w
        | .ok done => .ok (v :: done)

def cycleFrom? (next : Nat → List Nat) (size : Nat) (root : Nat) : Option Nat :=
  match explore next (size + 1) [] [] root with
  | .error v => some v
  | .ok _ => none

end BottomUpPeg.Graph
