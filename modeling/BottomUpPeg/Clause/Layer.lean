import BottomUpPeg.Clause.Link
import BottomUpPeg.Graph.Component

namespace BottomUpPeg

structure Layer where
  acyclic : Bool
  stratum : Nat
  deriving DecidableEq, Repr, Inhabited

namespace Layer

def isNegative (clauses : Array Linked) (i : Nat) : Bool :=
  match (Linked.clause clauses i).shape with
  | .unary .notFollowedBy _ => true
  | _ => false

def components (clauses : Array Linked) : List (List Nat) :=
  Graph.components (Linked.next clauses) clauses.size

def componentOf (clauses : Array Linked) : Array Nat :=
  Graph.label (fun c _ => c) (components clauses) (Array.replicate clauses.size 0)

def cyclic (clauses : Array Linked) : Array Bool :=
  Graph.label (fun _ members => Graph.isCycle (Linked.next clauses) members) (components clauses)
    (Array.replicate clauses.size false)

def mark (clauses : Array Linked) (cyclic marks : Array Bool) (i : Nat) : Array Bool :=
  marks.setIfInBounds i
    (!cyclic[i]?.getD false && (Linked.next clauses i).all fun child => marks[child]?.getD false)

/-- Off the cycles, parts have been marked before their wholes. -/
def marks (clauses : Array Linked) : Array Bool :=
  (List.range clauses.size).foldl (mark clauses (cyclic clauses))
    (Array.replicate clauses.size false)

def isMarked (clauses : Array Linked) : Nat → Bool :=
  let marks := marks clauses
  fun i => marks[i]?.getD false

/-- One more layer lies between a negative lookahead and a part that is matched through kept
matches. -/
def step (clauses : Array Linked) (acyclic : Nat → Bool) (i child : Nat) : Nat :=
  if isNegative clauses i && !acyclic child then 1 else 0

section Strata

variable (clauses : Array Linked) (componentOf : Array Nat) (acyclic : Nat → Bool)

def raise (strata : Array Nat) (c i stratum child : Nat) : Except GrammarError Nat :=
  if componentOf[child]?.getD 0 = c then
    if isNegative clauses i then .error (.lookaheadCycle (Linked.clause clauses i).form)
    else .ok stratum
  else .ok (max stratum
    (strata[componentOf[child]?.getD 0]?.getD 0 + step clauses acyclic i child))

def stratumOf (strata : Array Nat) (c : Nat) (members : List Nat) : Except GrammarError Nat :=
  members.foldlM
    (fun stratum i =>
      (Linked.next clauses i).foldlM (raise clauses componentOf acyclic strata c i) stratum) 0

def assignStratum (strata : Array Nat) : List Nat × Nat → Except GrammarError (Array Nat)
  | (members, c) => (stratumOf clauses componentOf acyclic strata c members).map
      (strata.setIfInBounds c)

/-- What a component leads to has its stratum before it. -/
def strata (components : List (List Nat)) : Except GrammarError (Array Nat) :=
  components.zipIdx.foldlM (assignStratum clauses componentOf acyclic)
    (Array.replicate components.length 0)

end Strata

def table (clauses : Array Linked) : Except GrammarError (Array Layer) :=
  let componentOf := componentOf clauses
  let acyclic := isMarked clauses
  (strata clauses componentOf acyclic (components clauses)).map fun strata =>
    ((List.range clauses.size).map fun i =>
      ⟨acyclic i, strata[componentOf[i]?.getD 0]?.getD 0⟩).toArray

end Layer

end BottomUpPeg
