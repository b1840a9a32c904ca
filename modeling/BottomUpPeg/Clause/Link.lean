import BottomUpPeg.Clause.Draft
import BottomUpPeg.Graph.Search

namespace BottomUpPeg

structure Linked where
  shape : Shape
  form : String
  deriving DecidableEq

instance : Inhabited Linked := ⟨⟨default, ""⟩⟩

namespace Arena

/-- Follows references from a draft to the clause they end in. The chain holds the rules named on
the way, and a rule named twice closes a cycle. Each step names another rule, so the number of
rules bounds the steps. -/
def follow (arena : Arena) (roots : List (String × Nat)) :
    Nat → List String → Nat → Except GrammarError (Nat × Linked)
  | 0, chain, _ => .error (.aliasCycle chain)
  | fuel + 1, chain, i =>
      match (arena.draft i).body with
      | .shape s => .ok (i, ⟨s, (arena.draft i).form⟩)
      | .reference rule =>
          if rule ∈ chain then .error (.aliasCycle (chain ++ [rule]))
          else match roots.lookup rule with
            | none => .error (.danglingReference rule)
            | some root => follow arena roots fuel (chain ++ [rule]) root

/-- Replaces references by what they end in, first for the rules and then for all drafts. A draft
that is a reference becomes a copy of the clause it ends in, which nothing points to. -/
def link (arena : Arena) (roots : List (String × Nat)) :
    Except GrammarError (Array Linked × List Nat) := do
  let fuel := roots.length + 2
  let rootTargets ← roots.mapM fun (rule, root) => arena.follow roots fuel [rule] root
  let targets ← (List.range arena.size).mapM fun i => arena.follow roots fuel [] i
  let target := fun i => (targets[i]?.map Prod.fst).getD i
  let clauses := targets.map fun (_, c) => { c with shape := c.shape.renumber target }
  return (clauses.toArray, rootTargets.map Prod.fst)

end Arena

namespace Linked

def clause (clauses : Array Linked) (i : Nat) : Linked := clauses[i]?.getD default

def next (clauses : Array Linked) (i : Nat) : List Nat := (clause clauses i).shape.children

def compact (clauses : Array Linked) (roots : List Nat) : Array Linked × List Nat :=
  let order := Graph.postorder (next clauses) clauses.size roots
  let number := fun i => order.idxOf i
  let kept := order.map fun i =>
    let c := clause clauses i
    { c with shape := c.shape.renumber number }
  (kept.toArray, roots.map number)

end Linked

end BottomUpPeg
