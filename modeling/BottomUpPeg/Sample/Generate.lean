import BottomUpPeg.CharSet.Sample
import BottomUpPeg.Grammar.Basic
import BottomUpPeg.Sample.Xorshift

namespace BottomUpPeg.Sample

structure Limits where
  maxDepth : Nat := 8
  maxRepetitions : Nat := 4
  deriving DecidableEq, Repr

inductive Fault where
  | overflow (sum : Overflow)
  | tooDeep
  deriving DecidableEq, Repr

structure Output where
  chars : List Char
  source : Xorshift
  deriving DecidableEq, Repr

namespace Output

def draw (out : Output) : UInt64 × Output :=
  (out.source.advance.state, { out with source := out.source.advance })

def write (out : Output) (cs : List Char) : Output := { out with chars := cs.reverse ++ out.chars }

end Output

/-- Beyond half the depth the last alternative is taken, which is usually the one that does not
recur, and no word is drawn. -/
def pickAlternative (limits : Limits) (depth count : Nat) (out : Output) : Nat × Output :=
  if limits.maxDepth < 2 * depth then (count - 1, out)
  else (out.draw.1.toNat % count, out.draw.2)

/-- Lookaheads and the order of alternatives are not respected. Each rule entered adds to the depth,
and every cycle of clauses goes through a rule, so the fuel bounds how many clauses stand inside
each other. -/
def write (g : Grammar) (limits : Limits) : Nat → Nat → Output → Nat → Except Fault Output
  | 0, _, _, _ => .error .tooDeep
  | fuel + 1, depth, out, clause =>
      if limits.maxDepth < depth then .ok out
      else
        let depth := if (g.clause clause).ruleNames.isEmpty then depth else depth + 1
        match g.shape clause with
        | .terminal (.chars set) =>
            match set.sample out.draw.1 with
            | .error sum => .error (.overflow sum)
            | .ok c => .ok (out.draw.2.write c.toList)
        | .terminal (.literal text _) => .ok (out.write text.toList)
        | .terminal _ => .ok out
        | .group .seq slots =>
            slots.foldlM (fun out s => write g limits fuel depth out s.clause) out
        | .group _ slots =>
            if slots.isEmpty then .ok out
            else
              let (i, out) := pickAlternative limits depth slots.length out
              match slots[i]? with
              | some s => write g limits fuel depth out s.clause
              | none => .ok out
        | .unary .oneOrMore slot =>
            let count := 1 + out.draw.1.toNat % max limits.maxRepetitions 1
            (List.replicate count slot.clause).foldlM (write g limits fuel depth) out.draw.2
        | .unary _ _ => .ok out

def generate (g : Grammar) (limits : Limits) (rule : String) (seed : UInt64) :
    Option (Except Fault String) :=
  (g.rule? rule).map fun r =>
    (write g limits ((limits.maxDepth + 2) * (g.size + 1)) 0 ⟨[], .ofSeed seed⟩ r.clause).map
      fun out => String.ofList out.chars.reverse

end BottomUpPeg.Sample
