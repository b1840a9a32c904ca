import BottomUpPeg.Parse.Basic
import BottomUpPeg.Text.Slice

namespace BottomUpPeg.Parse

def best? (p : Parse) (clause pos : Nat) : Option Match :=
  if p.input.size < pos then none else p.grammar.lookup p.input p.table.view clause pos

def text (p : Parse) (m : Match) : String := p.input.text ⟨m.start, m.stop⟩

def text? (p : Parse) (m : Match) : Option String := p.input.slice? ⟨m.start, m.stop⟩

def scan (p : Parse) (clause : Nat) : Nat → Nat → List Match
  | 0, _ => []
  | fuel + 1, pos =>
      match p.best? clause pos with
      | some m => m :: scan p clause fuel (pos + max m.length 1)
      | none => scan p clause fuel (pos + 1)

def clauseMatches (p : Parse) (clause : Nat) : List Match := p.scan clause (p.input.size + 1) 0

def nonOverlapping (p : Parse) (rule : String) : Except QueryError (List Match) :=
  (p.grammar.ruleOf rule).map fun r => p.clauseMatches r.clause

def positions (p : Parse) : List Nat := List.range (p.input.size + 1)

def allMatches (p : Parse) (rule : String) : Except QueryError (List Match) :=
  (p.grammar.ruleOf rule).map fun r => p.positions.filterMap (p.best? r.clause)

/-- Matches that are not kept can be tried everywhere. -/
def triedAt (p : Parse) (clause : Nat) : List Nat :=
  if (p.grammar.shape clause).isMemoized then
    (p.table.keys.filter (·.clause = clause)).map (·.start)
  else p.positions

def nonMatches (p : Parse) (rule : String) : Except QueryError (List Nat) :=
  (p.grammar.ruleOf rule).map fun r =>
    (p.triedAt r.clause).filter fun pos => (p.best? r.clause pos).isNone

def covers (m : Match) (pos : Nat) : Bool := m.start ≤ pos && pos < m.stop

/-- The number, if any, is where a run that is still open began. -/
def runs (marked : Nat → Bool) : Option Nat → List Nat → Nat → List Span
  | none, [], _ => []
  | some start, [], stop => [⟨start, stop⟩]
  | none, pos :: rest, stop =>
      if marked pos then runs marked (some pos) rest stop else runs marked none rest stop
  | some start, pos :: rest, stop =>
      if marked pos then runs marked (some start) rest stop
      else ⟨start, pos⟩ :: runs marked none rest stop

def uncovered (p : Parse) (rules : List String) : Except QueryError (List Span) :=
  (rules.mapM p.nonOverlapping).map fun found =>
    runs (fun pos => !found.flatten.any (covers · pos)) none (List.range p.input.size) p.input.size

end BottomUpPeg.Parse
