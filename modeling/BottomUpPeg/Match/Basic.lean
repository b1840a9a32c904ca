import Std.Data.ExtTreeMap
import Std.Data.ExtTreeSet

namespace BottomUpPeg

structure Key where
  clause : Nat
  start : Nat
  deriving DecidableEq, Repr

namespace Key

instance : Ord Key := ⟨compareLex (compareOn Key.clause) (compareOn Key.start)⟩

instance : Std.TransOrd Key :=
  inferInstanceAs (Std.TransCmp (compareLex (compareOn Key.clause) (compareOn Key.start)))

instance : Std.LawfulEqOrd Key where
  eq_of_compare {a b} h := by
    have h' := Ordering.then_eq_eq.mp (show (compare a.clause b.clause).then
      (compare a.start b.start) = .eq from h)
    cases a
    cases b
    simp_all

end Key

/-- A match of a clause: where it starts, how many characters it takes, which alternative it takes
if the clause is a choice, and the matches of the parts. -/
structure Match where
  clause : Nat
  start : Nat
  length : Nat
  index : Nat
  parts : List Match

namespace Match

def leaf (clause start length : Nat) : Match := ⟨clause, start, length, 0, []⟩

def stop (m : Match) : Nat := m.start + m.length

def key (m : Match) : Key := ⟨m.clause, m.start⟩

mutual

def descendants : Match → List Match
  | ⟨clause, start, length, index, parts⟩ =>
      ⟨clause, start, length, index, parts⟩ :: descendantsAll parts

def descendantsAll : List Match → List Match
  | [] => []
  | m :: rest => descendantsAll rest ++ descendants m

end

end Match

end BottomUpPeg
