import BottomUpPeg.Clause.Link

namespace BottomUpPeg

/-- What is known of a clause without an input: `always`, that it matches without taking
characters at every position, and `zero`, that some match of it may take none. -/
structure Flags where
  always : Bool
  zero : Bool
  deriving DecidableEq, Repr, Inhabited

namespace Flags

def unset : Flags := ⟨false, false⟩

def or (a b : Flags) : Flags := ⟨a.always || b.always, a.zero || b.zero⟩

end Flags

namespace Shape

def flags (part : Nat → Flags) : Shape → Flags
  | .terminal .nothing => ⟨true, true⟩
  | .terminal .start => ⟨false, true⟩
  | .terminal (.chars _) => ⟨false, false⟩
  | .terminal (.literal text _) => ⟨text.toList.isEmpty, text.toList.isEmpty⟩
  | .group .seq slots =>
      ⟨slots.all fun s => (part s.clause).always, slots.all fun s => (part s.clause).zero⟩
  | .group _ slots =>
      ⟨slots.any fun s => (part s.clause).always, slots.any fun s => (part s.clause).zero⟩
  | .unary .oneOrMore slot => part slot.clause
  | .unary .followedBy slot => ⟨(part slot.clause).always, true⟩
  | .unary .notFollowedBy _ => ⟨false, true⟩

def shadowing? (part : Nat → Flags) : Shape → Option Nat
  | .group .first slots => slots.dropLast.findIdx? fun s => (part s.clause).always
  | _ => none

end Shape

namespace Flags

abbrev Table := Array Flags

def Table.get (table : Table) (i : Nat) : Flags := table[i]?.getD unset

def raise (clauses : Array Linked) (table : Table) (i : Nat) : Except GrammarError Table :=
  let c := Linked.clause clauses i
  match c.shape.shadowing? table.get with
  | some index => .error (.shadowedAlternative c.form index)
  | none => .ok (table.setIfInBounds i ((table.get i).or (c.shape.flags table.get)))

def sweep (clauses : Array Linked) (table : Table) : Except GrammarError Table :=
  (List.range clauses.size).foldlM (raise clauses) table

/-- A sweep that changes something raises one of two flags of some clause, which bounds their
number. -/
def settle (clauses : Array Linked) : Nat → Table → Except GrammarError Table
  | 0, table => .ok table
  | fuel + 1, table =>
      match sweep clauses table with
      | .error e => .error e
      | .ok swept => if swept = table then .ok table else settle clauses fuel swept

def table (clauses : Array Linked) : Except GrammarError Table :=
  settle clauses (2 * clauses.size + 1) (Array.replicate clauses.size unset)

end Flags

end BottomUpPeg
