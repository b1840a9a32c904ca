import BottomUpPeg.Match.TopDown

namespace BottomUpPeg

abbrev View := Key → Option Match

namespace Grammar

/-- The path holds the clauses around the match, none of which is entered again. -/
def emptyMatch (g : Grammar) (pos : Nat) : Nat → List Nat → Nat → Option Match
  | 0, _, _ => none
  | fuel + 1, path, clause =>
      if (g.clause clause).always && !path.contains clause then
        match g.shape clause with
        | .terminal .nothing => some (Match.leaf clause pos 0)
        | .terminal (.literal text _) =>
            if text.toList.isEmpty then some (Match.leaf clause pos 0) else none
        | .terminal _ => none
        | .group .seq slots =>
            (slots.mapM fun s => emptyMatch g pos fuel (clause :: path) s.clause).map
              fun parts => ⟨clause, pos, 0, 0, parts⟩
        | .group _ slots =>
            (Look.first (fun c _ => emptyMatch g pos fuel (clause :: path) c) pos 0 slots).map
              fun (i, m) => ⟨clause, pos, 0, i, [m]⟩
        | .unary .oneOrMore slot =>
            (emptyMatch g pos fuel (clause :: path) slot.clause).map
              fun m => ⟨clause, pos, 0, 0, [m]⟩
        | .unary .followedBy _ => some (Match.leaf clause pos 0)
        | .unary .notFollowedBy _ => none
      else none

/-- The current match of a clause. Terminals are matched and negative lookaheads decided on the
spot; the fuel bounds how many lookaheads stand directly inside each other. A kept match is read
from the view, and a clause that always matches does so even where none is kept. -/
def lookupWithin (g : Grammar) (input : Input) (view : View) : Nat → Nat → Nat → Option Match
  | 0, _, _ => none
  | fuel + 1, clause, pos =>
      match g.shape clause with
      | .terminal t => (t.length? input pos).map (Match.leaf clause pos)
      | .unary .notFollowedBy slot =>
          let found :=
            if (g.clause slot.clause).acyclic then g.topDown input slot.clause pos
            else lookupWithin g input view fuel slot.clause pos
          match found with
          | some _ => none
          | none => some (Match.leaf clause pos 0)
      | _ =>
          match view ⟨clause, pos⟩ with
          | some m => some m
          | none => if (g.clause clause).always then g.emptyMatch pos g.size [] clause else none

def lookup (g : Grammar) (input : Input) (view : View) (clause pos : Nat) : Option Match :=
  g.lookupWithin input view g.size clause pos

def evaluate (g : Grammar) (input : Input) (view : View) (k : Key) : Option Match :=
  (g.shape k.clause).step input (g.lookup input view) (g.lookup input view k.clause)
    k.clause k.start

end Grammar

end BottomUpPeg
