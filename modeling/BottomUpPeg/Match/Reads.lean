import BottomUpPeg.Match.Lookup

namespace BottomUpPeg

namespace Look

def chainReads (look : Look) (reads : Nat → Nat → List Key) : List Slot → Nat → List Key
  | [], _ => []
  | s :: rest, pos =>
      reads s.clause pos ++
        match look s.clause pos with
        | none => []
        | some m => chainReads look reads rest m.stop

def firstReads (look : Look) (reads : Nat → Nat → List Key) (pos : Nat) : List Slot → List Key
  | [] => []
  | s :: rest =>
      reads s.clause pos ++
        match look s.clause pos with
        | none => firstReads look reads pos rest
        | some _ => []

def repeatedReads (look : Look) (reads : Nat → Nat → List Key) (clause : Nat) (slot : Slot)
    (pos : Nat) : List Key :=
  reads slot.clause pos ++
    match look slot.clause pos with
    | none => []
    | some head => if head.length = 0 then [] else reads clause head.stop

end Look

def Shape.stepReads (look : Look) (reads : Nat → Nat → List Key) (clause pos : Nat) :
    Shape → List Key
  | .terminal _ => []
  | .group .seq slots => look.chainReads reads slots pos
  | .group .first slots => look.firstReads reads pos slots
  | .group .longest slots => slots.flatMap fun s => reads s.clause pos
  | .unary .oneOrMore slot => look.repeatedReads reads clause slot pos
  | .unary _ slot => reads slot.clause pos

namespace Grammar

def lookupReadsWithin (g : Grammar) : Nat → Nat → Nat → List Key
  | 0, _, _ => []
  | fuel + 1, clause, pos =>
      match g.shape clause with
      | .terminal _ => []
      | .unary .notFollowedBy slot =>
          if (g.clause slot.clause).acyclic then [] else lookupReadsWithin g fuel slot.clause pos
      | _ => [⟨clause, pos⟩]

def lookupReads (g : Grammar) (clause pos : Nat) : List Key :=
  g.lookupReadsWithin g.size clause pos

def evaluateReads (g : Grammar) (input : Input) (view : View) (k : Key) : List Key :=
  (g.shape k.clause).stepReads (g.lookup input view) g.lookupReads k.clause k.start

end Grammar

end BottomUpPeg
