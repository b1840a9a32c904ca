import BottomUpPeg.Clause.Shape
import BottomUpPeg.Match.Basic

namespace BottomUpPeg

abbrev Look := Nat → Nat → Option Match

namespace Look

def chain (look : Look) : List Slot → Nat → Option (List Match × Nat)
  | [], pos => some ([], pos)
  | s :: rest, pos =>
      match look s.clause pos with
      | none => none
      | some m =>
          match chain look rest m.stop with
          | none => none
          | some (parts, stop) => some (m :: parts, stop)

def first (look : Look) (pos : Nat) : Nat → List Slot → Option (Nat × Match)
  | _, [] => none
  | i, s :: rest =>
      match look s.clause pos with
      | some m => some (i, m)
      | none => first look pos (i + 1) rest

def longest (look : Look) (pos : Nat) : Nat → List Slot → Option (Nat × Match)
  | _, [] => none
  | i, s :: rest =>
      match look s.clause pos, longest look pos (i + 1) rest with
      | none, later => later
      | some m, none => some (i, m)
      | some m, some (j, n) => if m.length < n.length then some (j, n) else some (i, m)

/-- A repetition without characters is only taken on its own. -/
def repeated (look : Look) (tail : Nat → Option Match) (clause : Nat) (slot : Slot) (pos : Nat) :
    Option Match :=
  match look slot.clause pos with
  | none => none
  | some head =>
      if head.length = 0 then some ⟨clause, pos, 0, 0, [head]⟩
      else match tail head.stop with
        | none => some ⟨clause, pos, head.length, 0, [head]⟩
        | some rest =>
            if rest.length = 0 then some ⟨clause, pos, head.length, 0, [head]⟩
            else some ⟨clause, pos, head.length + rest.length, 0, [head, rest]⟩

end Look

def Match.choose (clause pos : Nat) (alternative : Nat × Match) : Match :=
  ⟨clause, pos, alternative.2.length, alternative.1, [alternative.2]⟩

/-- The match of a clause from the matches of its parts; `tail` finds the repetitions after the
first. -/
def Shape.step (input : Input) (look : Look) (tail : Nat → Option Match) (clause pos : Nat) :
    Shape → Option Match
  | .terminal t => (t.length? input pos).map (Match.leaf clause pos)
  | .group .seq slots =>
      (look.chain slots pos).map fun (parts, stop) => ⟨clause, pos, stop - pos, 0, parts⟩
  | .group .first slots => (look.first pos 0 slots).map (Match.choose clause pos)
  | .group .longest slots => (look.longest pos 0 slots).map (Match.choose clause pos)
  | .unary .oneOrMore slot => look.repeated tail clause slot pos
  | .unary .followedBy slot => (look slot.clause pos).map fun _ => Match.leaf clause pos 0
  | .unary .notFollowedBy slot =>
      match look slot.clause pos with
      | some _ => none
      | none => some (Match.leaf clause pos 0)

end BottomUpPeg
