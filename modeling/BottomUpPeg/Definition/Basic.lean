import BottomUpPeg.Expr.References
import BottomUpPeg.Grammar.Error

namespace BottomUpPeg

structure Definition where
  name : String
  level : Option Int
  body : Expr
  deriving DecidableEq

namespace Definition

def plain (name : String) (body : Expr) : Definition := ⟨name, none, body⟩

def leveled (name : String) (level : Int) (body : Expr) : Definition := ⟨name, some level, body⟩

def names : List Definition → List String
  | [] => []
  | d :: rest => d.name :: (names rest).filter (· ≠ d.name)

def repeatedName? (seen : List String) : List Definition → Option String
  | [] => none
  | d :: rest => if d.name ∈ seen then some d.name else repeatedName? (d.name :: seen) rest

def unknownReference? (defined : List String) : List Definition → Option (String × String)
  | [] => none
  | d :: rest =>
      match d.body.references.find? (· ∉ defined) with
      | some rule => some (rule, d.name)
      | none => unknownReference? defined rest

end Definition

end BottomUpPeg
