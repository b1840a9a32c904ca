import BottomUpPeg.Clause.Shape
import BottomUpPeg.Grammar.Error

namespace BottomUpPeg

structure Clause where
  shape : Shape
  form : String
  ruleNames : List String
  label : Option String
  always : Bool
  zero : Bool
  acyclic : Bool
  stratum : Nat
  seedParents : List Nat
  deriving DecidableEq

instance : Inhabited Clause := ⟨⟨default, "", [], none, false, false, false, 0, []⟩⟩

structure Rule where
  name : String
  level : Option Int
  clause : Nat
  label : Option String
  definition : String
  deriving DecidableEq, Repr

def Rule.display (rule : Rule) : String := rule.name ++ " <- " ++ rule.definition

/-- Clauses with parts before wholes, except along a cycle, and the rules that name some of them. -/
structure Grammar where
  clauses : Array Clause
  rules : List Rule
  lexical : Option Rule
  deriving DecidableEq

namespace Grammar

def size (g : Grammar) : Nat := g.clauses.size

def clause (g : Grammar) (i : Nat) : Clause := g.clauses[i]?.getD default

def shape (g : Grammar) (i : Nat) : Shape := (g.clause i).shape

def rule? (g : Grammar) (name : String) : Option Rule := g.rules.find? (·.name = name)

def ruleOf (g : Grammar) (name : String) : Except QueryError Rule :=
  match g.rule? name with
  | some rule => .ok rule
  | none => .error (.unknownRule name)

def clauseByForm? (g : Grammar) (form : String) : Option Nat :=
  g.clauses.toList.findIdx? (·.form = form)

/-- The empty match starts no parse: it is there at every position. -/
def isSeed (c : Clause) : Bool :=
  match c.shape with
  | .terminal .nothing => false
  | .terminal _ => !c.seedParents.isEmpty
  | .unary .notFollowedBy _ => !c.seedParents.isEmpty
  | _ => false

def seedClauses (g : Grammar) : List Nat :=
  (List.range g.size).filter fun i => isSeed (g.clause i)

end Grammar

end BottomUpPeg
