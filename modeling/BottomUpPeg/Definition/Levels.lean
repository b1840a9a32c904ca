import BottomUpPeg.Definition.Basic

namespace BottomUpPeg

structure Level where
  rank : Int
  body : Expr
  deriving DecidableEq

namespace Level

def ofDefinition (d : Definition) : Option Level := d.level.map fun rank => ⟨rank, d.body⟩

def insert (l : Level) : List Level → List Level
  | [] => [l]
  | m :: rest => if l.rank ≤ m.rank then l :: m :: rest else m :: insert l rest

def sort (levels : List Level) : List Level := levels.foldr insert []

def ascending : List Level → Bool
  | l :: m :: rest => l.rank < m.rank && ascending (m :: rest)
  | _ => true

def ruleName (name : String) (l : Level) : String := name ++ "[" ++ toString l.rank ++ "]"

def rangeName (name : String) (l m : Level) : String :=
  name ++ "[" ++ toString l.rank ++ ".." ++ toString m.rank ++ "]"

def choice (name : String) (levels : List Level) : Expr :=
  .group .first (levels.map fun l => .reference (l.ruleName name))

/-- What a reference to the whole rule means on a level with the given levels above it: the
levels above or, on the top level, the whole rule again. -/
def target (name : String) : List Level → String
  | [] => name
  | [l] => l.ruleName name
  | l :: m :: rest => rangeName name l ((m :: rest).getLast (by simp))

def rules (name : String) : List Level → List Definition
  | [] => []
  | l :: above =>
      ⟨l.ruleName name, some l.rank, l.body.rename name (target name above)⟩ :: rules name above

def selectors (name : String) : List Level → List Definition
  | [] => []
  | l :: above =>
      if 2 ≤ above.length ∧ 0 < l.body.countReferences name then
        ⟨target name above, none, choice name above⟩ :: selectors name above
      else selectors name above

def expand (name : String) (levels : List Level) : List Definition :=
  ⟨name, none, choice name levels⟩ :: rules name levels ++ selectors name levels

end Level

namespace Definition

/-- A name with one definition keeps it, whatever its level. -/
def expandName (name : String) : List Definition → Except GrammarError (List Definition)
  | [d] => if d.body.unlabeled = .reference d.name then .error (.selfReference d.name) else .ok [d]
  | ds =>
      match ds.mapM Level.ofDefinition with
      | none => .error (.duplicateRule name)
      | some levels =>
          if Level.ascending (Level.sort levels) then .ok (Level.expand name (Level.sort levels))
          else .error (.duplicateRule name)

def expandLevels (ds : List Definition) : Except GrammarError (List Definition) :=
  ((names ds).mapM fun name => expandName name (ds.filter (·.name = name))).map List.flatten

end Definition

end BottomUpPeg
