import BottomUpPeg.Clause.Layer
import BottomUpPeg.Clause.Seed
import BottomUpPeg.Definition.Levels
import BottomUpPeg.Grammar.Basic

namespace BottomUpPeg

/-- A grammar as written: definitions, and the name of the rule that cuts the input into lexemes. -/
structure Source where
  definitions : List Definition
  lexical : Option String
  deriving DecidableEq

namespace Source

def definitionsChecked (source : Source) : Except GrammarError (List Definition) :=
  if source.definitions.isEmpty then .error .noRules
  else match source.definitions.findIdx? (·.name = "") with
  | some index => .error (.unnamedRule index)
  | none => do
    let definitions ← Definition.expandLevels source.definitions
    match Definition.repeatedName? [] definitions with
    | some name => .error (.duplicateRule name)
    | none =>
      match Definition.unknownReference? (definitions.map (·.name)) definitions with
      | some (name, referencedFrom) => .error (.unknownRule name referencedFrom)
      | none =>
        match source.lexical with
        | none => .ok definitions
        | some rule =>
          if definitions.any (·.name = rule) then .ok definitions
          else .error (.unknownLexicalRule rule)

end Source

def linkDefinitions (definitions : List Definition) :
    Except GrammarError (Array Linked × List Nat) := do
  let (roots, arena) := Arena.internAll definitions #[]
  let (clauses, roots) ← arena.link ((definitions.map (·.name)).zip roots)
  return Linked.compact clauses roots

def Rule.ofDefinition (clauses : Array Linked) (d : Definition) (root : Nat) : Rule :=
  ⟨d.name, d.level, root, d.body.outerLabel, (Linked.clause clauses root).form⟩

def Clause.assemble (clauses : Array Linked) (rules : List Rule) (flags : Flags.Table)
    (layers : Array Layer) (i : Nat) : Clause :=
  let linked := Linked.clause clauses i
  let naming := rules.filter (·.clause = i)
  let layer := layers[i]?.getD default
  { shape := linked.shape
    form := linked.form
    ruleNames := naming.map (·.name)
    label := naming.findSome? (·.label)
    always := (flags.get i).always
    zero := (flags.get i).zero
    acyclic := layer.acyclic
    stratum := layer.stratum
    seedParents := Linked.seedParents clauses (fun j => (flags.get j).zero) i }

def checkLexical (clauses : Array Linked) : Option Rule → Except GrammarError Unit
  | none => .ok ()
  | some rule =>
      match Graph.cycleFrom? (Linked.next clauses) clauses.size rule.clause with
      | some i => .error (.lexicalCycle rule.name (Linked.clause clauses i).form)
      | none => .ok ()

def Source.compile (source : Source) : Except GrammarError Grammar := do
  let definitions ← source.definitionsChecked
  let (clauses, roots) ← linkDefinitions definitions
  let rules := (definitions.zip roots).map fun (d, root) => Rule.ofDefinition clauses d root
  let lexical := source.lexical.bind fun name => rules.find? (·.name = name)
  checkLexical clauses lexical
  let flags ← Flags.table clauses
  let layers ← Layer.table clauses
  return ⟨((List.range clauses.size).map (Clause.assemble clauses rules flags layers)).toArray,
    rules, lexical⟩

end BottomUpPeg
