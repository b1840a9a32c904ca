import BottomUpPeg.Grammar.Basic

namespace BottomUpPeg

inductive Severity where
  | warn
  | debug
  | trace
  deriving DecidableEq, Repr

def Severity.display : Severity → String
  | .warn => "warn"
  | .debug => "debug"
  | .trace => "trace"

def logLine (severity : Severity) (text : String) : String := severity.display ++ " " ++ text

inductive Notice where
  | labelClash (rules : List String) (kept dropped : String)
  | compiled (rules clauses : Nat)
  deriving DecidableEq, Repr

namespace Notice

def severity : Notice → Severity
  | .labelClash _ _ _ => .warn
  | .compiled _ _ => .debug

def text : Notice → String
  | .labelClash rules kept dropped =>
      "rules " ++ ", ".intercalate rules ++
        " share one clause but carry different AST labels (" ++ kept ++ " and " ++ dropped ++
        "); keeping " ++ kept
  | .compiled rules clauses =>
      "compiled grammar: " ++ toString rules ++ " rules, " ++ toString clauses ++ " clauses"

def display (n : Notice) : String := logLine n.severity n.text

def labelClashes (before : List Rule) : List Rule → List Notice
  | [] => []
  | rule :: rest =>
      let sharing := before.filter (·.clause = rule.clause)
      match sharing.findSome? (·.label), rule.label with
      | some kept, some label =>
          if kept = label then labelClashes (before ++ [rule]) rest
          else .labelClash (sharing.map (·.name) ++ [rule.name]) kept label ::
            labelClashes (before ++ [rule]) rest
      | _, _ => labelClashes (before ++ [rule]) rest

end Notice

def Grammar.notices (g : Grammar) : List Notice :=
  Notice.labelClashes [] g.rules ++ [.compiled g.rules.length g.size]

end BottomUpPeg
