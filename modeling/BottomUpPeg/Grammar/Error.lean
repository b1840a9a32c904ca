import BottomUpPeg.Text.Escape

namespace BottomUpPeg

inductive GrammarError where
  | noRules
  | unnamedRule (index : Nat)
  | duplicateRule (name : String)
  | unknownRule (name referencedFrom : String)
  | selfReference (name : String)
  | aliasCycle (chain : List String)
  | unknownLexicalRule (rule : String)
  | lexicalCycle (rule clause : String)
  | shadowedAlternative (clause : String) (index : Nat)
  | lookaheadCycle (clause : String)
  | danglingReference (name : String)
  deriving DecidableEq, Repr

namespace GrammarError

def message : GrammarError → String
  | .noRules => "Grammar has no rules"
  | .unnamedRule index => "Rule #" ++ toString index ++ " has an empty name"
  | .duplicateRule name => "Duplicate rule name: " ++ name
  | .unknownRule name referencedFrom =>
      "Unknown rule name " ++ Text.quoted name ++ " referenced from rule " ++ referencedFrom
  | .selfReference name => "Rule " ++ name ++ " consists only of a reference to itself"
  | .aliasCycle chain => "Cycle in rule aliases: " ++ " -> ".intercalate chain
  | .unknownLexicalRule rule => "Lexical rule " ++ rule ++ " is not defined"
  | .lexicalCycle rule clause =>
      "Lexical rule " ++ rule ++ " contains a cycle through clause " ++ clause
  | .shadowedAlternative clause index =>
      "Alternative " ++ toString index ++ " of " ++ clause ++
        " always matches, so the alternatives after it can never match"
  | .lookaheadCycle clause =>
      "Negative lookahead " ++ clause ++ " is part of the cycle it looks ahead into"
  | .danglingReference name => "Reference to undefined rule " ++ name ++ " reached resolution"

def code : GrammarError → String
  | .noRules => "grammar::no_rules"
  | .unnamedRule _ => "grammar::unnamed_rule"
  | .duplicateRule _ => "grammar::duplicate_rule"
  | .unknownRule _ _ => "grammar::unknown_rule"
  | .selfReference _ => "grammar::self_reference"
  | .aliasCycle _ => "grammar::alias_cycle"
  | .unknownLexicalRule _ => "grammar::unknown_lexical_rule"
  | .lexicalCycle _ _ => "grammar::lexical_cycle"
  | .shadowedAlternative _ _ => "grammar::shadowed_alternative"
  | .lookaheadCycle _ => "grammar::lookahead_cycle"
  | .danglingReference _ => "grammar::dangling_reference"

def help : GrammarError → Option String
  | .duplicateRule _ => some "rules sharing a name must each carry a distinct precedence level"
  | .lexicalCycle _ _ => some "the lexical rule must be matchable without recursion"
  | .shadowedAlternative _ _ =>
      some "move the always-matching alternative to the end of the ordered choice"
  | .lookaheadCycle _ =>
      some ("a negative lookahead may read a recursive rule, " ++
        "but that rule must not lead back to the lookahead")
  | _ => none

def ruleName : GrammarError → Option String
  | .duplicateRule name | .selfReference name => some name
  | .unknownRule _ referencedFrom => some referencedFrom
  | .unknownLexicalRule rule | .lexicalCycle rule _ => some rule
  | .aliasCycle chain => chain.head?
  | .noRules | .unnamedRule _ | .shadowedAlternative _ _ | .lookaheadCycle _
  | .danglingReference _ => none

end GrammarError

inductive QueryError where
  | unknownRule (name : String)
  deriving DecidableEq, Repr

namespace QueryError

def message : QueryError → String
  | .unknownRule name => "Grammar has no rule named " ++ name

def code : QueryError → String
  | .unknownRule _ => "query::unknown_rule"

end QueryError

end BottomUpPeg
