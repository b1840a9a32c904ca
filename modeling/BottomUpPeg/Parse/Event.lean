import BottomUpPeg.Grammar.Notice
import BottomUpPeg.Match.Basic

namespace BottomUpPeg

inductive Event where
  | lexed (length lexemes : Nat)
  | roundStarted (number stratum active : Nat)
  | kept (key : Key) (length : Nat)
  deriving DecidableEq, Repr

namespace Event

def severity : Event → Severity
  | .lexed _ _ => .debug
  | .roundStarted _ _ _ => .trace
  | .kept _ _ => .trace

def text (g : Grammar) : Event → String
  | .lexed length lexemes =>
      "lexical pass over " ++ toString length ++ " chars found " ++ toString lexemes ++ " lexemes"
  | .roundStarted number stratum active =>
      "round " ++ toString number ++ " (stratum " ++ toString stratum ++ "): " ++
        toString active ++ " active"
  | .kept key length =>
      (g.clause key.clause).form ++ " at " ++ toString key.start ++ ": length " ++ toString length

def display (g : Grammar) (e : Event) : String := logLine e.severity (e.text g)

end Event

end BottomUpPeg
