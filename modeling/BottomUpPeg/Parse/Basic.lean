import BottomUpPeg.Parse.Round

namespace BottomUpPeg

structure Parse where
  grammar : Grammar
  input : Input
  state : State

namespace Parse

def run (g : Grammar) (input : Input) (limit : Nat) : Parse :=
  ⟨g, input, (State.initial g input).advance g input limit⟩

/-- If the rounds go on for ever, the parse stays where it started. -/
def unbounded (g : Grammar) (input : Input) : Parse :=
  ⟨g, input, ((State.initial g input).settle? g input).getD (State.initial g input)⟩

def ofString (g : Grammar) (input : String) : Option Nat → Parse
  | some limit => run g (Input.ofString input) limit
  | none => unbounded g (Input.ofString input)

def table (p : Parse) : Table := p.state.table

def converged (p : Parse) : Bool := p.state.converged

def log (p : Parse) : List String := p.state.events.reverse.map (Event.display p.grammar)

end Parse

end BottomUpPeg
