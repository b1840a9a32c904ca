import BottomUpPeg.Match.Compare
import BottomUpPeg.Match.Lookup

namespace BottomUpPeg

structure Entry where
  best : Option Match
  readers : Std.ExtTreeSet Key

namespace Entry

def empty : Entry := ⟨none, ∅⟩

end Entry

abbrev Table := Std.ExtTreeMap Key Entry

namespace Table

def entry (t : Table) (k : Key) : Entry := t.getD k Entry.empty

def view (t : Table) : View := fun k => (t.entry k).best

def noteRead (reader : Key) (t : Table) (k : Key) : Table :=
  t.insert k { t.entry k with readers := (t.entry k).readers.insert reader }

def keep (t : Table) (k : Key) (m : Match) : Table :=
  t.insert k { t.entry k with best := some m }

def improvedBy (t : Table) (g : Grammar) (k : Key) (m : Match) : Bool :=
  match (t.entry k).best with
  | none => true
  | some old => m.isBetter g old

end Table

end BottomUpPeg
