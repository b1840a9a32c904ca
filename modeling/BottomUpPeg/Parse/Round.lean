import BottomUpPeg.Match.Reads
import BottomUpPeg.Parse.Event
import BottomUpPeg.Parse.Lexeme
import BottomUpPeg.Parse.Table

namespace BottomUpPeg

structure Proposal where
  key : Key
  found : Option Match
  reads : List Key

/-- A parse under way. The active keys are still to be evaluated; events stand latest first. -/
structure State where
  table : Table
  active : Std.ExtTreeSet Key
  rounds : Nat
  evaluations : Nat
  installed : Nat
  events : List Event

def Proposal.ofKey (g : Grammar) (input : Input) (t : Table) (k : Key) : Proposal :=
  ⟨k, g.evaluate input t.view k, g.evaluateReads input t.view k⟩

def Proposal.ofMatch (m : Match) : Proposal := ⟨m.key, some m, []⟩

/-- The matches proposed for each key and not yet compared, in the order of their proposals. A commit
empties the queues that it fills, so none is kept in an entry. -/
abbrev Queues := Std.ExtTreeMap Key (List Match)

namespace Queues

def pending (queues : Queues) (k : Key) : List Match := queues.getD k []

def push (queues : Queues) (p : Proposal) : Queues :=
  match p.found with
  | none => queues
  | some m => queues.insert p.key (queues.pending p.key ++ [m])

def ofProposals (proposals : List Proposal) : Queues := proposals.foldl push ∅

end Queues

namespace State

def empty : State := ⟨∅, ∅, 0, 0, 0, []⟩

def record (s : State) (e : Event) : State := { s with events := e :: s.events }

def activate (s : State) (keys : List Key) : State := { s with active := s.active.insertMany keys }

def noteReads (t : Table) (p : Proposal) : Table := p.reads.foldl (Table.noteRead p.key) t

def dependents (g : Grammar) (t : Table) (k : Key) : List Key :=
  (t.entry k).readers.toList ++ (g.clause k.clause).seedParents.map (⟨·, k.start⟩)

def install (g : Grammar) (s : State) (k : Key) (m : Match) : State :=
  if s.table.improvedBy g k m then
    { s with
      table := s.table.keep k m
      active := s.active.insertMany (dependents g s.table k)
      installed := s.installed + 1
      events := .kept k m.length :: s.events }
  else s

def touched (proposals : List Proposal) : List Key :=
  (proposals.filter (·.found.isSome)).map (·.key)

/-- A queue is empty once it was gone through, so a key that was touched twice finds nothing the
second time. -/
def drain (g : Grammar) : List Key → Queues → State → State
  | [], _, s => s
  | k :: touched, queues, s =>
      match queues.pending k with
      | [] => drain g touched queues s
      | m :: queue =>
          drain g touched (queues.insert k []) (s.install g k (queue.foldl (Match.better g) m))

/-- All reads are noted before the first match is kept, so that a key that read an entry is active
again if that entry improves now. -/
def commit (g : Grammar) (proposals : List Proposal) (s : State) : State :=
  drain g (touched proposals) (Queues.ofProposals proposals)
    { s with table := proposals.foldl noteReads s.table }

def seeds (g : Grammar) (input : Input) (positions : List Nat) : List Key :=
  g.seedClauses.flatMap fun clause =>
    positions.flatMap fun pos =>
      match g.lookup input (fun _ => none) clause pos with
      | some _ => (g.clause clause).seedParents.map (⟨·, pos⟩)
      | none => []

def lexemeProposals (g : Grammar) (lexemes : List Match) : List Proposal :=
  ((Match.descendantsAll lexemes).filter fun m => (g.shape m.clause).isMemoized).map
    Proposal.ofMatch

def initial (g : Grammar) (input : Input) : State :=
  let lexing := g.lex input
  let s := empty.activate (seeds g input lexing.cuts)
  let s := match g.lexical with
    | none => s
    | some _ => s.record (.lexed input.size lexing.lexemes.length)
  s.commit g (lexemeProposals g lexing.lexemes)

def stratumOf (g : Grammar) (k : Key) : Nat := (g.clause k.clause).stratum

def stratum (g : Grammar) (s : State) : Nat :=
  ((s.active.toList.map (stratumOf g)).min?).getD 0

def due (g : Grammar) (s : State) : List Key :=
  s.active.toList.filter fun k => stratumOf g k = s.stratum g

/-- The due keys are evaluated against the table as it stands before the round. Keys of higher
strata wait, so that a negative lookahead only reads what is settled. -/
def round (g : Grammar) (input : Input) (s : State) : State :=
  let due := s.due g
  let waiting :=
    { s with
      active := s.active.filter fun k => stratumOf g k ≠ s.stratum g
      rounds := s.rounds + 1
      evaluations := s.evaluations + due.length
      events := .roundStarted (s.rounds + 1) (s.stratum g) due.length :: s.events }
  waiting.commit g (due.map (Proposal.ofKey g input s.table))

def converged (s : State) : Bool := s.active.isEmpty

def advance (g : Grammar) (input : Input) : Nat → State → State
  | 0, s => s
  | limit + 1, s => if s.converged then s else advance g input limit (s.round g input)

/-- Rounds that go on for ever lead to no state. -/
def settle? (g : Grammar) (input : Input) (s : State) : Option State :=
  if s.converged then some s else s.round g input |>.settle? g input
partial_fixpoint

end State

end BottomUpPeg
