import BottomUpPeg.Proofs.FlagTable
import BottomUpPeg.Proofs.Layering
import BottomUpPeg.Proofs.Linking

namespace BottomUpPeg

namespace Shape

theorem leading_subset (zero : Nat → Bool) (slots : List Slot) :
    ∀ i ∈ leading zero slots, i ∈ slots.map (·.clause) := by
  induction slots with
  | nil => simp [leading]
  | cons s rest ih =>
      intro i hi
      rw [leading] at hi
      split at hi
      · rcases List.mem_cons.mp hi with rfl | hi
        · simp
        · exact List.mem_cons_of_mem _ (ih i hi)
      · rw [List.mem_singleton.mp hi]
        simp

theorem seedChildren_subset (zero : Nat → Bool) (s : Shape) :
    ∀ i ∈ s.seedChildren zero, i ∈ s.children := by
  cases s with
  | terminal t => simp [seedChildren]
  | group kind slots =>
      cases kind with
      | seq => exact leading_subset zero slots
      | first | longest => simp [seedChildren, children, Shape.slots]
  | unary kind slot => simp [seedChildren, children, Shape.slots]

end Shape

namespace Grammar

def next (g : Grammar) (i : Nat) : List Nat := (g.shape i).children

def flags (g : Grammar) (i : Nat) : Flags := ⟨(g.clause i).always, (g.clause i).zero⟩

def zero (g : Grammar) (i : Nat) : Bool := (g.clause i).zero

/-- What compiling promises of a grammar: its parts are clauses of it, and the marks on its clauses
mean what they say. -/
structure Lawful (g : Grammar) : Prop where
  bounded : Graph.Bounded g.next g.size
  mem_seedParents : ∀ i j, j ∈ (g.clause i).seedParents ↔
    (g.shape j).isMemoized = true ∧ i ∈ (g.shape j).seedChildren g.zero
  flags_eq : ∀ i < g.size, g.flags i = (g.shape i).flags g.flags
  coherent : ∀ i, (g.flags i).Coherent
  unshadowed : ∀ i < g.size, (g.shape i).shadowing? g.flags = none
  acyclic_iff : ∀ i < g.size, (g.clause i).acyclic = true ↔
    ∀ j, Graph.Reaches g.next i j → ¬Graph.LeadsTo g.next j j
  stratum_le : ∀ i, ∀ j ∈ g.next i, (g.clause j).stratum ≤ (g.clause i).stratum
  stratum_lt : ∀ i slot, g.shape i = .unary .notFollowedBy slot →
    (g.clause slot.clause).acyclic = false → (g.clause slot.clause).stratum < (g.clause i).stratum
  lexical : ∀ r, g.lexical = some r → (g.clause r.clause).acyclic = true

theorem clause_of_size_le {g : Grammar} {i : Nat} (h : g.size ≤ i) : g.clause i = default := by
  simp only [size] at h
  simp [clause, h]

theorem lt_size_of_isMemoized {g : Grammar} {i : Nat} (h : (g.shape i).isMemoized = true) :
    i < g.size := by
  by_contra hi
  rw [shape, clause_of_size_le (Nat.le_of_not_lt hi)] at h
  cases h

theorem lt_size_of_mem_next {g : Grammar} {i j : Nat} (h : j ∈ g.next i) : i < g.size := by
  by_contra hi
  rw [next, shape, clause_of_size_le (Nat.le_of_not_lt hi)] at h
  cases h

theorem mem_next_of_unary {g : Grammar} {i : Nat} {kind : Unary} {slot : Slot}
    (h : g.shape i = .unary kind slot) : slot.clause ∈ g.next i := by
  simp [next, h, Shape.children, Shape.slots]

theorem mem_next_of_group {g : Grammar} {i : Nat} {kind : Group} {slots : List Slot} {slot : Slot}
    (h : g.shape i = .group kind slots) (hs : slot ∈ slots) : slot.clause ∈ g.next i := by
  simp only [next, h, Shape.children, Shape.slots]
  exact List.mem_map_of_mem hs

end Grammar

/-- What a grammar keeps of the tables it is assembled from. -/
structure Assembled (clauses : Array Linked) (flags : Flags.Table) (layers : Array Layer)
    (g : Grammar) : Prop where
  size_eq : g.size = clauses.size
  clause_eq : ∀ i < clauses.size, g.clause i = Clause.assemble clauses g.rules flags layers i

namespace Assembled

variable {clauses : Array Linked} {flags : Flags.Table} {layers : Array Layer} {g : Grammar}

theorem shape_eq (h : Assembled clauses flags layers g) (i : Nat) :
    g.shape i = (Linked.clause clauses i).shape := by
  by_cases hi : i < clauses.size
  · rw [Grammar.shape, h.clause_eq i hi]
    rfl
  · rw [Grammar.shape, Grammar.clause_of_size_le (h.size_eq ▸ Nat.le_of_not_lt hi)]
    simp only [Linked.clause, Nat.le_of_not_lt hi, Array.getElem?_eq_none, Option.getD_none]
    rfl

theorem next_eq (h : Assembled clauses flags layers g) : g.next = Linked.next clauses := by
  funext i
  rw [Grammar.next, h.shape_eq]
  rfl

theorem flags_eq (h : Assembled clauses flags layers g) (hsize : flags.size = clauses.size) :
    g.flags = flags.get := by
  funext i
  by_cases hi : i < clauses.size
  · rw [Grammar.flags, h.clause_eq i hi]
    rfl
  · rw [Grammar.flags, Grammar.clause_of_size_le (h.size_eq ▸ Nat.le_of_not_lt hi),
      Flags.Table.get_of_size_le (hsize ▸ Nat.le_of_not_lt hi)]
    rfl

theorem zero_eq (h : Assembled clauses flags layers g) (hsize : flags.size = clauses.size) :
    g.zero = fun i => (flags.get i).zero := by
  funext i
  rw [← h.flags_eq hsize]
  rfl

theorem isNegative_iff (h : Assembled clauses flags layers g) (i : Nat) :
    Layer.isNegative clauses i = true ↔ ∃ slot, g.shape i = .unary .notFollowedBy slot := by
  rw [h.shape_eq, Layer.isNegative]
  split
  · rename_i slot hs
    simp [hs]
  · rename_i hs
    simpa using fun slot heq => hs slot heq

theorem layer_eq (h : Assembled clauses flags layers g) {i : Nat} (hi : i < clauses.size) :
    (g.clause i).acyclic = (layers[i]?.getD default).acyclic ∧
      (g.clause i).stratum = (layers[i]?.getD default).stratum := by
  rw [h.clause_eq i hi]
  exact ⟨rfl, rfl⟩

theorem mem_seedParents (h : Assembled clauses flags layers g)
    (hsize : flags.size = clauses.size) (hb : Graph.Bounded (Linked.next clauses) clauses.size)
    (i j : Nat) :
    j ∈ (g.clause i).seedParents ↔
      (g.shape j).isMemoized = true ∧ i ∈ (g.shape j).seedChildren g.zero := by
  rw [h.shape_eq, h.zero_eq hsize]
  by_cases hi : i < clauses.size
  · rw [h.clause_eq i hi]
    simp only [Clause.assemble, Linked.seedParents, List.mem_filter, List.mem_range,
      Bool.and_eq_true, List.contains_iff_mem]
    refine ⟨And.right, fun hj => ⟨?_, hj⟩⟩
    rw [← h.shape_eq] at hj
    exact h.size_eq ▸ Grammar.lt_size_of_isMemoized hj.1
  · rw [Grammar.clause_of_size_le (h.size_eq ▸ Nat.le_of_not_lt hi)]
    refine ⟨fun hj => absurd hj List.not_mem_nil, fun hj => absurd (hb j i ?_) hi⟩
    exact Shape.seedChildren_subset _ _ i hj.2

theorem lawful (h : Assembled clauses flags layers g)
    (hb : Graph.Bounded (Linked.next clauses) clauses.size) (hfirst : Linked.PartsFirst clauses)
    (hflags : Flags.table clauses = .ok flags) (hlayers : Layer.table clauses = .ok layers)
    (hlexical : ∀ r, g.lexical = some r → r.clause < clauses.size ∧
      Graph.cycleFrom? (Linked.next clauses) clauses.size r.clause = none) : g.Lawful := by
  obtain ⟨hjustified, hsolved⟩ := Flags.table_ok hflags
  have hsound := Layer.table_sound hb hfirst hlayers
  have hlt : ∀ {i j : Nat}, j ∈ g.next i → i < clauses.size := fun hj =>
    h.size_eq ▸ Grammar.lt_size_of_mem_next hj
  have hacyclic : ∀ i < g.size, (g.clause i).acyclic = true ↔
      ∀ j, Graph.Reaches g.next i j → ¬Graph.LeadsTo g.next j j := by
    intro i hi
    rw [(h.layer_eq (h.size_eq ▸ hi)).1, h.next_eq]
    exact hsound.acyclic_iff i (h.size_eq ▸ hi)
  refine
    { bounded := by rw [h.next_eq, h.size_eq]; exact hb
      mem_seedParents := h.mem_seedParents hjustified.size_eq hb
      flags_eq := ?_, coherent := ?_, unshadowed := ?_, acyclic_iff := hacyclic, stratum_le := ?_
      stratum_lt := ?_, lexical := ?_ }
  · intro i hi
    rw [h.flags_eq hjustified.size_eq, h.shape_eq]
    exact (hsolved i (h.size_eq ▸ hi)).1
  · intro i
    rw [h.flags_eq hjustified.size_eq]
    exact hjustified.coherent i
  · intro i hi
    rw [h.flags_eq hjustified.size_eq, h.shape_eq]
    exact (hsolved i (h.size_eq ▸ hi)).2
  · intro i j hj
    have hi := hlt hj
    rw [h.next_eq] at hj
    rw [(h.layer_eq hi).2, (h.layer_eq (hb i j hj)).2]
    exact hsound.stratum_le i j hj
  · intro i slot hs hacyclic
    have hj := Grammar.mem_next_of_unary hs
    have hi := hlt hj
    rw [h.next_eq] at hj
    rw [(h.layer_eq (hb i _ hj)).1] at hacyclic
    rw [(h.layer_eq hi).2, (h.layer_eq (hb i _ hj)).2]
    exact hsound.stratum_lt i _ hj ((h.isNegative_iff i).mpr ⟨slot, hs⟩) hacyclic
  · intro r hr
    obtain ⟨hr, hnone⟩ := hlexical r hr
    refine (hacyclic r.clause (h.size_eq ▸ hr)).mpr fun j hj => ?_
    rw [h.next_eq] at hj ⊢
    exact Graph.not_leadsTo_self_of_cycleFrom? hb hr hnone hj

end Assembled

theorem checkLexical_ok {clauses : Array Linked} {lexical : Option Rule}
    (h : checkLexical clauses lexical = .ok ()) :
    ∀ r, lexical = some r →
      Graph.cycleFrom? (Linked.next clauses) clauses.size r.clause = none := by
  rintro r rfl
  rw [checkLexical] at h
  split at h
  · cases h
  · assumption

theorem Source.compile_assembled {source : Source} {g : Grammar} (h : source.compile = .ok g) :
    ∃ clauses flags layers, Assembled clauses flags layers g ∧
      Graph.Bounded (Linked.next clauses) clauses.size ∧ Linked.PartsFirst clauses ∧
      Flags.table clauses = .ok flags ∧ Layer.table clauses = .ok layers ∧
      ∀ r, g.lexical = some r → r.clause < clauses.size ∧
        Graph.cycleFrom? (Linked.next clauses) clauses.size r.clause = none := by
  simp only [compile, bind, Except.bind] at h
  split at h
  · cases h
  rename_i definitions _
  split at h
  · cases h
  rename_i linked hlinked
  split at h
  · cases h
  rename_i hchecked
  split at h
  · cases h
  rename_i flags hflags
  split at h
  · cases h
  rename_i layers hlayers
  cases h
  obtain ⟨hb, hroots⟩ := linkDefinitions_lt hlinked
  refine ⟨_, flags, layers, ⟨by simp [Grammar.size], fun i hi => ?_⟩, hb,
    linkDefinitions_partsFirst hlinked, hflags, hlayers, ?_⟩
  · simp [Grammar.clause, hi]
  · intro r hr
    refine ⟨?_, checkLexical_ok hchecked r hr⟩
    obtain ⟨name, _, hfind⟩ := Option.bind_eq_some_iff.mp hr
    obtain ⟨⟨d, root⟩, hzip, rfl⟩ := List.mem_map.mp (List.mem_of_find?_eq_some hfind)
    exact hroots root (List.of_mem_zip hzip).2

theorem Source.compile_lawful {source : Source} {g : Grammar} (h : source.compile = .ok g) :
    g.Lawful := by
  obtain ⟨_, _, _, hassembled, hb, hfirst, hflags, hlayers, hlexical⟩ := compile_assembled h
  exact hassembled.lawful hb hfirst hflags hlayers hlexical

theorem exists_of_toOption_any {ε α : Type} {result : Except ε α} {p : α → Bool}
    (h : result.toOption.any p = true) : ∃ a, result = .ok a ∧ p a = true := by
  cases result with
  | error e => cases h
  | ok a => exact ⟨a, rfl, h⟩

theorem Source.exists_of_compile_any {source : Source} {p : Grammar → Bool}
    (h : source.compile.toOption.any p = true) : ∃ g, source.compile = .ok g ∧ p g = true :=
  exists_of_toOption_any h

end BottomUpPeg
