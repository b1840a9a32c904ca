import BottomUpPeg.Proofs.Growth
import BottomUpPeg.Proofs.Nesting
import BottomUpPeg.Proofs.Strata
import BottomUpPeg.Sample.Grammars

namespace BottomUpPeg

namespace Layer

variable {clauses : Array Linked}

theorem crossings_eq_zero {acyclic : Nat → Bool} {walk : List Nat}
    (hacyclic : ∀ i, ∀ j ∈ Linked.next clauses i, acyclic j = true)
    (hchain : walk.IsChain (Graph.Edge (Linked.next clauses))) :
    crossings clauses acyclic walk = 0 := by
  induction walk with
  | nil => rfl
  | cons i rest ih =>
      cases rest with
      | nil => rfl
      | cons j rest =>
          obtain ⟨hj, hrest⟩ := List.isChain_cons_cons.mp hchain
          rw [crossings, ih hrest, step, hacyclic i j hj, Bool.not_true, Bool.and_false]
          rfl

theorem table_flat (hb : Graph.Bounded (Linked.next clauses) clauses.size) {layers : Array Layer}
    (h : table clauses = .ok layers)
    (hacyclic : ∀ i < clauses.size, (layers[i]?.getD default).acyclic = true) {i : Nat}
    (hi : i < clauses.size) : (layers[i]?.getD default).stratum = 0 := by
  obtain ⟨_, _, hmarked, hgreatest⟩ := table_ok hb h
  obtain ⟨walk, hchain, hcross⟩ := (hgreatest i hi).1
  rw [← hcross]
  exact crossings_eq_zero (fun j k hk => hmarked k ▸ hacyclic k (hb j k hk)) hchain

end Layer

theorem Source.compile_flat {source : Source} {g : Grammar} (h : source.compile = .ok g)
    (hacyclic : ∀ c < g.size, (g.clause c).acyclic = true) (c : Nat) :
    (g.clause c).stratum = 0 := by
  obtain ⟨clauses, flags, layers, hassembled, hb, _, _, hlayers, _⟩ := compile_assembled h
  rcases Nat.lt_or_ge c g.size with hc | hc
  · rw [hassembled.size_eq] at hc hacyclic
    rw [(hassembled.layer_eq hc).2]
    refine Layer.table_flat hb hlayers (fun i hi => ?_) hc
    rw [← (hassembled.layer_eq hi).1]
    exact hacyclic i hi
  · rw [Grammar.clause_of_size_le hc]
    rfl

theorem Graph.rank_lt_size {next : Nat → List Nat} {size v : Nat} (hb : Bounded next size)
    (hfree : ¬LeadsTo next v v) (hv : v < size) : rank next size v < size := by
  have hsub : (beyond next size v).toFinset ⊆ (Finset.range size).erase v := by
    intro w hw
    rw [List.mem_toFinset, mem_beyond hb] at hw
    rw [Finset.mem_erase, Finset.mem_range]
    refine ⟨?_, hb.lt_of_leadsTo hw⟩
    rintro rfl
    exact hfree hw
  have hcard := Finset.card_le_card hsub
  rw [Finset.card_erase_of_mem (Finset.mem_range.mpr hv), Finset.card_range] at hcard
  rw [rank]
  omega

namespace Grammar

variable {g : Grammar} {input : Input}

theorem not_leadsTo_self (hg : g.Lawful) (hacyclic : ∀ c < g.size, (g.clause c).acyclic = true)
    (c : Nat) : ¬Graph.LeadsTo g.next c c := by
  intro hcycle
  have hc := hg.bounded.lt_of_leadsTo hcycle
  exact (hg.acyclic_iff c hc).mp (hacyclic c hc) c .refl hcycle

/-- Keys in the order in which matches are built: parts below wholes and, for one clause, later
positions below earlier ones. -/
def elevation (g : Grammar) (input : Input) (k : Key) : Nat :=
  Graph.rank g.next g.size k.clause * (input.size + 1) + (input.size - k.start)

theorem elevation_lt_of_rank {k : Key} {n : Nat} (h : Graph.rank g.next g.size k.clause < n) :
    g.elevation input k < n * (input.size + 1) := by
  calc g.elevation input k
      < (Graph.rank g.next g.size k.clause + 1) * (input.size + 1) := by
        rw [elevation, Nat.add_mul, Nat.one_mul]
        omega
    _ ≤ n * (input.size + 1) := Nat.mul_le_mul_right _ h

variable (hg : g.Lawful) (hacyclic : ∀ c < g.size, (g.clause c).acyclic = true)

include hg hacyclic

theorem elevation_lt_of_part {k k' : Key} (h : k'.clause ∈ g.next k.clause) :
    g.elevation input k' < g.elevation input k := by
  have hrank := Graph.rank_lt hg.bounded (not_leadsTo_self hg hacyclic) h
  exact (elevation_lt_of_rank hrank).trans_le (Nat.le_add_right ..)

theorem elevation_lt_of_proper {k : Key} (hk : k.Proper g input) :
    g.elevation input k < g.size * (input.size + 1) :=
  elevation_lt_of_rank (Graph.rank_lt_size hg.bounded (not_leadsTo_self hg hacyclic k.clause)
    (lt_size_of_isMemoized hk.memoized))

theorem eq_of_mem_lookupReads {c pos : Nat} {r : Key} (h : r ∈ g.lookupReads c pos) :
    r = ⟨c, pos⟩ := by
  rw [lookupReads] at h
  cases hsize : g.size with
  | zero =>
      rw [hsize] at h
      cases h
  | succ fuel =>
      rw [hsize, lookupReadsWithin] at h
      split at h
      · cases h
      · rename_i slot hshape
        rw [if_pos (hacyclic _ (hg.bounded c _ (mem_next_of_unary hshape)))] at h
        cases h
      · exact List.mem_singleton.mp h

theorem elevation_of_mem_evaluateReads {view : View} (hview : SoundView g input view) {k r : Key}
    (hk : k.start ≤ input.size) (h : r ∈ g.evaluateReads input view k) :
    g.elevation input r < g.elevation input k := by
  obtain ⟨j, q, hr, hj⟩ := Shape.mem_stepReads h
  obtain rfl := eq_of_mem_lookupReads hg hacyclic hr
  rcases hj with hj | ⟨rfl, slot, head, hhead, hlength, rfl⟩
  · exact elevation_lt_of_part hg hacyclic hj
  · -- Only a repetition reads its own clause, past a head that takes characters.
    have hfits := lookup_sound hview _ _ _ hk hhead
    have hstart := hfits.start_eq
    have hstop := hfits.wellFormed.stop_le
    simp only [elevation, Match.stop] at hstart hstop ⊢
    omega

end Grammar

namespace State

variable {g : Grammar} {input : Input}

structure Elevated (g : Grammar) (input : Input) (n : Nat) (s : State) : Prop where
  active : ∀ k ∈ s.active, n ≤ g.elevation input k
  readers : ∀ k, ∀ x ∈ (s.table.entry k).readers, g.elevation input k < g.elevation input x

theorem initial_elevated (g : Grammar) (input : Input) : (initial g input).Elevated g input 0 where
  active := fun _ _ => Nat.zero_le _
  readers := fun k x hx => absurd hx (readers_initial g input k x)

variable (hg : g.Lawful) (hacyclic : ∀ c < g.size, (g.clause c).acyclic = true)
  (hflat : ∀ c, (g.clause c).stratum = 0)

include hg hacyclic hflat

theorem Elevated.round {n : Nat} {s : State} (hvalid : s.Valid g input)
    (h : s.Elevated g input n) : (s.round g input).Elevated g input (n + 1) := by
  have htaken := round_taken g input s
  have hreaders : ∀ k, ∀ x ∈ (((s.waiting g).noted (s.proposals g input)).table.entry k).readers,
      g.elevation input k < g.elevation input x := by
    intro k x hx
    rcases (mem_readers_noted _ _ k x).mp hx with ⟨p, hp, hread, rfl⟩ | hx
    · obtain ⟨k', hk', rfl⟩ := mem_proposals.mp hp
      have hproper := hvalid.active k' (mem_due.mp hk').1
      exact Grammar.elevation_of_mem_evaluateReads hg hacyclic hvalid.best hproper.start_le hread
    · exact h.readers k x hx
  refine ⟨fun x hx => ?_, fun k x hx => ?_⟩
  · rcases htaken.active x hx with hx | ⟨k, _, ⟨p, hp, rfl⟩, hdependent⟩
    · obtain ⟨hactive, hnot⟩ := mem_waiting.mp hx
      exact absurd (mem_due_of_flat hflat hactive) hnot
    · obtain ⟨k, hk, rfl⟩ := mem_proposals.mp hp
      have hle := h.active k (mem_due.mp hk).1
      have hlt : g.elevation input k < g.elevation input x := by
        rcases mem_dependents.mp hdependent with hx | ⟨c, hc, rfl⟩
        · exact hreaders k x hx
        · have hseed := ((hg.mem_seedParents k.clause c).mp hc).2
          exact Grammar.elevation_lt_of_part hg hacyclic (Shape.seedChildren_subset _ _ _ hseed)
      omega
  · rw [htaken.readers] at hx
    exact hreaders k x hx

theorem advance_elevated (n : Nat) : ((initial g input).advance g input n).Elevated g input n := by
  induction n with
  | zero => exact initial_elevated g input
  | succ n ih =>
      rw [advance_add]
      cases hc : ((initial g input).advance g input n).converged with
      | true =>
          rw [advance_of_converged hc]
          exact ⟨fun k hk => absurd hk (not_mem_active_of_converged hc k), ih.readers⟩
      | false =>
          rw [advance_succ hc]
          exact ih.round hg hacyclic hflat (advance_valid hg n)

end State

namespace Parse

theorem nonrecursive_parses_end {source : Source} {g : Grammar} (h : source.compile = .ok g)
    (hacyclic : ∀ c < g.size, (g.clause c).acyclic = true) (input : String) :
    ∃ n ≤ g.size * (input.length + 1), (run g (Input.ofString input) n).state.active = ∅ ∧
      ofString g input none = run g (Input.ofString input) n := by
  have hg := Source.compile_lawful h
  have hsize : (Input.ofString input).size = input.length := by
    simp [Input.ofString, String.length_toList]
  have hconverged : (run g (Input.ofString input) (g.size * (input.length + 1))).converged = true := by
    apply State.converged_of_forall
    intro k hk
    have hle := (State.advance_elevated hg hacyclic (Source.compile_flat h hacyclic) _).active k hk
    have hlt := Grammar.elevation_lt_of_proper hg hacyclic ((State.advance_valid hg _).active k hk)
    rw [hsize] at hlt
    omega
  refine ⟨_, Nat.le_refl _, ?_, ofString_eq_run_of_converged hconverged⟩
  exact Std.ExtTreeSet.isEmpty_iff.mp hconverged

theorem words_come_to_an_end :
    ∃ g, Sample.wordList.compile = .ok g ∧ g.lexical.isSome ∧
      (∀ c < g.size, (g.clause c).acyclic = true) ∧
      ∃ n ≤ g.size * ("ab c".length + 1), (run g (Input.ofString "ab c") n).state.active = ∅ ∧
        ofString g "ab c" none = run g (Input.ofString "ab c") n := by
  have hfacts : (Sample.wordList.compile.toOption.any fun g =>
      g.lexical.isSome && (List.range g.size).all fun c => (g.clause c).acyclic) = true := by
    decide +kernel
  cases hg : Sample.wordList.compile with
  | error e => simp [hg, Except.toOption] at hfacts
  | ok g =>
      simp only [hg, Except.toOption, Option.any_some, Bool.and_eq_true, List.all_eq_true,
        List.mem_range] at hfacts
      exact ⟨g, rfl, hfacts.1, hfacts.2, nonrecursive_parses_end hg hfacts.2 "ab c"⟩

end Parse

end BottomUpPeg
