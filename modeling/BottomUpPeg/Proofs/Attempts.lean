import BottomUpPeg.Proofs.Choices
import BottomUpPeg.Proofs.Naming

namespace BottomUpPeg

theorem Key.start_lt_of_compare {a b : Key} (h : compare a b = .lt)
    (hclause : a.clause = b.clause) : a.start < b.start := by
  have hthen : (compare a.clause b.clause).then (compare a.start b.start) = .lt := h
  rw [Nat.compare_eq_eq.mpr hclause] at hthen
  exact Nat.compare_eq_lt.mp hthen

theorem Shape.stepReads_congr_clause {s : Shape} (h : ∀ slot, s ≠ .unary .oneOrMore slot)
    (look : Look) (reads : Nat → Nat → List Key) (c c' pos : Nat) :
    s.stepReads look reads c pos = s.stepReads look reads c' pos := by
  cases s with
  | terminal t => rfl
  | group kind slots => cases kind <;> rfl
  | unary kind slot =>
      cases kind with
      | oneOrMore => exact absurd rfl (h slot)
      | followedBy | notFollowedBy => rfl

namespace Grammar

variable {g : Grammar} {c : Nat}

def Unreferenced (g : Grammar) (c : Nat) : Prop := ∀ i, c ∉ (g.shape i).children

theorem Unreferenced.not_mem_lookupReadsWithin (h : g.Unreferenced c) (fuel pos : Nat) {j : Nat}
    (hj : j ≠ c) : ∀ k ∈ g.lookupReadsWithin fuel j pos, k.clause ≠ c := by
  induction fuel generalizing j with
  | zero => simp [lookupReadsWithin]
  | succ fuel ih =>
      rw [lookupReadsWithin]
      split
      · simp
      · rename_i slot hshape
        have hslot : slot.clause ∈ (g.shape j).children := by
          rw [hshape]
          exact List.mem_singleton_self _
        split
        · simp
        · exact ih fun heq => h j (heq ▸ hslot)
      · intro k hk
        rw [List.mem_singleton.mp hk]
        exact hj

theorem Unreferenced.not_mem_evaluateReads (h : g.Unreferenced c)
    (honce : ∀ slot, g.shape c ≠ .unary .oneOrMore slot) (input : Input) (view : View)
    (reader : Key) : ∀ k ∈ g.evaluateReads input view reader, k.clause ≠ c := by
  intro k hk
  -- Only a repetition reads its own clause: for all else another number may stand in its place.
  obtain ⟨c', hc', hread⟩ : ∃ c' ≠ c, k ∈ (g.shape reader.clause).stepReads (g.lookup input view)
      g.lookupReads c' reader.start := by
    by_cases hreader : reader.clause = c
    · refine ⟨c + 1, Nat.succ_ne_self c, ?_⟩
      rw [evaluateReads, hreader, Shape.stepReads_congr_clause honce _ _ c (c + 1)] at hk
      rwa [hreader]
    · exact ⟨reader.clause, hreader, hk⟩
  obtain ⟨j, q, hlookup, hj⟩ := Shape.mem_stepReads hread
  refine h.not_mem_lookupReadsWithin g.size q ?_ k hlookup
  rcases hj with hj | ⟨rfl, _⟩
  · exact fun heq => h reader.clause (heq ▸ hj)
  · exact hc'

end Grammar

namespace State

variable {g : Grammar} {input : Input}

theorem mem_offer {s : State} {p : Proposal} {k : Key} (hk : k ∈ s.table) :
    k ∈ (offer g s p).table := by
  rcases offer_cases g s p with ⟨heq, _⟩ | ⟨m, _, _, heq⟩
  · rwa [heq]
  · rw [heq]
    exact (Table.mem_insert_iff ..).mpr (.inr hk)

theorem mem_commit (ps : List Proposal) {s : State} {k : Key}
    (hk : (∃ p ∈ ps, k ∈ p.reads) ∨ k ∈ s.table) : k ∈ (s.commit g ps).table := by
  rw [commit_eq_foldl_bests]
  exact List.foldlRecOn (motive := fun s => k ∈ s.table) _ (offer g) ((mem_noted ps s k).mpr hk)
    fun _ hk _ _ => mem_offer hk

def Blank (s : State) (k : Key) : Prop := k ∈ s.table ∧ s.table.view k = none

theorem Blank.of_offer {s : State} {p : Proposal} {k : Key} (h : (offer g s p).Blank k) :
    s.Blank k := by
  obtain ⟨hk, hview⟩ := h
  rcases offer_cases g s p with ⟨heq, _⟩ | ⟨m, _, _, heq⟩
  · rw [heq] at hk hview
    exact ⟨hk, hview⟩
  · simp only [heq, Table.view_keep] at hk hview
    split at hview
    · cases hview
    · rename_i hne
      exact ⟨((Table.mem_insert_iff ..).mp hk).resolve_left hne, hview⟩

theorem Blank.of_commit {ps : List Proposal} {s : State} {k : Key} (h : (s.commit g ps).Blank k) :
    (∃ p ∈ ps, k ∈ p.reads) ∨ s.Blank k := by
  have hnoted : (s.noted ps).Blank k := by
    by_contra hnot
    rw [commit_eq_foldl_bests] at h
    exact List.foldlRecOn (motive := fun s => ¬s.Blank k) _ (offer g) hnot
      (fun _ hnot _ _ h => hnot h.of_offer) h
  obtain ⟨hk, hview⟩ := hnoted
  rw [view_noted] at hview
  exact ((mem_noted ps s k).mp hk).imp_right fun hk => ⟨hk, hview⟩

theorem not_blank_initial (k : Key) : ¬(initial g input).Blank k := by
  intro h
  rw [initial_eq] at h
  rcases h.of_commit with ⟨p, hp, hread⟩ | ⟨hk, _⟩
  · obtain ⟨m, _, rfl⟩ := List.mem_map.mp hp
    cases hread
  · rw [table_seeded] at hk
    exact Std.ExtTreeMap.not_mem_empty hk

end State

namespace Parse

variable {g : Grammar} {input : Input}

def ReadWithin (g : Grammar) (input : Input) (n : Nat) (k reader : Key) : Prop :=
  ∃ i < n, reader ∈ (run g input i).state.due g ∧
    k ∈ g.evaluateReads input (run g input i).table.view reader

theorem ReadWithin.mono {n n' : Nat} {k reader : Key} (h : ReadWithin g input n k reader)
    (hle : n ≤ n') : ReadWithin g input n' k reader := by
  obtain ⟨i, hi, h⟩ := h
  exact ⟨i, Nat.lt_of_lt_of_le hi hle, h⟩

theorem mem_run_of_read {n : Nat} {k reader : Key} (h : ReadWithin g input n k reader) :
    k ∈ (run g input n).table := by
  induction n with
  | zero =>
      obtain ⟨i, hi, _⟩ := h
      exact absurd hi (Nat.not_lt_zero i)
  | succ n ih =>
      obtain ⟨i, hi, hdue, hread⟩ := h
      rcases Nat.eq_or_lt_of_le (Nat.le_of_lt_succ hi) with rfl | hi
      · have hrunning : (run g input i).state.converged = false := by
          by_contra hconverged
          exact State.not_mem_active_of_converged (by simpa using hconverged) reader
            (State.mem_due.mp hdue).1
        rw [table, state_run_succ_of_running hrunning, State.round_eq]
        exact State.mem_commit _ (.inl ⟨_, State.mem_proposals.mpr ⟨reader, hdue, rfl⟩, hread⟩)
      · have hk := ih ⟨i, hi, hdue, hread⟩
        rcases state_run_succ g input n with heq | heq
        · rwa [table, heq]
        · rw [table, heq, State.round_eq]
          exact State.mem_commit _ (.inr hk)

theorem read_of_blank {n : Nat} {k : Key} (h : (run g input n).state.Blank k) :
    ∃ reader, ReadWithin g input n k reader := by
  induction n with
  | zero => exact absurd h (State.not_blank_initial k)
  | succ n ih =>
      rcases state_run_succ g input n with heq | heq
      · rw [heq] at h
        obtain ⟨reader, hread⟩ := ih h
        exact ⟨reader, hread.mono (Nat.le_succ n)⟩
      · rw [heq, State.round_eq] at h
        rcases h.of_commit with ⟨p, hp, hread⟩ | hblank
        · obtain ⟨reader, hdue, rfl⟩ := State.mem_proposals.mp hp
          exact ⟨reader, n, Nat.lt_succ_self n, hdue, hread⟩
        · obtain ⟨reader, hread⟩ := ih hblank
          exact ⟨reader, hread.mono (Nat.le_succ n)⟩

def Read (p : Parse) (k reader : Key) : Prop :=
  ReadWithin p.grammar p.input p.state.rounds k reader

def Tried (p : Parse) (k : Key) : Prop := p.Evaluated k ∨ ∃ reader ≠ k, p.Read k reader

theorem Tried.of_read {p : Parse} {k reader : Key} (h : p.Read k reader) : p.Tried k := by
  by_cases hself : reader = k
  · obtain ⟨i, hi, hdue, _⟩ := h
    exact .inl ⟨i, hi, hself ▸ hdue⟩
  · exact .inr ⟨reader, hself, h⟩

theorem tried_iff {p : Parse} {k : Key} :
    p.Tried k ↔ p.Evaluated k ∨ ∃ reader, p.Read k reader := by
  constructor
  · rintro (h | ⟨reader, _, hread⟩)
    · exact .inl h
    · exact .inr ⟨reader, hread⟩
  · rintro (h | ⟨reader, hread⟩)
    · exact .inl h
    · exact .of_read hread

section Compiled

variable {source : Source}

theorem mem_table_iff_read (hg : g.Lawful) (input : String) (limit : Option Nat) {k : Key}
    (hmemoized : (g.shape k.clause).isMemoized = true)
    (hbest : (ofString g input limit).best? k.clause k.start = none) :
    k ∈ (ofString g input limit).table ↔ ∃ reader, (ofString g input limit).Read k reader := by
  have hstate := (state_ofString g input limit).1
  simp only [Read, grammar_ofString, input_ofString]
  constructor
  · intro hk
    have hpos := ((ofString_valid hg input limit).keys k hk).start_le
    rw [best?_ofString g input limit hpos, Grammar.lookup_of_isMemoized hmemoized,
      Option.or_eq_none_iff] at hbest
    have hblank : (ofString g input limit).state.Blank k := ⟨hk, hbest.1⟩
    rw [hstate] at hblank
    exact read_of_blank hblank
  · rintro ⟨reader, hread⟩
    rw [table, hstate]
    exact mem_run_of_read hread

theorem nonMatches_of_mem (h : source.compile = .ok g) (input : String) (limit : Option Nat)
    {rule : Rule} (hrule : rule ∈ g.rules) :
    (ofString g input limit).nonMatches rule.name =
      .ok (((ofString g input limit).triedAt rule.clause).filter fun pos =>
        ((ofString g input limit).best? rule.clause pos).isNone) := by
  rw [nonMatches, grammar_ofString, Grammar.ruleOf_of_mem h hrule]
  rfl

theorem ascending_triedAt {p : Parse} {c : Nat}
    (hmemoized : (p.grammar.shape c).isMemoized = true) : (p.triedAt c).Pairwise (· < ·) := by
  rw [triedAt, if_pos hmemoized, List.pairwise_map]
  refine (Std.ExtTreeMap.ordered_keys.filter _).imp_of_mem fun ha hb hlt => ?_
  have hclause : ∀ k ∈ p.table.keys.filter (·.clause = c), k.clause = c := fun k hk => by
    simpa using (List.mem_filter.mp hk).2
  exact Key.start_lt_of_compare hlt ((hclause _ ha).trans (hclause _ hb).symm)

theorem mem_triedAt {p : Parse} {c : Nat} (hmemoized : (p.grammar.shape c).isMemoized = true)
    {pos : Nat} : pos ∈ p.triedAt c ↔ (⟨c, pos⟩ : Key) ∈ p.table := by
  simp only [triedAt, if_pos hmemoized, List.mem_map, List.mem_filter, Std.ExtTreeMap.mem_keys,
    decide_eq_true_eq]
  constructor
  · rintro ⟨k, ⟨hk, rfl⟩, rfl⟩
    exact hk
  · exact fun hk => ⟨⟨c, pos⟩, ⟨hk, rfl⟩, rfl⟩

theorem exists_nonMatches (h : source.compile = .ok g) (input : String) (limit : Option Nat)
    {rule : Rule} (hrule : rule ∈ g.rules) (hmemoized : (g.shape rule.clause).isMemoized = true) :
    let p := ofString g input limit
    ∃ found, p.nonMatches rule.name = .ok found ∧ found.Pairwise (· < ·) ∧
      ∀ pos, pos ∈ found ↔
        (∃ reader, p.Read ⟨rule.clause, pos⟩ reader) ∧ p.best? rule.clause pos = none := by
  intro p
  have hkept : (p.grammar.shape rule.clause).isMemoized = true := by rwa [grammar_ofString]
  refine ⟨_, nonMatches_of_mem h input limit hrule, (ascending_triedAt hkept).filter _,
    fun pos => ?_⟩
  rw [List.mem_filter, Option.isNone_iff_eq_none, mem_triedAt hkept]
  have hg := Source.compile_lawful h
  exact and_congr_left (mem_table_iff_read hg input limit (k := ⟨rule.clause, pos⟩) hmemoized)

/-- A position where the clause was evaluated, and failed, is missing if no evaluation read it
there. -/
theorem non_matches_are_failed_reads (h : source.compile = .ok g) (input : String)
    (limit : Option Nat) {rule : Rule} (hrule : rule ∈ g.rules)
    (hmemoized : (g.shape rule.clause).isMemoized = true) :
    let p := ofString g input limit
    let c := rule.clause
    ∃ found, p.nonMatches rule.name = .ok found ∧ found.Pairwise (· < ·) ∧
      (∀ pos, pos ∈ found ↔ (∃ reader, p.Read ⟨c, pos⟩ reader) ∧ p.best? c pos = none) ∧
      ((∀ pos, pos ∈ found ↔ p.Tried ⟨c, pos⟩ ∧ p.best? c pos = none) ↔
        ∀ pos, p.Evaluated ⟨c, pos⟩ → p.best? c pos = none →
          ∃ reader, p.Read ⟨c, pos⟩ reader) := by
  intro p c
  obtain ⟨found, hfound, hascending, hread⟩ := exists_nonMatches h input limit hrule hmemoized
  refine ⟨found, hfound, hascending, hread, fun hall pos hevaluated hbest => ?_, fun hall pos => ?_⟩
  · exact ((hread pos).mp ((hall pos).mpr ⟨.inl hevaluated, hbest⟩)).1
  · rw [hread pos, tried_iff]
    refine and_congr_left fun hbest => ⟨.inr, ?_⟩
    rintro (hevaluated | hread)
    · exact hall pos hevaluated hbest
    · exact hread

theorem nonMatches_of_unreferenced (h : source.compile = .ok g) (input : String)
    (limit : Option Nat) {rule : Rule} (hrule : rule ∈ g.rules)
    (hmemoized : (g.shape rule.clause).isMemoized = true)
    (hunreferenced : g.Unreferenced rule.clause)
    (honce : ∀ slot, g.shape rule.clause ≠ .unary .oneOrMore slot) :
    (ofString g input limit).nonMatches rule.name = .ok [] := by
  obtain ⟨found, hfound, _, hread⟩ := exists_nonMatches h input limit hrule hmemoized
  have hnone : found = [] := by
    refine List.eq_nil_iff_forall_not_mem.mpr fun pos hpos => ?_
    obtain ⟨⟨reader, _, _, _, hread⟩, _⟩ := (hread pos).mp hpos
    rw [grammar_ofString] at hread
    exact hunreferenced.not_mem_evaluateReads honce _ _ _ _ hread rfl
  rw [hfound, hnone]

end Compiled

def digits : Source where
  definitions := [.plain "Digits" (.oneOrMore (.charRange '0' '9'))]
  lexical := none

theorem end_of_digits_is_listed :
    ∃ g rule, digits.compile = .ok g ∧ rule ∈ g.rules ∧
      (ofString g "12a" (some 8)).nonMatches rule.name = .ok [2] ∧
      (∃ reader, (ofString g "12a" (some 8)).Read ⟨rule.clause, 2⟩ reader) ∧
      ∀ pos, pos = 2 ↔ (ofString g "12a" (some 8)).Tried ⟨rule.clause, pos⟩ ∧
        (ofString g "12a" (some 8)).best? rule.clause pos = none := by
  have hrun : (digits.compile.toOption.any fun g => g.rules.any fun rule =>
      let p := ofString g "12a" (some 8)
      (g.shape rule.clause).isMemoized && (p.nonMatches rule.name).toOption.any (· = [2]) &&
        (List.range p.state.rounds).all fun i =>
          ((run p.grammar p.input i).state.due p.grammar).all fun k =>
            (p.best? k.clause k.start).isSome) = true := by
    decide +kernel
  obtain ⟨g, hg, hrun⟩ := Source.exists_of_compile_any hrun
  simp only [List.any_eq_true, Bool.and_eq_true, List.all_eq_true, List.mem_range] at hrun
  obtain ⟨rule, hrule, ⟨hmemoized, hlisted⟩, hevaluated⟩ := hrun
  obtain ⟨found, hfound, _, hread, hexact⟩ :=
    non_matches_are_failed_reads hg "12a" (some 8) hrule hmemoized
  rw [hfound] at hlisted
  obtain rfl : found = [2] := of_decide_eq_true hlisted
  refine ⟨g, rule, hg, hrule, hfound, ((hread 2).mp (List.mem_singleton_self 2)).1, ?_⟩
  simp only [List.mem_singleton] at hexact
  refine hexact.mpr fun pos htried hbest => ?_
  obtain ⟨i, hi, hdue⟩ := htried
  simpa [hbest] using hevaluated i hi _ hdue

def unfinished : Source where
  definitions := [.plain "S" (.seq [.char 'a', .char 'b'])]
  lexical := none

theorem failed_attempt_is_not_listed :
    ∃ g rule found, unfinished.compile = .ok g ∧ rule ∈ g.rules ∧
      (g.shape rule.clause).isMemoized = true ∧ (ofString g "a" none).converged = true ∧
      (ofString g "a" none).nonMatches rule.name = .ok found ∧
      ¬∀ pos, pos ∈ found ↔ (ofString g "a" none).Tried ⟨rule.clause, pos⟩ ∧
        (ofString g "a" none).best? rule.clause pos = none := by
  have hrun : (unfinished.compile.toOption.any fun g => g.rules.any fun rule =>
      let p := run g (Input.ofString "a") 2
      (g.shape rule.clause).isMemoized && p.converged &&
        (p.nonMatches rule.name).toOption.any (·.isEmpty) && (p.best? rule.clause 0).isNone &&
        decide (0 < p.state.rounds) &&
        ((run p.grammar p.input 0).state.due p.grammar).contains ⟨rule.clause, 0⟩) = true := by
    decide +kernel
  obtain ⟨g, hg, hrun⟩ := Source.exists_of_compile_any hrun
  simp only [List.any_eq_true, Bool.and_eq_true, Option.isNone_iff_eq_none, decide_eq_true_eq,
    List.contains_iff_mem] at hrun
  obtain ⟨rule, hrule, ⟨⟨⟨⟨hmemoized, hconverged⟩, hlisted⟩, hbest⟩, hrounds⟩, hdue⟩ := hrun
  obtain ⟨found, hfound, _⟩ := exists_nonMatches hg "a" none hrule hmemoized
  refine ⟨g, rule, found, hg, hrule, hmemoized, ?_⟩
  rw [ofString_eq_run_of_converged hconverged] at hfound ⊢
  rw [hfound] at hlisted
  obtain rfl : found = [] := List.isEmpty_iff.mp hlisted
  refine ⟨hconverged, hfound, fun hall => ?_⟩
  exact absurd ((hall 0).mpr ⟨.inl ⟨0, hrounds, hdue⟩, hbest⟩) List.not_mem_nil

end Parse

end BottomUpPeg
