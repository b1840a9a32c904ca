import BottomUpPeg.Parse.Basic
import BottomUpPeg.Proofs.Draining

namespace BottomUpPeg

namespace State

variable {g : Grammar} {input : Input}

theorem stratum_le {s : State} {k : Key} (hk : k ∈ s.active) : s.stratum g ≤ stratumOf g k := by
  have hmem : stratumOf g k ∈ s.active.toList.map (stratumOf g) :=
    List.mem_map_of_mem (Std.ExtTreeSet.mem_toList.mpr hk)
  cases hmin : (s.active.toList.map (stratumOf g)).min? with
  | none => simp [List.min?_eq_none_iff.mp hmin] at hmem
  | some n =>
      rw [stratum, hmin]
      exact (List.min?_eq_some_iff.mp hmin).2 _ hmem

theorem exists_stratum_eq {s : State} (h : s.converged = false) :
    ∃ k ∈ s.active, stratumOf g k = s.stratum g := by
  cases hmin : (s.active.toList.map (stratumOf g)).min? with
  | none =>
      have hnil : s.active.toList = [] := by simpa using List.min?_eq_none_iff.mp hmin
      have hempty : s.active = ∅ := by
        apply Std.ExtTreeSet.ext_mem
        intro k
        rw [← Std.ExtTreeSet.mem_toList, hnil]
        simp
      rw [converged, Std.ExtTreeSet.isEmpty_eq_false_iff] at h
      exact absurd hempty h
  | some n =>
      obtain ⟨k, hk, heq⟩ := List.mem_map.mp (List.min?_eq_some_iff.mp hmin).1
      exact ⟨k, Std.ExtTreeSet.mem_toList.mp hk, by rw [heq, stratum, hmin]; rfl⟩

theorem mem_due {s : State} {k : Key} :
    k ∈ s.due g ↔ k ∈ s.active ∧ stratumOf g k = s.stratum g := by
  simp [due]

theorem not_mem_active_of_converged {s : State} (h : s.converged = true) (k : Key) :
    k ∉ s.active := by
  rw [converged, Std.ExtTreeSet.isEmpty_iff] at h
  simp [h]

theorem converged_of_forall {s : State} (h : ∀ k, k ∉ s.active) : s.converged = true := by
  rw [converged, Std.ExtTreeSet.isEmpty_iff]
  apply Std.ExtTreeSet.ext_mem
  intro k
  simp [h k]

theorem nodup_due (s : State) : (s.due g).Nodup := by
  refine List.Nodup.filter _ (s.active.distinct_toList.imp ?_)
  intro a b hne heq
  exact hne (Std.LawfulEqCmp.compare_eq_iff_eq.mpr heq)

/-- The state of a round when its due keys are taken out and none of their proposals is taken up. -/
def waiting (g : Grammar) (s : State) : State :=
  { s with
    active := s.active.filter fun k => stratumOf g k ≠ s.stratum g
    rounds := s.rounds + 1
    evaluations := s.evaluations + (s.due g).length
    events := .roundStarted (s.rounds + 1) (s.stratum g) (s.due g).length :: s.events }

def proposals (g : Grammar) (input : Input) (s : State) : List Proposal :=
  (s.due g).map (Proposal.ofKey g input s.table)

theorem round_eq (g : Grammar) (input : Input) (s : State) :
    s.round g input = (s.waiting g).commit g (s.proposals g input) := rfl

theorem mem_waiting {s : State} {k : Key} :
    k ∈ (s.waiting g).active ↔ k ∈ s.active ∧ k ∉ s.due g := by
  rw [mem_due]
  simp only [waiting, Std.ExtTreeSet.mem_filter, Std.ExtTreeSet.get_eq, ne_eq, decide_not,
    Bool.not_eq_true', decide_eq_false_iff_not, exists_prop]
  tauto

theorem keys_proposals (g : Grammar) (input : Input) (s : State) :
    (s.proposals g input).map (·.key) = s.due g := by
  simp [proposals, Function.comp_def, Proposal.ofKey]

theorem nodup_keys_proposals (g : Grammar) (input : Input) (s : State) :
    ((s.proposals g input).map (·.key)).Nodup := by
  rw [keys_proposals]
  exact nodup_due s

theorem round_eq_foldl_offer (g : Grammar) (input : Input) (s : State) : s.round g input =
    (s.proposals g input).foldl (offer g) ((s.waiting g).noted (s.proposals g input)) :=
  commit_eq_foldl_offer (.of_nodup (nodup_keys_proposals g input s)) (s.waiting g)

theorem mem_proposals {s : State} {p : Proposal} :
    p ∈ s.proposals g input ↔ ∃ k ∈ s.due g, Proposal.ofKey g input s.table k = p := List.mem_map

theorem round_taken (g : Grammar) (input : Input) (s : State) :
    Taken g (s.proposals g input) ((s.waiting g).noted (s.proposals g input)) (s.round g input) :=
  commit_taken g _ _

theorem view_round_of_mem {s : State} {k : Key} (hk : k ∈ s.due g) :
    (s.round g input).table.view k = improved g s.table k (g.evaluate input s.table.view k) := by
  exact view_commit g _ (nodup_keys_proposals g input s) (s.waiting g)
    (mem_proposals.mpr ⟨k, hk, rfl⟩)

theorem view_round_of_not_mem {s : State} {k : Key} (hk : k ∉ s.due g) :
    (s.round g input).table.view k = s.table.view k := by
  rw [(round_taken g input s).untouched k, view_noted]
  · rfl
  · intro p hp heq
    obtain ⟨k', hk', rfl⟩ := mem_proposals.mp hp
    exact hk (heq ▸ hk')

theorem view_eq_none_of_round {s : State} {k : Key} (h : (s.round g input).table.view k = none) :
    s.table.view k = none := by
  have hnone := (round_taken g input s).stays k h
  rwa [view_noted] at hnone

theorem rounds_round (s : State) : (s.round g input).rounds = s.rounds + 1 :=
  (round_taken g input s).rounds

theorem advance_of_converged {s : State} (h : s.converged = true) (limit : Nat) :
    s.advance g input limit = s := by
  cases limit with
  | zero => rfl
  | succ limit => rw [advance, if_pos h]

theorem advance_succ {s : State} (h : s.converged = false) (limit : Nat) :
    s.advance g input (limit + 1) = (s.round g input).advance g input limit := by
  rw [advance, if_neg (by simp [h])]

theorem advance_add (s : State) (m n : Nat) :
    s.advance g input (m + n) = (s.advance g input m).advance g input n := by
  induction m generalizing s with
  | zero => rw [Nat.zero_add, advance]
  | succ m ih =>
      cases hs : s.converged with
      | true => simp only [advance_of_converged hs]
      | false => rw [Nat.add_right_comm, advance_succ hs, advance_succ hs, ih]

theorem advance_invariant {P : State → Prop} (hround : ∀ s, P s → s.converged = false →
    P (s.round g input)) {s : State} (hs : P s) (limit : Nat) : P (s.advance g input limit) := by
  induction limit generalizing s with
  | zero => exact hs
  | succ limit ih =>
      cases hc : s.converged with
      | true => rwa [advance_of_converged hc]
      | false =>
          rw [advance_succ hc]
          exact ih (hround s hs hc)

theorem advance_rounds (g : Grammar) (input : Input) (s : State) (limit : Nat) :
    ∃ n, (s.advance g input limit).rounds = s.rounds + n ∧
      s.advance g input limit = s.advance g input n ∧
      ∀ j < n, (s.advance g input j).converged = false := by
  induction limit generalizing s with
  | zero => exact ⟨0, rfl, rfl, by simp⟩
  | succ limit ih =>
      cases hc : s.converged with
      | true =>
          rw [advance_of_converged hc]
          exact ⟨0, rfl, rfl, by simp⟩
      | false =>
          obtain ⟨n, hrounds, heq, hbefore⟩ := ih (s.round g input)
          rw [advance_succ hc]
          refine ⟨n + 1, ?_, ?_, ?_⟩
          · rw [hrounds, rounds_round]
            omega
          · rw [heq, advance_succ hc]
          · intro j hj
            cases j with
            | zero => exact hc
            | succ j =>
                rw [advance_succ hc]
                exact hbefore j (by omega)

theorem settle?_eq_some_iff {s s' : State} :
    s.settle? g input = some s' ↔
      ∃ limit, s.advance g input limit = s' ∧ s'.converged = true := by
  constructor
  · refine settle?.partial_correctness g input
      (fun s s' => ∃ limit, s.advance g input limit = s' ∧ s'.converged = true) ?_ s s'
    intro settle ih s s' h
    split at h
    · rename_i hc
      cases h
      exact ⟨0, rfl, hc⟩
    · rename_i hc
      obtain ⟨limit, heq, hc'⟩ := ih _ _ h
      exact ⟨limit + 1, by rw [advance_succ (by simpa using hc), heq], hc'⟩
  · rintro ⟨limit, rfl, hc'⟩
    induction limit generalizing s with
    | zero =>
        rw [advance] at hc' ⊢
        rw [settle?, if_pos hc']
    | succ limit ih =>
        cases hc : s.converged with
        | true =>
            rw [settle?, if_pos hc, advance_of_converged hc]
        | false =>
            rw [advance_succ hc] at hc' ⊢
            rw [settle?, if_neg (by simp [hc])]
            exact ih hc'

def seeded (g : Grammar) (input : Input) : State :=
  match g.lexical with
  | none => empty.activate (seeds g input (g.lex input).cuts)
  | some _ =>
      (empty.activate (seeds g input (g.lex input).cuts)).record
        (.lexed input.size (g.lex input).lexemes.length)

theorem initial_eq (g : Grammar) (input : Input) :
    initial g input = (seeded g input).commit g (lexemeProposals g (g.lex input).lexemes) := by
  unfold initial seeded
  cases g.lexical <;> rfl

theorem table_seeded (g : Grammar) (input : Input) : (seeded g input).table = ∅ := by
  rw [seeded]
  split <;> rfl

theorem entry_seeded (g : Grammar) (input : Input) (k : Key) :
    (seeded g input).table.entry k = Entry.empty := by
  rw [table_seeded]
  exact Std.ExtTreeMap.getD_empty

theorem view_seeded (g : Grammar) (input : Input) (k : Key) :
    (seeded g input).table.view k = none := by
  rw [Table.view, entry_seeded]
  rfl

theorem mem_active_seeded {k : Key} :
    k ∈ (seeded g input).active ↔ k ∈ seeds g input (g.lex input).cuts := by
  have hactivate : k ∈ (empty.activate (seeds g input (g.lex input).cuts)).active ↔
      k ∈ seeds g input (g.lex input).cuts := by
    simp [activate, empty]
  rw [seeded]
  split
  · exact hactivate
  · exact hactivate

theorem rounds_initial (g : Grammar) (input : Input) : (initial g input).rounds = 0 := by
  rw [initial_eq, (commit_taken g _ _).rounds]
  change (seeded g input).rounds = 0
  rw [seeded]
  split <;> rfl

theorem view_initial {k : Key} {m : Match} (h : (initial g input).table.view k = some m) :
    m ∈ Match.descendantsAll (g.lex input).lexemes ∧ m.key = k := by
  rw [initial_eq] at h
  rcases (commit_taken g _ _).best k m h with h | ⟨p, hp, hkey, hfound⟩
  · rw [view_noted, view_seeded] at h
    cases h
  · obtain ⟨n, hn, rfl⟩ := List.mem_map.mp hp
    cases hfound
    exact ⟨(List.mem_filter.mp hn).1, hkey⟩

theorem readers_initial (g : Grammar) (input : Input) (k x : Key) :
    x ∉ ((initial g input).table.entry k).readers := by
  rw [initial_eq, (commit_taken g _ _).readers, mem_readers_noted, entry_seeded]
  rintro (⟨p, hp, hread, _⟩ | hx)
  · obtain ⟨m, _, rfl⟩ := List.mem_map.mp hp
    cases hread
  · exact Std.ExtTreeSet.not_mem_empty hx

end State

namespace Parse

variable {g : Grammar} {input : Input}

theorem grammar_ofString (g : Grammar) (input : String) (limit : Option Nat) :
    (ofString g input limit).grammar = g := by
  cases limit <;> rfl

theorem input_ofString (g : Grammar) (input : String) (limit : Option Nat) :
    (ofString g input limit).input = Input.ofString input := by
  cases limit <;> rfl

theorem state_run (g : Grammar) (input : Input) (n : Nat) :
    (run g input n).state = (run g input (run g input n).state.rounds).state ∧
      ∀ j < (run g input n).state.rounds, (run g input j).state.converged = false := by
  obtain ⟨m, hrounds, heq, hbefore⟩ := State.advance_rounds g input (State.initial g input) n
  rw [State.rounds_initial, Nat.zero_add] at hrounds
  simp only [run, hrounds]
  exact ⟨heq, hbefore⟩

theorem state_ofString (g : Grammar) (input : String) (limit : Option Nat) :
    (ofString g input limit).state =
        (run g (Input.ofString input) (ofString g input limit).state.rounds).state ∧
      ∀ j < (ofString g input limit).state.rounds,
        (run g (Input.ofString input) j).state.converged = false := by
  cases limit with
  | some n => exact state_run g (Input.ofString input) n
  | none =>
      simp only [ofString, unbounded]
      cases hs : (State.initial g (Input.ofString input)).settle? g (Input.ofString input) with
      | none => exact state_run g (Input.ofString input) 0
      | some s =>
          obtain ⟨n, rfl, _⟩ := State.settle?_eq_some_iff.mp hs
          exact state_run g (Input.ofString input) n

theorem ofString_eq_run_of_converged {input : String} {n : Nat}
    (h : (run g (Input.ofString input) n).converged = true) :
    ofString g input none = run g (Input.ofString input) n := by
  have hsettle := State.settle?_eq_some_iff.mpr ⟨n, rfl, h⟩
  simp only [ofString, unbounded, run]
  rw [hsettle]
  rfl

end Parse

end BottomUpPeg
