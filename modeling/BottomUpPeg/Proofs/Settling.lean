import BottomUpPeg.Proofs.Descent
import BottomUpPeg.Proofs.Ranking
import BottomUpPeg.Proofs.Rounds

namespace BottomUpPeg

namespace Look

variable {look look' : Look} {reads : Nat → Nat → List Key} {A : Key → Prop}

theorem chainReads_congr (hlook : ∀ c p, (∀ r ∈ reads c p, A r) → look c p = look' c p)
    {slots : List Slot} {pos : Nat} (h : ∀ r ∈ look.chainReads reads slots pos, A r) :
    look.chain slots pos = look'.chain slots pos ∧
      look.chainReads reads slots pos = look'.chainReads reads slots pos := by
  induction slots generalizing pos with
  | nil => exact ⟨rfl, rfl⟩
  | cons s slots ih =>
      rw [chainReads, List.forall_mem_append] at h
      have hhead := hlook s.clause pos h.1
      have htail := h.2
      rw [chain, chain, chainReads, chainReads, ← hhead]
      cases hm : look s.clause pos with
      | none => exact ⟨rfl, rfl⟩
      | some m =>
          simp only [hm] at htail ⊢
          obtain ⟨hchain, hreads⟩ := ih htail
          rw [hchain, hreads]
          exact ⟨rfl, rfl⟩

theorem firstReads_congr (hlook : ∀ c p, (∀ r ∈ reads c p, A r) → look c p = look' c p)
    {slots : List Slot} {pos : Nat} (h : ∀ r ∈ look.firstReads reads pos slots, A r) (i : Nat) :
    look.first pos i slots = look'.first pos i slots ∧
      look.firstReads reads pos slots = look'.firstReads reads pos slots := by
  induction slots generalizing i with
  | nil => exact ⟨rfl, rfl⟩
  | cons s slots ih =>
      rw [firstReads, List.forall_mem_append] at h
      have hhead := hlook s.clause pos h.1
      have htail := h.2
      rw [first, first, firstReads, firstReads, ← hhead]
      cases hm : look s.clause pos with
      | some m => exact ⟨rfl, rfl⟩
      | none =>
          simp only [hm] at htail ⊢
          obtain ⟨hfirst, hreads⟩ := ih htail (i + 1)
          rw [hfirst, hreads]
          exact ⟨rfl, rfl⟩

theorem repeatedReads_congr (hlook : ∀ c p, (∀ r ∈ reads c p, A r) → look c p = look' c p)
    {c : Nat} {slot : Slot} {pos : Nat} (h : ∀ r ∈ look.repeatedReads reads c slot pos, A r) :
    look.repeated (look c) c slot pos = look'.repeated (look' c) c slot pos ∧
      look.repeatedReads reads c slot pos = look'.repeatedReads reads c slot pos := by
  rw [repeatedReads, List.forall_mem_append] at h
  have hhead := hlook slot.clause pos h.1
  have htail := h.2
  constructor
  · refine repeated_congr hhead (fun head hm hlength => hlook c head.stop ?_) c
    rw [hhead, hm] at htail
    simpa only [Nat.ne_of_gt hlength, if_false] using htail
  · rw [repeatedReads, repeatedReads, ← hhead]

end Look

theorem Shape.stepReads_congr {look look' : Look} {reads : Nat → Nat → List Key} {A : Key → Prop}
    (hlook : ∀ c p, (∀ r ∈ reads c p, A r) → look c p = look' c p) (input : Input) {s : Shape}
    {c pos : Nat} (h : ∀ r ∈ s.stepReads look reads c pos, A r) :
    s.step input look (look c) c pos = s.step input look' (look' c) c pos ∧
      s.stepReads look reads c pos = s.stepReads look' reads c pos := by
  cases s with
  | terminal t => exact ⟨rfl, rfl⟩
  | group kind slots =>
      cases kind with
      | seq =>
          obtain ⟨hchain, hreads⟩ := Look.chainReads_congr hlook h
          exact ⟨by rw [step, step, hchain], hreads⟩
      | first =>
          obtain ⟨hfirst, hreads⟩ := Look.firstReads_congr hlook h 0
          exact ⟨by rw [step, step, hfirst], hreads⟩
      | longest =>
          have hslots : ∀ s ∈ slots, look s.clause pos = look' s.clause pos := fun s hs =>
            hlook _ _ fun r hr => h r (List.mem_flatMap.mpr ⟨s, hs, hr⟩)
          exact ⟨by rw [step, step, Look.longest_congr hslots], rfl⟩
  | unary kind slot =>
      cases kind with
      | oneOrMore => exact Look.repeatedReads_congr hlook h
      | followedBy => exact ⟨by rw [step, step, hlook slot.clause pos h], rfl⟩
      | notFollowedBy => exact ⟨by rw [step, step, hlook slot.clause pos h], rfl⟩

namespace Grammar

variable {g : Grammar} {input : Input}

theorem lookupWithin_congr_of_reads {view view' : View} (fuel c pos : Nat)
    (h : ∀ r ∈ g.lookupReadsWithin fuel c pos, view r = view' r) :
    g.lookupWithin input view fuel c pos = g.lookupWithin input view' fuel c pos := by
  induction fuel generalizing c with
  | zero => rfl
  | succ fuel ih =>
      rw [lookupReadsWithin] at h
      rw [lookupWithin, lookupWithin]
      split
      · rfl
      · rename_i slot hshape
        simp only [hshape] at h
        cases hacyclic : (g.clause slot.clause).acyclic with
        | true => rfl
        | false =>
            simp only [hacyclic, Bool.false_eq_true, if_false] at h ⊢
            rw [ih slot.clause h]
      · rename_i hterminal hnegative
        have hread : ∀ r ∈ [(⟨c, pos⟩ : Key)], view r = view' r := by
          split at h
          · rename_i t hshape
            exact absurd hshape (hterminal t)
          · rename_i slot hshape
            exact absurd hshape (hnegative slot)
          · exact h
        rw [hread _ (List.mem_singleton_self _)]

theorem evaluate_congr_of_reads {view view' : View} {k : Key}
    (h : ∀ r ∈ g.evaluateReads input view k, view r = view' r) :
    g.evaluate input view k = g.evaluate input view' k ∧
      g.evaluateReads input view k = g.evaluateReads input view' k :=
  Shape.stepReads_congr (fun c p => lookupWithin_congr_of_reads g.size c p) input h

end Grammar

namespace State

variable {g : Grammar} {input : Input}

/-- Evaluating the key again would change nothing, and no change to what it reads goes unnoticed. -/
structure Settled (g : Grammar) (input : Input) (s : State) (k : Key) : Prop where
  reads : ∀ r ∈ g.evaluateReads input s.table.view k, k ∈ (s.table.entry r).readers
  best : ∀ m, g.evaluate input s.table.view k = some m → s.table.improvedBy g k m = false

theorem Settled.exists_kept {s : State} {k : Key} (h : s.Settled g input k) {m : Match}
    (hm : g.evaluate input s.table.view k = some m) :
    ∃ kept, s.table.view k = some kept ∧ m.isBetter g kept = false := by
  have hbest := h.best m hm
  cases hview : s.table.view k with
  | none =>
      rw [Table.improvedBy_of_view_none hview] at hbest
      cases hbest
  | some kept =>
      rw [Table.improvedBy_of_view hview] at hbest
      exact ⟨kept, rfl, hbest⟩

theorem improvedBy_round_of_mem {s : State} {k : Key} (hk : k ∈ s.due g) {m : Match}
    (h : g.evaluate input s.table.view k = some m) :
    (s.round g input).table.improvedBy g k m = false := by
  have hview : (s.round g input).table.view k =
      improved g s.table k (g.evaluate input s.table.view k) := view_round_of_mem hk
  rw [h, improved] at hview
  split at hview
  · rw [Table.improvedBy_of_view hview]
    exact Match.not_isBetter_self g m
  · rename_i hnot
    rw [Table.improvedBy_congr hview]
    simpa using hnot

theorem Settled.round {s : State} {k : Key} (h : k ∈ s.active ∨ s.Settled g input k) :
    k ∈ (s.round g input).active ∨ (s.round g input).Settled g input k := by
  have htaken := round_taken g input s
  by_cases hwaits : k ∈ s.active ∧ k ∉ s.due g
  · exact .inl (htaken.activeKept k (mem_waiting.mpr hwaits))
  have hcases : k ∈ s.due g ∨ k ∉ s.due g ∧ s.Settled g input k := by tauto
  have hnoted : ∀ r ∈ g.evaluateReads input s.table.view k,
      k ∈ (((s.waiting g).noted (s.proposals g input)).table.entry r).readers := by
    intro r hr
    rw [mem_readers_noted]
    rcases hcases with hdue | ⟨_, hsettled⟩
    · exact .inl ⟨_, mem_proposals.mpr ⟨k, hdue, rfl⟩, hr, rfl⟩
    · exact .inr (hsettled.reads r hr)
  by_cases hchanged : ∀ r ∈ g.evaluateReads input s.table.view k,
      s.table.view r = (s.round g input).table.view r
  · obtain ⟨hevaluate, hreads⟩ := Grammar.evaluate_congr_of_reads hchanged
    refine .inr ⟨fun r hr => ?_, fun m hm => ?_⟩
    · rw [htaken.readers]
      exact hnoted r (hreads ▸ hr)
    · rw [← hevaluate] at hm
      rcases hcases with hdue | ⟨hdue, hsettled⟩
      · exact improvedBy_round_of_mem hdue hm
      · rw [Table.improvedBy_congr (view_round_of_not_mem hdue)]
        exact hsettled.best m hm
  · -- The key is a reader of the entry that changed, also if it read it in this very round.
    push Not at hchanged
    obtain ⟨r, hr, hne⟩ := hchanged
    left
    apply htaken.activated r
    · rw [view_noted]
      exact hne.symm
    · exact mem_dependents.mpr (.inl (hnoted r hr))

end State

namespace Parse

variable {g : Grammar} {input : Input}

theorem state_run_succ_of_running {g : Grammar} {input : Input} {n : Nat}
    (h : (run g input n).state.converged = false) :
    (run g input (n + 1)).state = (run g input n).state.round g input := by
  have hadd : (run g input (n + 1)).state = (run g input n).state.advance g input 1 :=
    State.advance_add _ n 1
  rw [hadd, State.advance_succ h]
  rfl

theorem state_run_succ (g : Grammar) (input : Input) (n : Nat) :
    (run g input (n + 1)).state = (run g input n).state ∨
      (run g input (n + 1)).state = (run g input n).state.round g input := by
  cases hc : (run g input n).state.converged with
  | true => exact .inl ((State.advance_add _ n 1).trans (State.advance_of_converged hc 1))
  | false => exact .inr (state_run_succ_of_running hc)

theorem view_ne_none_mono {n n' : Nat} {k : Key} (hle : n ≤ n')
    (h : (run g input n).table.view k ≠ none) : (run g input n').table.view k ≠ none := by
  induction n', hle using Nat.le_induction with
  | base => exact h
  | succ n' _ ih =>
      intro hnone
      rcases state_run_succ g input n' with heq | heq
      · rw [table, heq] at hnone
        exact ih hnone
      · rw [table, heq] at hnone
        exact ih (State.view_eq_none_of_round hnone)

def EverActive (g : Grammar) (input : Input) (n : Nat) (k : Key) : Prop :=
  ∃ i ≤ n, k ∈ (run g input i).state.active

theorem EverActive.settled {n : Nat} {k : Key} (h : EverActive g input n k) :
    k ∈ (run g input n).state.active ∨ (run g input n).state.Settled g input k := by
  obtain ⟨i, hi, hk⟩ := h
  induction n, hi using Nat.le_induction with
  | base => exact .inl hk
  | succ n _ ih =>
      rcases state_run_succ g input n with heq | heq
      · rwa [heq]
      · rw [heq]
        exact State.Settled.round ih

theorem EverActive.settled_of_converged {n : Nat} {k : Key} (h : EverActive g input n k)
    (hc : (run g input n).state.converged = true) : (run g input n).state.Settled g input k :=
  h.settled.resolve_left (State.not_mem_active_of_converged hc k)

theorem EverActive.mono {n n' : Nat} {k : Key} (h : EverActive g input n k) (hle : n ≤ n') :
    EverActive g input n' k := by
  obtain ⟨i, hi, hk⟩ := h
  exact ⟨i, hi.trans hle, hk⟩

theorem everActive_of_seedParent {n : Nat} {k : Key} {c : Nat}
    (hk : (run g input n).table.view k ≠ none) (hc : c ∈ (g.clause k.clause).seedParents) :
    EverActive g input n ⟨c, k.start⟩ := by
  have hdep : ∀ t : Table, (⟨c, k.start⟩ : Key) ∈ State.dependents g t k := fun t =>
    State.mem_dependents.mpr (.inr ⟨c, hc, rfl⟩)
  induction n with
  | zero =>
      refine ⟨0, Nat.le_refl 0, ?_⟩
      change (State.initial g input).table.view k ≠ none at hk
      change _ ∈ (State.initial g input).active
      rw [State.initial_eq] at hk ⊢
      apply (State.commit_taken g _ _).activated k _ _ (hdep _)
      rwa [State.view_noted, State.view_seeded]
  | succ n ih =>
      by_cases hbefore : (run g input n).table.view k = none
      · refine ⟨n + 1, Nat.le_refl _, ?_⟩
        rcases state_run_succ g input n with heq | heq
        · rw [table, heq] at hk
          exact absurd hbefore hk
        · rw [table, heq] at hk
          rw [heq]
          apply (State.round_taken g input _).activated k _ _ (hdep _)
          rw [State.view_noted]
          exact fun hsame => hk (hsame.trans hbefore)
      · exact (ih hbefore).mono (Nat.le_succ n)

theorem everActive_of_seed {n pos i c : Nat} (hi : Grammar.isSeed (g.clause i) = true)
    (hlt : i < g.size) (hpos : pos ∈ (g.lex input).cuts)
    (hfound : g.lookup input (fun _ => none) i pos ≠ none)
    (hc : c ∈ (g.clause i).seedParents) : EverActive g input n ⟨c, pos⟩ := by
  refine ⟨0, Nat.zero_le n, ?_⟩
  change _ ∈ (State.initial g input).active
  rw [State.initial_eq]
  apply (State.commit_taken g _ _).activeKept
  apply State.mem_active_seeded.mpr
  simp only [State.seeds, Grammar.seedClauses, List.mem_flatMap, List.mem_filter, List.mem_range]
  refine ⟨i, ⟨hlt, hi⟩, pos, hpos, ?_⟩
  obtain ⟨m, hm⟩ := Option.ne_none_iff_exists'.mp hfound
  rw [hm]
  exact List.mem_map.mpr ⟨c, hc, rfl⟩

end Parse

end BottomUpPeg
