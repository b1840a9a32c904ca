import BottomUpPeg.Proofs.Commit
import BottomUpPeg.Proofs.Ranking

namespace BottomUpPeg

namespace Queues

theorem pending_insert (queues : Queues) (k k' : Key) (ms : List Match) :
    pending (queues.insert k ms) k' = if k = k' then ms else queues.pending k' := by
  simp only [pending, Std.ExtTreeMap.getD_insert, Std.LawfulEqCmp.compare_eq_iff_eq]

theorem mem_pending_push {queues : Queues} {p : Proposal} {k : Key} {m : Match} :
    m ∈ (queues.push p).pending k ↔ m ∈ queues.pending k ∨ p.key = k ∧ p.found = some m := by
  rw [push]
  split
  · rename_i hfound
    simp [hfound]
  · rename_i n hfound
    rw [pending_insert, hfound]
    split
    · rename_i hkey
      subst hkey
      simp [eq_comm]
    · rename_i hkey
      simp [hkey]

theorem mem_pending_ofProposals {ps : List Proposal} {k : Key} {m : Match} :
    m ∈ (ofProposals ps).pending k ↔ ∃ p ∈ ps, p.key = k ∧ p.found = some m := by
  have hall : ∀ queues : Queues, m ∈ (ps.foldl push queues).pending k ↔
      m ∈ queues.pending k ∨ ∃ p ∈ ps, p.key = k ∧ p.found = some m := by
    intro queues
    induction ps generalizing queues with
    | nil => simp
    | cons p ps ih => rw [List.foldl_cons, ih, mem_pending_push, List.exists_mem_cons_iff, or_assoc]
  have hempty : pending (∅ : Queues) k = [] := Std.ExtTreeMap.getD_empty
  rw [ofProposals, hall, hempty]
  simp

end Queues

namespace Match

variable {g : Grammar}

theorem foldl_better_mem (m : Match) (queue : List Match) :
    queue.foldl (better g) m ∈ m :: queue := by
  induction queue generalizing m with
  | nil => exact List.mem_singleton_self m
  | cons x queue ih =>
      have hbetter : better g m x = m ∨ better g m x = x := by
        rw [better]
        split
        · exact .inr rfl
        · exact .inl rfl
      rcases hbetter with heq | heq
      · rw [List.foldl_cons, heq]
        exact List.cons_subset_cons _ (List.subset_cons_self ..) (ih m)
      · rw [List.foldl_cons, heq]
        exact List.mem_cons_of_mem _ (ih x)

theorem foldl_better_self {m : Match} {queue : List Match} (h : ∀ x ∈ queue, x = m) :
    queue.foldl (better g) m = m := by
  rcases List.mem_cons.mp (foldl_better_mem (g := g) m queue) with heq | hmem
  · exact heq
  · exact h _ hmem

end Match

namespace State

variable {g : Grammar}

theorem mem_touched {ps : List Proposal} {k : Key} :
    k ∈ touched ps ↔ ∃ p ∈ ps, p.key = k ∧ ∃ m, p.found = some m := by
  simp only [touched, List.mem_map, List.mem_filter, Option.isSome_iff_exists]
  grind

def compared (g : Grammar) : List Key → Queues → List Proposal
  | [], _ => []
  | k :: touched, queues =>
      match queues.pending k with
      | [] => compared g touched queues
      | m :: queue =>
          ⟨k, some (queue.foldl (Match.better g) m), []⟩ ::
            compared g touched (queues.insert k [])

theorem drain_eq_foldl_compared (touched : List Key) (queues : Queues) (s : State) :
    drain g touched queues s = (compared g touched queues).foldl (offer g) s := by
  induction touched generalizing queues s with
  | nil => rfl
  | cons k touched ih =>
      cases hqueue : queues.pending k with
      | nil =>
          simp only [drain, compared, hqueue]
          exact ih queues s
      | cons m queue =>
          simp only [drain, compared, hqueue, List.foldl_cons]
          exact ih _ _

theorem mem_compared {touched : List Key} {queues : Queues} {p : Proposal}
    (hp : p ∈ compared g touched queues) : ∃ m ∈ queues.pending p.key, p.found = some m := by
  induction touched generalizing queues with
  | nil => cases hp
  | cons k touched ih =>
      cases hqueue : queues.pending k with
      | nil =>
          simp only [compared, hqueue] at hp
          exact ih hp
      | cons m queue =>
          simp only [compared, hqueue, List.mem_cons] at hp
          rcases hp with rfl | hp
          · exact ⟨_, hqueue ▸ Match.foldl_better_mem m queue, rfl⟩
          · obtain ⟨n, hn, hfound⟩ := ih hp
            rw [Queues.pending_insert] at hn
            split at hn
            · cases hn
            · exact ⟨n, hn, hfound⟩

theorem exists_compared {touched : List Key} {queues : Queues} {k : Key} (hk : k ∈ touched)
    (hqueue : queues.pending k ≠ []) : ∃ p ∈ compared g touched queues, p.key = k := by
  induction touched generalizing queues with
  | nil => cases hk
  | cons k' touched ih =>
      cases hqueue' : queues.pending k' with
      | nil =>
          simp only [compared, hqueue']
          rcases List.mem_cons.mp hk with rfl | hk
          · exact absurd hqueue' hqueue
          · exact ih hk hqueue
      | cons m queue =>
          simp only [compared, hqueue', List.exists_mem_cons_iff]
          by_cases heq : k' = k
          · exact .inl heq
          · refine .inr (ih ((List.mem_cons.mp hk).resolve_left (Ne.symm heq)) ?_)
            rwa [Queues.pending_insert, if_neg heq]

def bests (g : Grammar) (ps : List Proposal) : List Proposal :=
  compared g (touched ps) (Queues.ofProposals ps)

theorem commit_eq_foldl_bests (g : Grammar) (ps : List Proposal) (s : State) :
    s.commit g ps = (bests g ps).foldl (offer g) (s.noted ps) := drain_eq_foldl_compared ..

theorem mem_bests {ps : List Proposal} {p : Proposal} (hp : p ∈ bests g ps) :
    ∃ q ∈ ps, q.key = p.key ∧ q.found = p.found := by
  obtain ⟨m, hm, hfound⟩ := mem_compared hp
  obtain ⟨q, hq, hkey, hsame⟩ := Queues.mem_pending_ofProposals.mp hm
  exact ⟨q, hq, hkey, hsame.trans hfound.symm⟩

theorem exists_bests {ps : List Proposal} {p : Proposal} (hp : p ∈ ps) {m : Match}
    (hfound : p.found = some m) : ∃ q ∈ bests g ps, q.key = p.key := by
  refine exists_compared (mem_touched.mpr ⟨p, hp, rfl, m, hfound⟩) ?_
  exact List.ne_nil_of_mem (Queues.mem_pending_ofProposals.mpr ⟨p, hp, rfl, hfound⟩)

theorem commit_taken (g : Grammar) (ps : List Proposal) (s : State) :
    Taken g ps (s.noted ps) (s.commit g ps) := by
  rw [commit_eq_foldl_bests]
  exact (Taken.foldl (bests g ps) _).of_subset fun _ hp => mem_bests hp

theorem view_foldl_offer_ne_none {ps : List Proposal} {p : Proposal} (hp : p ∈ ps) {m : Match}
    (hfound : p.found = some m) (s : State) : (ps.foldl (offer g) s).table.view p.key ≠ none := by
  obtain ⟨before, after, rfl⟩ := List.append_of_mem hp
  intro hnone
  rw [List.foldl_append, List.foldl_cons] at hnone
  have hoffered := (Taken.foldl after _).stays p.key hnone
  rw [view_offer, hfound, improved] at hoffered
  split at hoffered
  · cases hoffered
  · rename_i hnot
    rw [Table.improvedBy_of_view_none hoffered] at hnot
    exact hnot rfl

theorem view_commit_ne_none {s : State} {ps : List Proposal} {p : Proposal} (hp : p ∈ ps)
    {m : Match} (hfound : p.found = some m) : (s.commit g ps).table.view p.key ≠ none := by
  obtain ⟨q, hq, hkey⟩ := exists_bests (g := g) hp hfound
  obtain ⟨n, _, hbest⟩ := mem_compared hq
  rw [commit_eq_foldl_bests, ← hkey]
  exact view_foldl_offer_ne_none hq hbest _

section Agreeing

theorem install_of_not_improved {s : State} {k : Key} {m : Match}
    (h : s.table.improvedBy g k m = false) : s.install g k m = s := by
  simp only [install, h, Bool.false_eq_true, if_false]

theorem view_install (s : State) (k k' : Key) (m : Match) : (s.install g k m).table.view k' =
    if k = k' then improved g s.table k (some m) else s.table.view k' := by
  have hoffer : s.install g k m = s.offer g ⟨k, some m, []⟩ := rfl
  split
  · rename_i hkey
    subst hkey
    exact view_offer g s ⟨k, some m, []⟩
  · rename_i hkey
    rw [hoffer]
    refine (Taken.offer s _).untouched k' fun p hp => ?_
    rwa [List.mem_singleton.mp hp]

theorem improvedBy_install (s : State) (k : Key) (m : Match) :
    (s.install g k m).table.improvedBy g k m = false := by
  cases himproved : s.table.improvedBy g k m with
  | false => rwa [install_of_not_improved himproved]
  | true =>
      have hview : (s.install g k m).table.view k = some m := by
        simp [view_install, improved, himproved]
      rw [Table.improvedBy_of_view hview, Match.not_isBetter_self]

/-- How a proposed match stands while queues are emptied: it is all that its queue holds, or it was
installed and the queue is empty. -/
inductive Queued (g : Grammar) (queues : Queues) (s : State) (k : Key) (m : Match) : Prop
  | waiting {queue : List Match} : queues.pending k = m :: queue → (∀ x ∈ queue, x = m) →
      Queued g queues s k m
  | drained : queues.pending k = [] → s.table.improvedBy g k m = false → Queued g queues s k m

theorem Queued.install {queues : Queues} {s : State} {k k' : Key} {m m' : Match}
    {queue : List Match} (hqueue : queues.pending k = m :: queue)
    (h : Queued g queues s k' m') :
    Queued g (queues.insert k []) (s.install g k m) k' m' := by
  by_cases heq : k = k'
  · subst heq
    cases h with
    | waiting hqueue' =>
        rw [hqueue, List.cons.injEq] at hqueue'
        obtain ⟨rfl, rfl⟩ := hqueue'
        exact .drained (by rw [Queues.pending_insert, if_pos rfl]) (improvedBy_install s k m)
    | drained hempty =>
        rw [hqueue] at hempty
        cases hempty
  · have hpending : Queues.pending (queues.insert k []) k' = queues.pending k' := by
      rw [Queues.pending_insert, if_neg heq]
    have hview : (s.install g k m).table.view k' = s.table.view k' := by
      rw [view_install, if_neg heq]
    cases h with
    | waiting hqueue' hsame => exact .waiting (hpending.trans hqueue') hsame
    | drained hempty himproved =>
        exact .drained (hpending.trans hempty) ((Table.improvedBy_congr hview g m').trans himproved)

theorem drain_eq_foldl_offer {ps : List Proposal} {queues : Queues} {s : State}
    (h : ∀ p ∈ ps, ∀ m, p.found = some m → Queued g queues s p.key m) :
    drain g (touched ps) queues s = ps.foldl (offer g) s := by
  induction ps generalizing queues s with
  | nil => rfl
  | cons p ps ih =>
      obtain ⟨hp, hps⟩ := List.forall_mem_cons.mp h
      cases hfound : p.found with
      | none =>
          have htouched : touched (p :: ps) = touched ps := by simp [touched, hfound]
          rw [htouched, List.foldl_cons, offer, hfound]
          exact ih hps
      | some m =>
          have htouched : touched (p :: ps) = p.key :: touched ps := by simp [touched, hfound]
          rw [htouched, List.foldl_cons, offer, hfound]
          cases hp m hfound with
          | waiting hqueue hsame =>
              simp only [drain, hqueue, Match.foldl_better_self hsame]
              exact ih fun q hq n hn => (hps q hq n hn).install hqueue
          | drained hempty himproved =>
              simp only [drain, hempty, install_of_not_improved himproved]
              exact ih hps

def Agreeing (ps : List Proposal) : Prop :=
  ∀ p ∈ ps, ∀ q ∈ ps, p.key = q.key → p.found = q.found

theorem Agreeing.of_nodup {ps : List Proposal} (h : (ps.map (·.key)).Nodup) : Agreeing ps :=
  fun _ hp _ hq hkey => congrArg Proposal.found (List.inj_on_of_nodup_map h hp hq hkey)

theorem Agreeing.queued {ps : List Proposal} (h : Agreeing ps) (s : State) {p : Proposal}
    (hp : p ∈ ps) {m : Match} (hfound : p.found = some m) :
    Queued g (Queues.ofProposals ps) s p.key m := by
  have hsame : ∀ x ∈ (Queues.ofProposals ps).pending p.key, x = m := by
    intro x hx
    obtain ⟨q, hq, hkey, hfound'⟩ := Queues.mem_pending_ofProposals.mp hx
    rw [h q hq p hp hkey, hfound] at hfound'
    exact (Option.some.inj hfound').symm
  have hmem : m ∈ (Queues.ofProposals ps).pending p.key :=
    Queues.mem_pending_ofProposals.mpr ⟨p, hp, rfl, hfound⟩
  cases hqueue : (Queues.ofProposals ps).pending p.key with
  | nil =>
      rw [hqueue] at hmem
      cases hmem
  | cons x queue =>
      rw [hqueue] at hsame
      obtain ⟨rfl, hqueue'⟩ := List.forall_mem_cons.mp hsame
      exact .waiting hqueue hqueue'

theorem commit_eq_foldl_offer {ps : List Proposal} (h : Agreeing ps) (s : State) :
    s.commit g ps = ps.foldl (offer g) (s.noted ps) :=
  drain_eq_foldl_offer fun _ hp _ hfound => h.queued _ hp hfound

theorem view_commit (g : Grammar) (ps : List Proposal) (hnodup : (ps.map (·.key)).Nodup)
    (s : State) {p : Proposal} (hp : p ∈ ps) :
    (s.commit g ps).table.view p.key = improved g s.table p.key p.found := by
  rw [commit_eq_foldl_offer (.of_nodup hnodup)]
  exact (view_foldl_offer g ps hnodup (s.noted ps) hp).trans
    (improved_congr (congrFun (view_noted ps s) p.key) p.found)

end Agreeing

end State

end BottomUpPeg
