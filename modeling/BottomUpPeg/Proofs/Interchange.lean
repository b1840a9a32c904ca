import BottomUpPeg.Proofs.Rounds
import BottomUpPeg.Sample.Grammars

namespace BottomUpPeg

theorem Table.ext_entries {t t' : Table} (hmem : ∀ k, k ∈ t ↔ k ∈ t')
    (hview : ∀ k, t.view k = t'.view k)
    (hreaders : ∀ k x, x ∈ (t.entry k).readers ↔ x ∈ (t'.entry k).readers) : t = t' := by
  have hentry : ∀ k, t.entry k = t'.entry k := by
    intro k
    have hbest : (t.entry k).best = (t'.entry k).best := hview k
    have hset : (t.entry k).readers = (t'.entry k).readers :=
      Std.ExtTreeSet.ext_mem (hreaders k)
    cases hk : t.entry k
    cases hk' : t'.entry k
    simp_all
  apply Std.ExtTreeMap.ext_getElem?
  intro k
  have hgetD := hentry k
  have hsome : t[k]?.isSome ↔ t'[k]?.isSome := by
    rw [← Std.ExtTreeMap.mem_iff_isSome_getElem?, ← Std.ExtTreeMap.mem_iff_isSome_getElem?]
    exact hmem k
  simp only [Table.entry, Std.ExtTreeMap.getD_eq_getD_getElem?] at hgetD
  cases ht : t[k]? with
  | none =>
      rw [ht] at hsome
      exact (Option.not_isSome_iff_eq_none.mp fun h => absurd (hsome.mpr h) (by simp)).symm
  | some e =>
      obtain ⟨e', he'⟩ := Option.isSome_iff_exists.mp (hsome.mp (by rw [ht]; rfl))
      rw [ht, he'] at hgetD
      rw [he']
      exact congrArg some hgetD

def Proposal.event? (g : Grammar) (t : Table) (p : Proposal) : Option Event :=
  match p.found with
  | none => none
  | some m => if t.improvedBy g p.key m then some (.kept p.key m.length) else none

namespace State

variable {g : Grammar} {input : Input}

theorem event?_congr {t t' : Table} {p : Proposal} (h : t.view p.key = t'.view p.key) :
    p.event? g t = p.event? g t' := by
  rw [Proposal.event?, Proposal.event?]
  split
  · rfl
  · rw [Table.improvedBy_congr h]

theorem offer_event? (g : Grammar) (s : State) (p : Proposal) :
    (offer g s p).installed = s.installed + (p.event? g s.table).toList.length ∧
      (offer g s p).events = (p.event? g s.table).toList ++ s.events ∧
      (∀ x, x ∈ (offer g s p).active ↔
        x ∈ s.active ∨ (p.event? g s.table).isSome ∧ x ∈ dependents g s.table p.key) ∧
      ∀ k, k ∈ (offer g s p).table ↔ k ∈ s.table ∨ p.found.isSome ∧ p.key = k := by
  rcases offer_cases g s p with ⟨heq, hnot⟩ | ⟨m, hfound, himproved, heq⟩
  · have hnone : p.event? g s.table = none := by
      rw [Proposal.event?]
      split
      · rfl
      · rename_i m hfound
        rw [hnot m hfound]
        rfl
    rw [heq, hnone]
    refine ⟨rfl, rfl, by simp, fun k => ⟨.inl, ?_⟩⟩
    -- A match that does not improve on its entry finds a match kept there.
    rintro (hk | ⟨hsome, rfl⟩)
    · exact hk
    · obtain ⟨m, hfound⟩ := Option.isSome_iff_exists.mp hsome
      cases hview : s.table.view p.key with
      | none =>
          have himproved := Table.improvedBy_of_view_none (g := g) hview m
          rw [hnot m hfound] at himproved
          cases himproved
      | some old => exact Table.mem_of_view hview
  · have hsome : p.event? g s.table = some (.kept p.key m.length) := by
      simp [Proposal.event?, hfound, himproved]
    rw [heq, hsome]
    refine ⟨rfl, rfl, fun x => ?_, fun k => ?_⟩
    · simp only [Std.ExtTreeSet.mem_insertMany_list, List.contains_iff_mem, Option.isSome_some,
        true_and]
    · simp only [Table.keep, Table.mem_insert_iff, hfound, Option.isSome_some, true_and]
      exact or_comm

/-- What taking up proposals for different keys leaves behind, read off the proposals without their
order. -/
theorem foldl_offer_event? (ps : List Proposal) (hnodup : (ps.map (·.key)).Nodup) (s : State) :
    (ps.foldl (offer g) s).installed =
        s.installed + (ps.filterMap (Proposal.event? g s.table)).length ∧
      (ps.foldl (offer g) s).events =
        (ps.filterMap (Proposal.event? g s.table)).reverse ++ s.events ∧
      (∀ x, x ∈ (ps.foldl (offer g) s).active ↔ x ∈ s.active ∨
        ∃ p ∈ ps, (p.event? g s.table).isSome ∧ x ∈ dependents g s.table p.key) ∧
      ∀ k, k ∈ (ps.foldl (offer g) s).table ↔ k ∈ s.table ∨
        ∃ p ∈ ps, p.found.isSome ∧ p.key = k := by
  induction ps generalizing s with
  | nil => simp
  | cons p ps ih =>
      obtain ⟨hp, hnodup⟩ := List.nodup_cons.mp hnodup
      have htaken := Taken.offer (g := g) s p
      have hsame : ∀ q ∈ ps, q.event? g (offer g s p).table = q.event? g s.table := by
        intro q hq
        apply event?_congr
        apply htaken.untouched
        rintro r hr heq
        rw [List.mem_singleton.mp hr] at heq
        exact hp (List.mem_map.mpr ⟨q, hq, heq.symm⟩)
      have hdependents : ∀ k, dependents g (offer g s p).table k = dependents g s.table k :=
        fun k => dependents_congr (htaken.readers k)
      have hevents : ps.filterMap (Proposal.event? g (offer g s p).table) =
          ps.filterMap (Proposal.event? g s.table) := List.filterMap_congr hsame
      obtain ⟨hinstalled, hlog, hactive, hmem⟩ := ih hnodup (offer g s p)
      obtain ⟨hinstalled', hlog', hactive', hmem'⟩ := offer_event? g s p
      have hcons : (p :: ps).filterMap (Proposal.event? g s.table) =
          (p.event? g s.table).toList ++ ps.filterMap (Proposal.event? g s.table) := by
        cases hevent : p.event? g s.table with
        | none => simp [hevent]
        | some e => simp [hevent]
      rw [List.foldl_cons, hcons]
      refine ⟨?_, ?_, fun x => ?_, fun k => ?_⟩
      · rw [hinstalled, hinstalled', hevents, List.length_append, Nat.add_assoc]
      · have hreverse : (p.event? g s.table).toList.reverse = (p.event? g s.table).toList := by
          cases p.event? g s.table <;> rfl
        rw [hlog, hlog', hevents, List.reverse_append, hreverse, List.append_assoc]
      · rw [hactive, hactive', List.exists_mem_cons_iff, or_assoc]
        refine or_congr_right (or_congr_right ?_)
        refine exists_congr fun q => and_congr_right fun hq => ?_
        rw [hsame q hq, hdependents]
      · rw [hmem, hmem', List.exists_mem_cons_iff, or_assoc]

theorem noted_perm {ps qs : List Proposal} (h : ps.Perm qs) (s : State) :
    s.noted ps = s.noted qs := by
  have htable : (s.noted ps).table = (s.noted qs).table := by
    apply Table.ext_entries
    · intro k
      simp only [mem_noted, h.mem_iff]
    · intro k
      rw [view_noted, view_noted]
    · intro k x
      simp only [mem_readers_noted, h.mem_iff]
  simp only [noted] at htable ⊢
  rw [htable]

theorem commit_perm {ps qs : List Proposal} (h : ps.Perm qs) (hnodup : (ps.map (·.key)).Nodup)
    (s : State) :
    (s.commit g ps).table = (s.commit g qs).table ∧
      (s.commit g ps).active = (s.commit g qs).active ∧
      (s.commit g ps).installed = (s.commit g qs).installed ∧
      (s.commit g ps).events.Perm (s.commit g qs).events := by
  have hnodup' : (qs.map (·.key)).Nodup := (h.map _).nodup_iff.mp hnodup
  have hnoted := noted_perm h s
  obtain ⟨hinstalled, hlog, hactive, hmem⟩ := foldl_offer_event? (g := g) ps hnodup (s.noted ps)
  obtain ⟨hinstalled', hlog', hactive', hmem'⟩ :=
    foldl_offer_event? (g := g) qs hnodup' (s.noted qs)
  rw [← commit_eq_foldl_offer (.of_nodup hnodup)] at hinstalled hlog hactive hmem
  rw [← commit_eq_foldl_offer (.of_nodup hnodup'), ← hnoted] at hinstalled' hlog' hactive' hmem'
  have hevents := h.filterMap (Proposal.event? g (s.noted ps).table)
  refine ⟨?_, ?_, ?_, ?_⟩
  · apply Table.ext_entries
    · intro k
      rw [hmem, hmem']
      simp only [h.mem_iff]
    · intro k
      by_cases hk : ∃ p ∈ ps, p.key = k
      · obtain ⟨p, hp, rfl⟩ := hk
        rw [view_commit g ps hnodup s hp, view_commit g qs hnodup' s (h.mem_iff.mp hp)]
      · push Not at hk
        rw [(commit_taken g ps s).untouched k hk, view_noted,
          (commit_taken g qs s).untouched k fun q hq => hk q (h.mem_iff.mpr hq), view_noted]
    · intro k x
      rw [(commit_taken g ps s).readers, (commit_taken g qs s).readers, hnoted]
  · apply Std.ExtTreeSet.ext_mem
    intro x
    rw [hactive, hactive']
    simp only [h.mem_iff]
  · rw [hinstalled, hinstalled', hevents.length_eq]
  · rw [hlog, hlog']
    exact ((List.reverse_perm _).trans (hevents.trans (List.reverse_perm _).symm)).append_right _

theorem order_of_evaluation_is_immaterial (g : Grammar) (input : Input) (s : State) {keys : List Key}
    (h : keys.Perm (s.due g)) :
    let other := (s.waiting g).commit g (keys.map (Proposal.ofKey g input s.table))
    other.table = (s.round g input).table ∧ other.active = (s.round g input).active ∧
      other.installed = (s.round g input).installed ∧
      other.events.Perm (s.round g input).events := by
  have hkeys : ((keys.map (Proposal.ofKey g input s.table)).map (·.key)).Nodup := by
    have hmap : (keys.map (Proposal.ofKey g input s.table)).map (·.key) = keys := by
      simp [Function.comp_def, Proposal.ofKey]
    rw [hmap]
    exact h.nodup_iff.mpr (nodup_due s)
  rw [round_eq]
  exact commit_perm (h.map _) hkeys (s.waiting g)

theorem sums_evaluated_backwards :
    ∃ g s, Sample.arithmetic.compile = .ok g ∧ s = (Parse.run g (Input.ofString "1+2") 1).state ∧
      (s.due g).reverse ≠ s.due g ∧ (s.round g (Input.ofString "1+2")).installed ≠ s.installed ∧
      let other := (s.waiting g).commit g
        ((s.due g).reverse.map (Proposal.ofKey g (Input.ofString "1+2") s.table))
      other.table = (s.round g (Input.ofString "1+2")).table ∧
        other.active = (s.round g (Input.ofString "1+2")).active ∧
        other.installed = (s.round g (Input.ofString "1+2")).installed ∧
        other.events.Perm (s.round g (Input.ofString "1+2")).events := by
  have hrun : (Sample.arithmetic.compile.toOption.any fun g =>
      decide (((Parse.run g (Input.ofString "1+2") 1).state.due g).reverse ≠
        (Parse.run g (Input.ofString "1+2") 1).state.due g) &&
      decide (((Parse.run g (Input.ofString "1+2") 1).state.round g (Input.ofString "1+2")).installed ≠
        (Parse.run g (Input.ofString "1+2") 1).state.installed)) = true := by
    decide +kernel
  cases hg : Sample.arithmetic.compile with
  | error e => simp [hg, Except.toOption] at hrun
  | ok g =>
      simp only [hg, Except.toOption, Option.any_some, Bool.and_eq_true, decide_eq_true_eq] at hrun
      refine ⟨g, _, rfl, rfl, hrun.1, hrun.2, ?_⟩
      exact order_of_evaluation_is_immaterial g _ _ (List.reverse_perm _)

end State

end BottomUpPeg
