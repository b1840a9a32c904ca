import BottomUpPeg.Parse.Round
import Mathlib.Data.List.Nodup

namespace BottomUpPeg

namespace Table

@[simp] theorem entry_insert (t : Table) (k k' : Key) (e : Entry) :
    entry (t.insert k e) k' = if k = k' then e else t.entry k' := by
  simp only [entry, Std.ExtTreeMap.getD_insert, Std.LawfulEqCmp.compare_eq_iff_eq]

theorem mem_insert_iff (t : Table) (k k' : Key) (e : Entry) :
    k' ∈ t.insert k e ↔ k = k' ∨ k' ∈ t := by
  rw [Std.ExtTreeMap.mem_insert, Std.LawfulEqCmp.compare_eq_iff_eq]

@[simp] theorem view_noteRead (reader : Key) (t : Table) (k : Key) :
    (noteRead reader t k).view = t.view := by
  funext k'
  simp only [view, noteRead, entry_insert]
  split
  · rename_i h
    rw [h]
  · rfl

theorem mem_readers_noteRead (reader : Key) (t : Table) (k k' x : Key) :
    x ∈ ((noteRead reader t k).entry k').readers ↔
      k = k' ∧ reader = x ∨ x ∈ (t.entry k').readers := by
  simp only [noteRead, entry_insert]
  split
  · rename_i h
    subst h
    simp [Std.ExtTreeSet.mem_insert, Std.LawfulEqCmp.compare_eq_iff_eq]
  · rename_i h
    simp [h]

theorem view_keep (t : Table) (k k' : Key) (m : Match) :
    (t.keep k m).view k' = if k = k' then some m else t.view k' := by
  simp only [view, keep, entry_insert]
  split <;> rfl

@[simp] theorem readers_keep (t : Table) (k k' : Key) (m : Match) :
    ((t.keep k m).entry k').readers = (t.entry k').readers := by
  simp only [keep, entry_insert]
  split
  · rename_i h
    rw [h]
  · rfl

theorem improvedBy_congr {t t' : Table} {k : Key} (h : t.view k = t'.view k) (g : Grammar)
    (m : Match) : t.improvedBy g k m = t'.improvedBy g k m := by
  simp only [view] at h
  simp only [improvedBy, h]

theorem improvedBy_of_view {t : Table} {g : Grammar} {k : Key} {m : Match}
    (h : t.view k = some m) (e : Match) : t.improvedBy g k e = e.isBetter g m := by
  rw [view] at h
  rw [improvedBy, h]

theorem improvedBy_of_view_none {t : Table} {g : Grammar} {k : Key} (h : t.view k = none)
    (e : Match) : t.improvedBy g k e = true := by
  rw [view] at h
  rw [improvedBy, h]

theorem mem_of_view {t : Table} {k : Key} {m : Match} (h : t.view k = some m) : k ∈ t := by
  by_contra hk
  rw [view, entry, Std.ExtTreeMap.getD_eq_fallback hk] at h
  cases h

end Table

namespace State

theorem noteReads_spec (t : Table) (p : Proposal) :
    (noteReads t p).view = t.view ∧
      (∀ k x, x ∈ ((noteReads t p).entry k).readers ↔
        k ∈ p.reads ∧ p.key = x ∨ x ∈ (t.entry k).readers) ∧
      ∀ k, k ∈ noteReads t p ↔ k ∈ p.reads ∨ k ∈ t := by
  rw [noteReads]
  induction p.reads generalizing t with
  | nil => simp
  | cons r reads ih =>
      obtain ⟨hview, hreaders, hmem⟩ := ih (Table.noteRead p.key t r)
      rw [List.foldl_cons]
      refine ⟨hview.trans (Table.view_noteRead ..), fun k x => ?_, fun k => ?_⟩
      · rw [hreaders, Table.mem_readers_noteRead, List.mem_cons, eq_comm (a := r)]
        tauto
      · rw [hmem, Table.noteRead, Table.mem_insert_iff, List.mem_cons, eq_comm (a := r)]
        tauto

theorem noted_spec (t : Table) (ps : List Proposal) :
    (ps.foldl noteReads t).view = t.view ∧
      (∀ k x, x ∈ ((ps.foldl noteReads t).entry k).readers ↔
        (∃ p ∈ ps, k ∈ p.reads ∧ p.key = x) ∨ x ∈ (t.entry k).readers) ∧
      ∀ k, k ∈ ps.foldl noteReads t ↔ (∃ p ∈ ps, k ∈ p.reads) ∨ k ∈ t := by
  induction ps generalizing t with
  | nil => simp
  | cons p ps ih =>
      obtain ⟨hview, hreaders, hmem⟩ := ih (noteReads t p)
      obtain ⟨hview', hreaders', hmem'⟩ := noteReads_spec t p
      rw [List.foldl_cons]
      refine ⟨hview.trans hview', fun k x => ?_, fun k => ?_⟩
      · rw [hreaders, hreaders', List.exists_mem_cons_iff]
        exact or_left_comm.trans or_assoc.symm
      · rw [hmem, hmem', List.exists_mem_cons_iff]
        exact or_left_comm.trans or_assoc.symm

/-- Takes up one proposal as if no other were made with it. -/
def offer (g : Grammar) (s : State) (p : Proposal) : State :=
  match p.found with
  | none => s
  | some m => s.install g p.key m

def improved (g : Grammar) (t : Table) (k : Key) : Option Match → Option Match
  | none => t.view k
  | some m => if t.improvedBy g k m then some m else t.view k

theorem offer_cases (g : Grammar) (s : State) (p : Proposal) :
    (offer g s p = s ∧ ∀ m, p.found = some m → s.table.improvedBy g p.key m = false) ∨
      ∃ m, p.found = some m ∧ s.table.improvedBy g p.key m = true ∧
        offer g s p =
          { s with
            table := s.table.keep p.key m
            active := s.active.insertMany (dependents g s.table p.key)
            installed := s.installed + 1
            events := .kept p.key m.length :: s.events } := by
  rw [offer]
  split
  · rename_i hfound
    exact .inl ⟨rfl, by simp [hfound]⟩
  · rename_i m hfound
    rw [install]
    split
    · rename_i himproved
      exact .inr ⟨m, hfound, himproved, rfl⟩
    · rename_i himproved
      refine .inl ⟨rfl, fun n hn => ?_⟩
      rw [hfound, Option.some.injEq] at hn
      simpa [← hn] using himproved

/-- What taking up proposals one by one does to a state. Readers do not change; an entry changes only
to a match proposed for it, and then all that depends on it is active. -/
structure Taken (g : Grammar) (ps : List Proposal) (s s' : State) : Prop where
  readers : ∀ k, (s'.table.entry k).readers = (s.table.entry k).readers
  rounds : s'.rounds = s.rounds
  mem : ∀ k ∈ s'.table, k ∈ s.table ∨ ∃ p ∈ ps, p.key = k
  untouched : ∀ k, (∀ p ∈ ps, p.key ≠ k) → s'.table.view k = s.table.view k
  best : ∀ k m, s'.table.view k = some m →
    s.table.view k = some m ∨ ∃ p ∈ ps, p.key = k ∧ p.found = some m
  stays : ∀ k, s'.table.view k = none → s.table.view k = none
  active : ∀ x ∈ s'.active, x ∈ s.active ∨
    ∃ k, s'.table.view k ≠ none ∧ (∃ p ∈ ps, p.key = k) ∧ x ∈ dependents g s.table k
  activeKept : ∀ x ∈ s.active, x ∈ s'.active
  activated : ∀ k, s'.table.view k ≠ s.table.view k → ∀ x ∈ dependents g s.table k, x ∈ s'.active

theorem dependents_congr {g : Grammar} {t t' : Table} {k : Key}
    (h : (t'.entry k).readers = (t.entry k).readers) : dependents g t' k = dependents g t k := by
  rw [dependents, dependents, h]

namespace Taken

variable {g : Grammar}

theorem refl (s : State) : Taken g [] s s where
  readers := fun _ => rfl
  rounds := rfl
  mem := fun _ h => .inl h
  untouched := fun _ _ => rfl
  best := fun _ _ h => .inl h
  stays := fun _ h => h
  active := fun _ h => .inl h
  activeKept := fun _ h => h
  activated := fun _ h => absurd rfl h

theorem trans {ps qs : List Proposal} {s₁ s₂ s₃ : State} (h : Taken g ps s₁ s₂)
    (h' : Taken g qs s₂ s₃) : Taken g (ps ++ qs) s₁ s₃ where
  readers := fun k => (h'.readers k).trans (h.readers k)
  rounds := h'.rounds.trans h.rounds
  mem := by
    intro k hk
    rcases h'.mem k hk with hk | ⟨p, hp, hkey⟩
    · rcases h.mem k hk with hk | ⟨p, hp, hkey⟩
      · exact .inl hk
      · exact .inr ⟨p, List.mem_append_left _ hp, hkey⟩
    · exact .inr ⟨p, List.mem_append_right _ hp, hkey⟩
  untouched := by
    intro k hk
    rw [h'.untouched k fun p hp => hk p (List.mem_append_right _ hp),
      h.untouched k fun p hp => hk p (List.mem_append_left _ hp)]
  best := by
    intro k m hm
    rcases h'.best k m hm with hm | ⟨p, hp, hkey, hfound⟩
    · rcases h.best k m hm with hm | ⟨p, hp, hkey, hfound⟩
      · exact .inl hm
      · exact .inr ⟨p, List.mem_append_left _ hp, hkey, hfound⟩
    · exact .inr ⟨p, List.mem_append_right _ hp, hkey, hfound⟩
  stays := fun k hk => h.stays k (h'.stays k hk)
  active := by
    intro x hx
    rcases h'.active x hx with hx | ⟨k, hk, ⟨p, hp, hkey⟩, hdep⟩
    · rcases h.active x hx with hx | ⟨k, hk, ⟨p, hp, hkey⟩, hdep⟩
      · exact .inl hx
      · exact .inr ⟨k, fun hnone => hk (h'.stays k hnone),
          ⟨p, List.mem_append_left _ hp, hkey⟩, hdep⟩
    · rw [dependents_congr (h.readers k)] at hdep
      exact .inr ⟨k, hk, ⟨p, List.mem_append_right _ hp, hkey⟩, hdep⟩
  activeKept := fun x hx => h'.activeKept x (h.activeKept x hx)
  activated := by
    intro k hk x hx
    by_cases hmid : s₂.table.view k = s₁.table.view k
    · refine h'.activated k (hmid ▸ hk) x ?_
      rwa [dependents_congr (h.readers k)]
    · exact h'.activeKept x (h.activated k hmid x hx)

theorem offer (s : State) (p : Proposal) : Taken g [p] s (offer g s p) := by
  rcases offer_cases g s p with ⟨heq, _⟩ | ⟨m, hfound, _, heq⟩
  · rw [heq]
    exact
      { refl (g := g) s with
        mem := fun _ h => .inl h
        untouched := fun _ _ => rfl
        best := fun _ _ h => .inl h
        active := fun _ h => .inl h }
  · rw [heq]
    refine
      { readers := fun k => by simp
        rounds := rfl
        mem := ?_, untouched := ?_, best := ?_, stays := ?_, active := ?_, activeKept := ?_
        activated := ?_ }
    · intro k hk
      rcases (Table.mem_insert_iff _ _ _ _).mp hk with rfl | hk
      · exact .inr ⟨p, List.mem_singleton_self p, rfl⟩
      · exact .inl hk
    · intro k hk
      simp only [Table.view_keep]
      rw [if_neg (hk p (List.mem_singleton_self p))]
    · intro k n hn
      simp only [Table.view_keep] at hn
      split at hn
      · rename_i hkey
        exact .inr ⟨p, List.mem_singleton_self p, hkey, hfound.trans hn⟩
      · exact .inl hn
    · intro k hk
      simp only [Table.view_keep] at hk
      split at hk
      · cases hk
      · exact hk
    · intro x hx
      simp only [Std.ExtTreeSet.mem_insertMany_list, List.contains_iff_mem] at hx
      rcases hx with hx | hx
      · exact .inl hx
      · exact .inr ⟨p.key, by simp [Table.view_keep], ⟨p, List.mem_singleton_self p, rfl⟩, hx⟩
    · intro x hx
      simp only [Std.ExtTreeSet.mem_insertMany_list]
      exact .inl hx
    · intro k hk x hx
      simp only [Table.view_keep] at hk
      split at hk
      · rename_i hkey
        subst hkey
        simp only [Std.ExtTreeSet.mem_insertMany_list, List.contains_iff_mem]
        exact .inr hx
      · exact absurd rfl hk

theorem of_subset {ps qs : List Proposal} {s s' : State} (h : Taken g ps s s')
    (hsub : ∀ p ∈ ps, ∃ q ∈ qs, q.key = p.key ∧ q.found = p.found) : Taken g qs s s' where
  readers := h.readers
  rounds := h.rounds
  mem := by
    intro k hk
    refine (h.mem k hk).imp_right fun ⟨p, hp, hkey⟩ => ?_
    obtain ⟨q, hq, heq, _⟩ := hsub p hp
    exact ⟨q, hq, heq.trans hkey⟩
  untouched := by
    refine fun k hk => h.untouched k fun p hp hkey => ?_
    obtain ⟨q, hq, heq, _⟩ := hsub p hp
    exact hk q hq (heq.trans hkey)
  best := by
    intro k m hm
    refine (h.best k m hm).imp_right fun ⟨p, hp, hkey, hfound⟩ => ?_
    obtain ⟨q, hq, heq, hsame⟩ := hsub p hp
    exact ⟨q, hq, heq.trans hkey, hsame.trans hfound⟩
  stays := h.stays
  active := by
    intro x hx
    refine (h.active x hx).imp_right fun ⟨k, hk, ⟨p, hp, hkey⟩, hdep⟩ => ?_
    obtain ⟨q, hq, heq, _⟩ := hsub p hp
    exact ⟨k, hk, ⟨q, hq, heq.trans hkey⟩, hdep⟩
  activeKept := h.activeKept
  activated := h.activated

theorem foldl (ps : List Proposal) (s : State) :
    Taken g ps s (ps.foldl (State.offer g) s) := by
  induction ps generalizing s with
  | nil => exact refl s
  | cons p ps ih => exact (offer s p).trans (ih (State.offer g s p))

end Taken

theorem view_offer (g : Grammar) (s : State) (p : Proposal) :
    (offer g s p).table.view p.key = improved g s.table p.key p.found := by
  rcases offer_cases g s p with ⟨heq, hnot⟩ | ⟨m, hfound, himproved, heq⟩
  · rw [heq]
    cases hfound : p.found with
    | none => rfl
    | some m => simp [improved, hnot m hfound]
  · rw [heq, hfound]
    simp [improved, himproved, Table.view_keep]

theorem improved_congr {g : Grammar} {t t' : Table} {k : Key} (h : t.view k = t'.view k)
    (found : Option Match) : improved g t k found = improved g t' k found := by
  cases found with
  | none => exact h
  | some m => rw [improved, improved, Table.improvedBy_congr h, h]

theorem view_foldl_offer (g : Grammar) (ps : List Proposal) (hnodup : (ps.map (·.key)).Nodup)
    (s : State) {p : Proposal} (hp : p ∈ ps) :
    (ps.foldl (offer g) s).table.view p.key = improved g s.table p.key p.found := by
  induction ps generalizing s with
  | nil => cases hp
  | cons q ps ih =>
      obtain ⟨hq, hnodup⟩ := List.nodup_cons.mp hnodup
      rw [List.foldl_cons]
      rcases List.mem_cons.mp hp with rfl | hp
      · rw [(Taken.foldl ps _).untouched p.key, view_offer]
        exact fun r hr heq => hq (List.mem_map.mpr ⟨r, hr, heq⟩)
      · rw [ih hnodup _ hp]
        apply improved_congr
        apply (Taken.offer s q).untouched
        intro r hr heq
        rw [List.mem_singleton.mp hr] at heq
        exact hq (List.mem_map.mpr ⟨p, hp, heq.symm⟩)

def noted (ps : List Proposal) (s : State) : State := { s with table := ps.foldl noteReads s.table }

theorem view_noted (ps : List Proposal) (s : State) : (s.noted ps).table.view = s.table.view :=
  (noted_spec s.table ps).1

theorem mem_readers_noted (ps : List Proposal) (s : State) (k x : Key) :
    x ∈ ((s.noted ps).table.entry k).readers ↔
      (∃ p ∈ ps, k ∈ p.reads ∧ p.key = x) ∨ x ∈ (s.table.entry k).readers :=
  (noted_spec s.table ps).2.1 k x

theorem mem_noted (ps : List Proposal) (s : State) (k : Key) :
    k ∈ (s.noted ps).table ↔ (∃ p ∈ ps, k ∈ p.reads) ∨ k ∈ s.table :=
  (noted_spec s.table ps).2.2 k

theorem mem_dependents {g : Grammar} {t : Table} {k x : Key} :
    x ∈ dependents g t k ↔
      x ∈ (t.entry k).readers ∨ ∃ c ∈ (g.clause k.clause).seedParents, x = ⟨c, k.start⟩ := by
  simp only [dependents, List.mem_append, Std.ExtTreeSet.mem_toList, List.mem_map, eq_comm]

end State

end BottomUpPeg
