import BottomUpPeg.Graph.Search
import Mathlib.Data.Finset.Card
import Mathlib.Data.Finset.Range
import Mathlib.Logic.Relation

namespace BottomUpPeg.Graph

variable {next : Nat → List Nat} {size : Nat}

def Edge (next : Nat → List Nat) (v w : Nat) : Prop := w ∈ next v

abbrev Reaches (next : Nat → List Nat) : Nat → Nat → Prop := Relation.ReflTransGen (Edge next)

abbrev LeadsTo (next : Nat → List Nat) : Nat → Nat → Prop := Relation.TransGen (Edge next)

def Bounded (next : Nat → List Nat) (size : Nat) : Prop := ∀ v, ∀ w ∈ next v, w < size

theorem Bounded.lt_of_leadsTo (hb : Bounded next size) {v w : Nat} (h : LeadsTo next v w) :
    w < size := by
  cases h with
  | single h => exact hb _ _ h
  | tail _ h => exact hb _ _ h

def Walk.unseen (size : Nat) (w : Walk) : Finset Nat := Finset.range size \ w.entered.toFinset

theorem Walk.card_unseen_le {w w' : Walk} (h : ∀ v ∈ w.entered, v ∈ w'.entered) :
    (w'.unseen size).card ≤ (w.unseen size).card := by
  apply Finset.card_le_card
  intro v hv
  simp only [unseen, Finset.mem_sdiff, List.mem_toFinset] at hv ⊢
  exact ⟨hv.1, fun hw => hv.2 (h v hw)⟩

theorem Walk.card_unseen_enter {w : Walk} {v : Nat} (hv : v < size) (hn : v ∉ w.entered)
    (left : List Nat) :
    (Walk.unseen size ⟨v :: w.entered, left⟩).card < (w.unseen size).card := by
  apply Finset.card_lt_card
  constructor
  · intro u hu
    simp only [unseen, Finset.mem_sdiff, List.mem_toFinset, List.mem_cons, not_or] at hu ⊢
    exact ⟨hu.1, hu.2.2⟩
  · intro hsub
    have hmem : v ∈ w.unseen size := by simp [unseen, hv, hn]
    simpa [unseen] using hsub hmem

/-- What a search does between two of its states when it visits the roots: it enters all that is
reachable and new, follows every successor of what it enters, and leaves what it entered. -/
structure Walk.Explores (next : Nat → List Nat) (roots : List Nat) (w w' : Walk) : Prop where
  kept : ∀ v ∈ w.entered, v ∈ w'.entered
  found : ∀ r ∈ roots, r ∈ w'.entered
  closed : ∀ v ∈ w'.entered, v ∉ w.entered → ∀ u ∈ next v, u ∈ w'.entered
  reached : ∀ v ∈ w'.entered, v ∈ w.entered ∨ ∃ r ∈ roots, Reaches next r v
  leftKept : ∀ v ∈ w.left, v ∈ w'.left
  leaves : ∀ v ∈ w'.entered, v ∉ w.entered → v ∈ w'.left
  leftEntered : ∀ v ∈ w'.left, v ∈ w.left ∨ v ∈ w'.entered

namespace Walk.Explores

theorem refl {roots : List Nat} {w : Walk} (hr : ∀ r ∈ roots, r ∈ w.entered) :
    Explores next roots w w where
  kept := fun _ h => h
  found := hr
  closed := fun _ h hn => absurd h hn
  reached := fun _ h => .inl h
  leftKept := fun _ h => h
  leaves := fun _ h hn => absurd h hn
  leftEntered := fun _ h => .inl h

theorem trans {rs ss : List Nat} {w₁ w₂ w₃ : Walk} (h : Explores next rs w₁ w₂)
    (h' : Explores next ss w₂ w₃) : Explores next (rs ++ ss) w₁ w₃ where
  kept := fun v hv => h'.kept v (h.kept v hv)
  found := by
    intro r hr
    rcases List.mem_append.mp hr with hr | hr
    · exact h'.kept r (h.found r hr)
    · exact h'.found r hr
  closed := by
    intro v hv hn u hu
    by_cases hm : v ∈ w₂.entered
    · exact h'.kept u (h.closed v hm hn u hu)
    · exact h'.closed v hv hm u hu
  reached := by
    intro v hv
    rcases h'.reached v hv with hv | ⟨r, hr, hreach⟩
    · rcases h.reached v hv with hv | ⟨r, hr, hreach⟩
      · exact .inl hv
      · exact .inr ⟨r, List.mem_append_left _ hr, hreach⟩
    · exact .inr ⟨r, List.mem_append_right _ hr, hreach⟩
  leftKept := fun v hv => h'.leftKept v (h.leftKept v hv)
  leaves := by
    intro v hv hn
    by_cases hm : v ∈ w₂.entered
    · exact h'.leftKept v (h.leaves v hm hn)
    · exact h'.leaves v hv hm
  leftEntered := by
    intro v hv
    rcases h'.leftEntered v hv with hv | hv
    · rcases h.leftEntered v hv with hv | hv
      · exact .inl hv
      · exact .inr (h'.kept v hv)
    · exact .inr hv

theorem enter {w inner : Walk} {v : Nat}
    (h : Explores next (next v) ⟨v :: w.entered, w.left⟩ inner) :
    Explores next [v] w ⟨inner.entered, v :: inner.left⟩ where
  kept := fun u hu => h.kept u (List.mem_cons_of_mem _ hu)
  found := by
    intro r hr
    rw [List.mem_singleton.mp hr]
    exact h.kept v (List.mem_cons_self ..)
  closed := by
    intro u hu hn s hs
    by_cases huv : u = v
    · subst huv
      exact h.found s hs
    · exact h.closed u hu (by simp [huv, hn]) s hs
  reached := by
    intro u hu
    rcases h.reached u hu with hu | ⟨r, hr, hreach⟩
    · rcases List.mem_cons.mp hu with rfl | hu
      · exact .inr ⟨u, List.mem_singleton_self u, .refl⟩
      · exact .inl hu
    · exact .inr ⟨v, List.mem_singleton_self v, .head hr hreach⟩
  leftKept := fun u hu => List.mem_cons_of_mem _ (h.leftKept u hu)
  leaves := by
    intro u hu hn
    by_cases huv : u = v
    · exact huv ▸ List.mem_cons_self ..
    · exact List.mem_cons_of_mem _ (h.leaves u hu (by simp [huv, hn]))
  leftEntered := by
    intro u hu
    rcases List.mem_cons.mp hu with rfl | hu
    · exact .inr (h.kept u (List.mem_cons_self ..))
    · exact h.leftEntered u hu

theorem foldl {visit : Walk → Nat → Walk} {fuel : Nat}
    (hvisit : ∀ w v, v < size → (w.unseen size).card ≤ fuel → Explores next [v] w (visit w v))
    (vs : List Nat) (hvs : ∀ v ∈ vs, v < size) (w : Walk) (hw : (w.unseen size).card ≤ fuel) :
    Explores next vs w (vs.foldl visit w) := by
  induction vs generalizing w with
  | nil => exact refl (by simp)
  | cons v vs ih =>
      have hv := hvisit w v (hvs v (List.mem_cons_self ..)) hw
      have hw' := (card_unseen_le hv.kept).trans hw
      exact hv.trans (ih (fun u hu => hvs u (List.mem_cons_of_mem _ hu)) (visit w v) hw')

end Walk.Explores

theorem Walk.visit_explores (hb : Bounded next size) (fuel : Nat) (w : Walk) (v : Nat)
    (hv : v < size) (hfuel : (w.unseen size).card ≤ fuel) :
    Walk.Explores next [v] w (Walk.visit next fuel w v) := by
  induction fuel generalizing w v with
  | zero =>
      have hmem : v ∈ w.entered := by
        by_contra hn
        have hlt := card_unseen_enter hv hn w.left
        omega
      exact Explores.refl (by simpa using hmem)
  | succ fuel ih =>
      simp only [Walk.visit]
      split
      · rename_i hmem
        exact Explores.refl (by simpa using hmem)
      · rename_i hn
        have hlt := card_unseen_enter hv hn w.left
        exact Explores.enter (Explores.foldl ih (next v) (hb v) _ (by omega))

theorem search_explores (hb : Bounded next size) {roots : List Nat} (hr : ∀ r ∈ roots, r < size) :
    Walk.Explores next roots Walk.empty (search next size roots) := by
  refine Walk.Explores.foldl (fun w v => Walk.visit_explores hb size w v) roots hr _ ?_
  simp [Walk.unseen, Walk.empty]

theorem mem_search_entered (hb : Bounded next size) {roots : List Nat}
    (hr : ∀ r ∈ roots, r < size) (v : Nat) :
    v ∈ (search next size roots).entered ↔ ∃ r ∈ roots, Reaches next r v := by
  have h := search_explores hb hr
  constructor
  · intro hv
    rcases h.reached v hv with hv | hv
    · exact absurd hv List.not_mem_nil
    · exact hv
  · rintro ⟨r, hr, hreach⟩
    induction hreach with
    | refl => exact h.found r hr
    | tail _ hstep ih => exact h.closed _ ih List.not_mem_nil _ hstep

theorem mem_search_left (hb : Bounded next size) {roots : List Nat}
    (hr : ∀ r ∈ roots, r < size) (v : Nat) :
    v ∈ (search next size roots).left ↔ ∃ r ∈ roots, Reaches next r v := by
  rw [← mem_search_entered hb hr]
  have h := search_explores hb hr
  constructor
  · intro hv
    rcases h.leftEntered v hv with hv | hv
    · exact absurd hv List.not_mem_nil
    · exact hv
  · exact fun hv => h.leaves v hv List.not_mem_nil

theorem mem_postorder (hb : Bounded next size) {roots : List Nat}
    (hr : ∀ r ∈ roots, r < size) (v : Nat) :
    v ∈ postorder next size roots ↔ ∃ r ∈ roots, Reaches next r v := by
  rw [postorder, List.mem_reverse, mem_search_left hb hr]

def beyond (next : Nat → List Nat) (size : Nat) (v : Nat) : List Nat :=
  (search next size (next v)).entered

def onCycle (next : Nat → List Nat) (size : Nat) (v : Nat) : Bool :=
  (beyond next size v).contains v

theorem mem_beyond (hb : Bounded next size) (v w : Nat) :
    w ∈ beyond next size v ↔ LeadsTo next v w := by
  rw [beyond, mem_search_entered hb (hb v)]
  exact (Relation.TransGen.head'_iff (r := Edge next)).symm

theorem onCycle_iff (hb : Bounded next size) (v : Nat) :
    onCycle next size v = true ↔ LeadsTo next v v := by
  rw [onCycle, List.contains_iff_mem, mem_beyond hb]

inductive Ordered (next : Nat → List Nat) : List Nat → Prop
  | nil : Ordered next []
  | cons {v : Nat} {vs : List Nat} : (∀ u ∈ next v, u ∈ vs) → Ordered next vs →
      Ordered next (v :: vs)

theorem Ordered.closed {vs : List Nat} (h : Ordered next vs) {v u : Nat} (hv : v ∈ vs)
    (hreach : Reaches next v u) : u ∈ vs := by
  have step : ∀ w ∈ vs, ∀ u ∈ next w, u ∈ vs := by
    clear hreach hv
    induction h with
    | nil => simp
    | @cons w vs hw _ ih =>
        intro x hx u hu
        rcases List.mem_cons.mp hx with rfl | hx
        · exact List.mem_cons_of_mem _ (hw u hu)
        · exact List.mem_cons_of_mem _ (ih x hx u hu)
  induction hreach with
  | refl => exact hv
  | tail _ hstep ih => exact step _ ih _ hstep

theorem Ordered.not_leadsTo_self {vs : List Nat} (h : Ordered next vs) {v : Nat} (hv : v ∈ vs) :
    ¬LeadsTo next v v := by
  induction h with
  | nil => simp at hv
  | @cons w vs hw hvs ih =>
      intro hcycle
      obtain ⟨u, hstep, hback⟩ := Relation.TransGen.head'_iff.mp hcycle
      rcases List.mem_cons.mp hv with rfl | hv
      · exact ih (hvs.closed (hw u hstep) hback) hcycle
      · exact ih hv hcycle

theorem length_le_of_nodup {path : List Nat} (hpath : path.Nodup) (hlt : ∀ v ∈ path, v < size) :
    path.length ≤ size := by
  have hsub : path.toFinset ⊆ Finset.range size := fun v hv =>
    Finset.mem_range.mpr (hlt v (List.mem_toFinset.mp hv))
  have hcard := Finset.card_le_card hsub
  rwa [List.toFinset_card_of_nodup hpath, Finset.card_range] at hcard

theorem foldlM_ordered {f : List Nat → Nat → Except Nat (List Nat)} {vs done done' : List Nat}
    (h : ∀ u ∈ vs, ∀ done done', Ordered next done → f done u = .ok done' →
      Ordered next done' ∧ (∀ x ∈ done, x ∈ done') ∧ u ∈ done')
    (hdone : Ordered next done) (hfold : vs.foldlM f done = .ok done') :
    Ordered next done' ∧ (∀ x ∈ done, x ∈ done') ∧ ∀ u ∈ vs, u ∈ done' := by
  induction vs generalizing done with
  | nil =>
      cases hfold
      exact ⟨hdone, fun _ hx => hx, by simp⟩
  | cons u vs ih =>
      rw [List.foldlM_cons] at hfold
      cases hu : f done u with
      | error e =>
          rw [hu] at hfold
          cases hfold
      | ok mid =>
          rw [hu] at hfold
          obtain ⟨hmid, hsub, humem⟩ := h u (List.mem_cons_self ..) done mid hdone hu
          obtain ⟨hlast, hsub', hvs⟩ := ih (fun x hx => h x (List.mem_cons_of_mem _ hx)) hmid hfold
          refine ⟨hlast, fun x hx => hsub' x (hsub x hx), ?_⟩
          exact List.forall_mem_cons.mpr ⟨hsub' u humem, hvs⟩

theorem explore_ordered (hb : Bounded next size) (fuel : Nat) (path done : List Nat) (v : Nat)
    (hpath : path.Nodup) (hlt : ∀ u ∈ path, u < size) (hv : v < size)
    (hfuel : size < path.length + fuel) (hdone : Ordered next done) {done' : List Nat}
    (h : explore next fuel path done v = .ok done') :
    Ordered next done' ∧ (∀ u ∈ done, u ∈ done') ∧ v ∈ done' := by
  induction fuel generalizing path done v done' with
  | zero =>
      have hle := length_le_of_nodup hpath hlt
      omega
  | succ fuel ih =>
      rw [explore] at h
      split at h
      · cases h
      · rename_i hnot
        split at h
        · cases h
          exact ⟨hdone, fun _ hu => hu, by assumption⟩
        · have hpath' := List.nodup_cons.mpr ⟨hnot, hpath⟩
          have hlt' : ∀ u ∈ v :: path, u < size := List.forall_mem_cons.mpr ⟨hv, hlt⟩
          split at h
          · cases h
          · rename_i inner hfold
            cases h
            have hstep : ∀ u ∈ next v, ∀ done done', Ordered next done →
                explore next fuel (v :: path) done u = .ok done' →
                Ordered next done' ∧ (∀ x ∈ done, x ∈ done') ∧ u ∈ done' := by
              intro u hu done done' hdone hexplore
              exact ih (v :: path) done u hpath' hlt' (hb v u hu)
                (by simp only [List.length_cons]; omega) hdone hexplore
            obtain ⟨hinner, hsub, hnext⟩ := foldlM_ordered hstep hdone hfold
            exact ⟨.cons hnext hinner, fun u hu => List.mem_cons_of_mem _ (hsub u hu),
              List.mem_cons_self ..⟩

theorem not_leadsTo_self_of_cycleFrom? (hb : Bounded next size) {root : Nat} (hroot : root < size)
    (h : cycleFrom? next size root = none) {v : Nat} (hv : Reaches next root v) :
    ¬LeadsTo next v v := by
  rw [cycleFrom?] at h
  split at h
  · cases h
  · rename_i done heq
    obtain ⟨hdone, _, hmem⟩ := explore_ordered hb (size + 1) [] [] root List.nodup_nil (by simp)
      hroot (by simp) .nil heq
    exact hdone.not_leadsTo_self (hdone.closed hmem hv)

end BottomUpPeg.Graph
