import BottomUpPeg.Proofs.Reachability

namespace BottomUpPeg.Graph

variable {next : Nat → List Nat} {size : Nat}

inductive Trailing (next : Nat → List Nat) : List Nat → Prop
  | nil : Trailing next []
  | cons {v : Nat} {vs : List Nat} : v ∉ vs → (∀ u ∈ next v, u ∈ vs ∨ Reaches next u v) →
      Trailing next vs → Trailing next (v :: vs)

theorem Trailing.nodup {vs : List Nat} (h : Trailing next vs) : vs.Nodup := by
  induction h with
  | nil => exact .nil
  | cons hv _ _ ih => exact List.nodup_cons.mpr ⟨hv, ih⟩

theorem Trailing.idxOf_lt {vs : List Nat} (h : Trailing next vs) {v u : Nat} (hv : v ∈ vs)
    (hu : u ∈ next v) : vs.reverse.idxOf u < vs.reverse.idxOf v ∨ Reaches next u v := by
  induction h with
  | nil => cases hv
  | @cons w vs hw hnext hvs ih =>
      have hlast : (w :: vs).reverse.idxOf w = vs.length := by
        rw [List.reverse_cons, List.idxOf_append_of_notMem (by simpa using hw)]
        simp
      have hearlier : ∀ x ∈ vs, (w :: vs).reverse.idxOf x = vs.reverse.idxOf x := by
        intro x hx
        rw [List.reverse_cons, List.idxOf_append_of_mem (by simpa using hx)]
      have hlt : ∀ x ∈ vs, vs.reverse.idxOf x < vs.length := by
        intro x hx
        simpa using List.idxOf_lt_length_of_mem (List.mem_reverse.mpr hx)
      rcases List.mem_cons.mp hv with rfl | hv
      · rcases hnext u hu with hmem | hback
        · left
          rw [hlast, hearlier u hmem]
          exact hlt u hmem
        · exact .inr hback
      · rcases ih hv with hless | hback
        · left
          rw [hearlier v hv]
          have hmem : u ∈ vs := by
            have hbound := hless.trans (hlt v hv)
            rw [← List.length_reverse] at hbound
            exact List.mem_reverse.mp (List.idxOf_lt_length_iff.mp hbound)
          rwa [hearlier u hmem]
        · exact .inr hback

namespace Walk

/-- A search that is about to visit a node: what it has entered and not yet left leads there. -/
structure Underway (next : Nat → List Nat) (w : Walk) (v : Nat) : Prop where
  entered : ∀ x ∈ w.left, x ∈ w.entered
  leads : ∀ x ∈ w.entered, x ∉ w.left → Reaches next x v

theorem Underway.of_explores {roots : List Nat} {w w' : Walk} {v : Nat} (h : Underway next w v)
    (he : Explores next roots w w') : Underway next w' v where
  entered := by
    intro x hx
    rcases he.leftEntered x hx with hx | hx
    · exact he.kept x (h.entered x hx)
    · exact hx
  leads := by
    intro x hx hleft
    refine h.leads x ?_ fun hold => hleft (he.leftKept x hold)
    by_contra hnew
    exact hleft (he.leaves x hx hnew)

/-- What a visit does to the nodes left: it leaves only nodes it entered, each behind those of its
successors that do not lead back to it. -/
structure Trails (next : Nat → List Nat) (w w' : Walk) : Prop where
  fresh : ∀ v ∈ w'.left, v ∈ w.left ∨ v ∉ w.entered
  trailing : Trailing next w'.left

theorem Trails.foldl {visit : Walk → Nat → Walk} {fuel : Nat}
    (hvisit : ∀ w v, v < size → (w.unseen size).card ≤ fuel → Explores next [v] w (visit w v))
    (htrails : ∀ w v, v < size → (w.unseen size).card ≤ fuel → Underway next w v →
      Trailing next w.left → Trails next w (visit w v))
    (vs : List Nat) (hvs : ∀ v ∈ vs, v < size) (w : Walk) (hw : (w.unseen size).card ≤ fuel)
    (hunderway : ∀ v ∈ vs, Underway next w v) (hleft : Trailing next w.left) :
    Trails next w (vs.foldl visit w) := by
  induction vs generalizing w with
  | nil => exact ⟨fun _ hv => .inl hv, hleft⟩
  | cons v vs ih =>
      have hv := hvs v (List.mem_cons_self ..)
      have hexplores := hvisit w v hv hw
      have hfirst := htrails w v hv hw (hunderway v (List.mem_cons_self ..)) hleft
      have hrest := ih (fun u hu => hvs u (List.mem_cons_of_mem _ hu)) (visit w v)
        ((card_unseen_le hexplores.kept).trans hw)
        (fun u hu => (hunderway u (List.mem_cons_of_mem _ hu)).of_explores hexplores) hfirst.trailing
      refine ⟨fun u hu => ?_, hrest.trailing⟩
      rcases hrest.fresh u hu with hu | hu
      · exact hfirst.fresh u hu
      · exact .inr fun hold => hu (hexplores.kept u hold)

theorem visit_trails (hb : Bounded next size) (fuel : Nat) (w : Walk) (v : Nat) (hv : v < size)
    (hfuel : (w.unseen size).card ≤ fuel) (hunderway : Underway next w v)
    (hleft : Trailing next w.left) : Trails next w (Walk.visit next fuel w v) := by
  induction fuel generalizing w v with
  | zero => exact ⟨fun _ hx => .inl hx, hleft⟩
  | succ fuel ih =>
      simp only [Walk.visit]
      split
      · exact ⟨fun _ hx => .inl hx, hleft⟩
      · rename_i hnot
        have hcard := card_unseen_enter hv hnot w.left
        have hinside : ∀ u ∈ next v, Underway next ⟨v :: w.entered, w.left⟩ u := by
          intro u hu
          refine ⟨fun x hx => List.mem_cons_of_mem _ (hunderway.entered x hx), ?_⟩
          intro x hx hopen
          rcases List.mem_cons.mp hx with rfl | hx
          · exact .single hu
          · exact (hunderway.leads x hx hopen).tail hu
        have hexplores := Explores.foldl (visit_explores hb fuel) (next v) (hb v)
          ⟨v :: w.entered, w.left⟩ (by omega)
        have htrails := Trails.foldl (visit_explores hb fuel) ih (next v) (hb v)
          ⟨v :: w.entered, w.left⟩ (by omega) hinside hleft
        refine ⟨fun x hx => ?_, .cons ?_ ?_ htrails.trailing⟩
        · rcases List.mem_cons.mp hx with rfl | hx
          · exact .inr hnot
          · exact (htrails.fresh x hx).imp_right fun hnew hold =>
              hnew (List.mem_cons_of_mem _ hold)
        · intro hmem
          rcases htrails.fresh v hmem with hmem | hnew
          · exact hnot (hunderway.entered v hmem)
          · exact hnew (List.mem_cons_self ..)
        · -- A successor not left by now was entered before, and is on the way to `v`.
          intro u hu
          by_contra hneither
          rw [not_or] at hneither
          obtain ⟨hopen, hback⟩ := hneither
          have hold : u ∈ v :: w.entered := by
            by_contra hnew
            exact hopen (hexplores.leaves u (hexplores.found u hu) hnew)
          rcases List.mem_cons.mp hold with rfl | hold
          · exact hback .refl
          · exact hback (hunderway.leads u hold fun h => hopen (hexplores.leftKept u h))

end Walk

theorem search_trailing (hb : Bounded next size) {roots : List Nat} (hr : ∀ r ∈ roots, r < size) :
    Trailing next (search next size roots).left := by
  have hstart : ∀ v ∈ roots, Walk.Underway next Walk.empty v := fun v _ =>
    ⟨fun _ hx => absurd hx List.not_mem_nil, fun _ hx => absurd hx List.not_mem_nil⟩
  exact (Walk.Trails.foldl (Walk.visit_explores hb size) (Walk.visit_trails hb size) roots hr
    Walk.empty (by simp [Walk.unseen, Walk.empty]) hstart .nil).trailing

theorem postorder_nodup (hb : Bounded next size) {roots : List Nat} (hr : ∀ r ∈ roots, r < size) :
    (postorder next size roots).Nodup :=
  List.nodup_reverse.mpr (search_trailing hb hr).nodup

theorem postorder_idxOf_lt (hb : Bounded next size) {roots : List Nat} (hr : ∀ r ∈ roots, r < size)
    {v u : Nat} (hv : v ∈ postorder next size roots) (hu : u ∈ next v) :
    (postorder next size roots).idxOf u < (postorder next size roots).idxOf v ∨ Reaches next u v :=
  (search_trailing hb hr).idxOf_lt (List.mem_reverse.mp hv) hu

end BottomUpPeg.Graph
