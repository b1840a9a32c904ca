import BottomUpPeg.Graph.Component
import BottomUpPeg.Proofs.Reachability

namespace BottomUpPeg.Graph

section Assign

variable {α : Type}

theorem getD_setIfInBounds {a : Array α} {v : Nat} (hv : v < a.size) (x d : α) (u : Nat) :
    (a.setIfInBounds v x)[u]?.getD d = if u = v then x else a[u]?.getD d := by
  rw [Array.getElem?_setIfInBounds]
  by_cases h : u = v
  · simp [h, hv]
  · simp [h, Ne.symm h]

theorem getElem?_assign (a : Array α) (vs : List Nat) (x : α) {i : Nat} (hi : i < a.size) :
    (assign a vs x)[i]? = if i ∈ vs then some x else a[i]? := by
  induction vs generalizing a with
  | nil => simp [assign]
  | cons v vs ih =>
      have hstep : assign a (v :: vs) x = assign (a.setIfInBounds v x) vs x := rfl
      rw [hstep, ih _ (by rwa [Array.size_setIfInBounds]), Array.getElem?_setIfInBounds]
      by_cases hv : v = i
      · subst hv
        simp [hi]
      · simp [hv, Ne.symm hv]

theorem getD_assign_self (a : Array α) (vs : List Nat) (x : α) (i : Nat) :
    (assign a vs x)[i]?.getD x = if i ∈ vs then x else a[i]?.getD x := by
  induction vs generalizing a with
  | nil => simp [assign]
  | cons v vs ih =>
      have hstep : assign a (v :: vs) x = assign (a.setIfInBounds v x) vs x := rfl
      rw [hstep, ih, Array.getElem?_setIfInBounds]
      by_cases hv : i = v
      · simp only [hv, List.mem_cons, true_or, if_true]
        split_ifs <;> rfl
      · simp [hv, Ne.symm hv]

theorem size_assign (a : Array α) (vs : List Nat) (x : α) : (assign a vs x).size = a.size := by
  induction vs generalizing a with
  | nil => rfl
  | cons v vs ih => exact (ih _).trans (Array.size_setIfInBounds ..)

end Assign

section Label

variable {α : Type} {f : Nat → List Nat → α} {components before after : List (List Nat)}
  {members : List Nat} {v : Nat}

theorem size_foldl_assign (start : Nat) (a : Array α) :
    ((components.zipIdx start).foldl (fun a (members, c) => assign a members (f c members))
      a).size = a.size := by
  induction components generalizing start a with
  | nil => rfl
  | cons members components ih => exact (ih ..).trans (size_assign ..)

theorem getElem?_foldl_assign (hv : v ∉ components.flatten) (start : Nat) {a : Array α}
    (hlt : v < a.size) :
    ((components.zipIdx start).foldl (fun a (members, c) => assign a members (f c members)) a)[v]? =
      a[v]? := by
  induction components generalizing start a with
  | nil => rfl
  | cons members components ih =>
      rw [List.flatten_cons, List.mem_append, not_or] at hv
      rw [List.zipIdx_cons, List.foldl_cons, ih hv.2 _ ((size_assign ..).symm ▸ hlt),
        getElem?_assign _ _ _ hlt, if_neg hv.1]

theorem getElem?_label (hnodup : (before ++ members :: after).flatten.Nodup) (hv : v ∈ members)
    {a : Array α} (hlt : v < a.size) :
    (label f (before ++ members :: after) a)[v]? = some (f before.length members) := by
  have hafter : v ∉ after.flatten := by
    rw [List.flatten_append, List.flatten_cons] at hnodup
    exact fun hmem => (List.nodup_append.mp (List.nodup_append.mp hnodup).2.1).2.2 v hv v hmem rfl
  have hsize :
      ((before.zipIdx 0).foldl (fun a (members, c) => assign a members (f c members)) a).size =
        a.size := size_foldl_assign ..
  rw [label, List.zipIdx_append, List.foldl_append, List.zipIdx_cons, List.foldl_cons,
    getElem?_foldl_assign hafter _ (by rw [size_assign, hsize]; exact hlt),
    getElem?_assign _ _ _ (by rw [hsize]; exact hlt), if_pos hv, Nat.zero_add]

end Label

variable {next : Nat → List Nat} {size : Nat}

/-- Components of a graph, each with all that leads to it and back, and behind those to which it
leads. -/
structure Condensed (next : Nat → List Nat) (components : List (List Nat)) : Prop where
  nodup : components.flatten.Nodup
  reaches : ∀ members ∈ components, ∀ v ∈ members, ∀ w ∈ members, Reaches next v w
  earlier : ∀ before members after, components = before ++ members :: after →
    ∀ v ∈ members, ∀ w ∈ next v, w ∈ members ∨ w ∈ before.flatten

namespace Condensed

variable {components before after : List (List Nat)} {members : List Nat} {v w : Nat}

theorem nil : Condensed next [] where
  nodup := .nil
  reaches := by simp
  earlier := by simp

theorem push (h : Condensed next components) (hmembers : members.Nodup)
    (hnew : ∀ v ∈ members, v ∉ components.flatten)
    (hreaches : ∀ v ∈ members, ∀ w ∈ members, Reaches next v w)
    (hnext : ∀ v ∈ members, ∀ w ∈ next v, w ∈ members ∨ w ∈ components.flatten) :
    Condensed next (components ++ [members]) where
  nodup := by
    rw [List.flatten_append, List.flatten_singleton, List.nodup_append]
    refine ⟨h.nodup, hmembers, fun v hv w hw heq => hnew w hw (heq ▸ hv)⟩
  reaches := by
    intro ms hms
    rcases List.mem_append.mp hms with hms | hms
    · exact h.reaches ms hms
    · rw [List.mem_singleton.mp hms]
      exact hreaches
  earlier := by
    intro before ms after hsplit
    rcases List.eq_nil_or_concat after with rfl | ⟨after, last, rfl⟩
    · obtain ⟨rfl, hlast⟩ := List.append_inj' hsplit rfl
      cases hlast
      exact hnext
    · rw [List.concat_eq_append, ← List.cons_append, ← List.append_assoc] at hsplit
      exact h.earlier before ms after (List.append_inj' hsplit rfl).1

theorem closed (h : Condensed next (before ++ after)) (hv : v ∈ before.flatten)
    (hreach : Reaches next v w) : w ∈ before.flatten := by
  induction hreach with
  | refl => exact hv
  | @tail u w _ hstep ih =>
      obtain ⟨ms, hms, hu⟩ := List.mem_flatten.mp ih
      obtain ⟨front, back, rfl⟩ := List.append_of_mem hms
      have hsplit : front ++ ms :: back ++ after = front ++ ms :: (back ++ after) := by simp
      rw [List.flatten_append, List.flatten_cons]
      rcases h.earlier front ms (back ++ after) hsplit u hu w hstep with hw | hw
      · simp [hw]
      · simp [hw]

theorem mem_of_reaches (h : Condensed next components) (hv : v ∈ components.flatten)
    (hreach : Reaches next v w) : w ∈ components.flatten := by
  rw [← List.append_nil components] at h
  exact h.closed hv hreach

theorem disjoint (h : Condensed next (before ++ members :: after)) (hv : v ∈ members) :
    v ∉ before.flatten := by
  have hnodup := h.nodup
  rw [List.flatten_append, List.flatten_cons] at hnodup
  exact fun hbefore =>
    (List.nodup_append.mp hnodup).2.2 v hbefore v (List.mem_append_left _ hv) rfl

theorem mem_of_mutual (h : Condensed next (before ++ members :: after)) (hv : v ∈ members)
    (hto : Reaches next v w) (hback : Reaches next w v) : w ∈ members := by
  have hassoc : before ++ members :: after = (before ++ [members]) ++ after := by simp
  have hw : w ∈ (before ++ [members]).flatten := by
    refine closed (hassoc ▸ h) ?_ hto
    simp [hv]
  rw [List.flatten_append, List.flatten_singleton, List.mem_append] at hw
  rcases hw with hw | hw
  · exact absurd (closed h hw hback) (h.disjoint hv)
  · exact hw

theorem isCycle_iff (h : Condensed next (before ++ members :: after)) (hv : v ∈ members) :
    isCycle next members = true ↔ LeadsTo next v v := by
  have hmem : members ∈ before ++ members :: after := by simp
  have hmutual := h.reaches members hmem
  rw [isCycle, Bool.or_eq_true, decide_eq_true_eq, List.any_eq_true]
  constructor
  · rintro (hlength | ⟨u, hu, hself⟩)
    · -- Another member is reached, and leads back.
      have hother : ∃ w ∈ members, w ≠ v := by
        by_contra hnone
        simp only [not_exists, not_and, not_not] at hnone
        have hnodup : members.Nodup := by
          have hflat := h.nodup
          rw [List.flatten_append, List.flatten_cons] at hflat
          exact (List.nodup_append.mp (List.nodup_append.mp hflat).2.1).1
        have hsubset : members ⊆ [v] := fun w hw => List.mem_singleton.mpr (hnone w hw)
        exact absurd hlength (Nat.not_lt.mpr (hnodup.subperm hsubset).length_le)
      obtain ⟨w, hw, hne⟩ := hother
      rcases Relation.reflTransGen_iff_eq_or_transGen.mp (hmutual v hv w hw) with heq | hleads
      · exact absurd heq hne
      · exact Relation.TransGen.trans_left hleads (hmutual w hw v hv)
    · have hstep : Edge next u u := List.contains_iff_mem.mp hself
      exact Relation.TransGen.trans_right (hmutual v hv u hu)
        (Relation.TransGen.head' hstep (hmutual u hu v hv))
  · intro hcycle
    obtain ⟨w, hstep, hback⟩ := Relation.TransGen.head'_iff.mp hcycle
    have hw : w ∈ members := h.mem_of_mutual hv (.single hstep) hback
    by_cases heq : w = v
    · subst heq
      exact .inr ⟨w, hw, List.contains_iff_mem.mpr hstep⟩
    · left
      cases members with
      | nil => cases hv
      | cons a rest =>
          cases rest with
          | nil =>
              rw [List.mem_singleton] at hv hw
              exact absurd (hw.trans hv.symm) heq
          | cons b rest => simp

end Condensed

end BottomUpPeg.Graph
