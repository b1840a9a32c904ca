import BottomUpPeg.Proofs.Layering
import Mathlib.Order.Bounds.Basic

namespace BottomUpPeg.Layer

variable {clauses : Array Linked}

def reachesNoCycle (clauses : Array Linked) (i : Nat) : Bool :=
  let onCycle := Graph.onCycle (Linked.next clauses) clauses.size
  !onCycle i && (Graph.beyond (Linked.next clauses) clauses.size i).all (!onCycle ·)

def longest (clauses : Array Linked) (acyclic : Nat → Bool) : Nat → Array Nat
  | 0 => Array.replicate clauses.size 0
  | length + 1 =>
      let shorter := longest clauses acyclic length
      ((List.range clauses.size).map fun i =>
        (Linked.next clauses i).foldl
          (fun most child => max most (shorter[child]?.getD 0 + step clauses acyclic i child)) 0).toArray

/-- A walk that crosses the most layers needs no clause twice, so its length is at most the number
of clauses. -/
def walkTable (clauses : Array Linked) : Array Layer :=
  let marks := ((List.range clauses.size).map (reachesNoCycle clauses)).toArray
  let acyclic := fun i => marks[i]?.getD false
  let heights := longest clauses acyclic clauses.size
  ((List.range clauses.size).map fun i => ⟨acyclic i, heights[i]?.getD 0⟩).toArray

theorem reachesNoCycle_iff (hb : Graph.Bounded (Linked.next clauses) clauses.size) (i : Nat) :
    reachesNoCycle clauses i = true ↔
      ∀ j, Graph.Reaches (Linked.next clauses) i j → ¬Graph.LeadsTo (Linked.next clauses) j j := by
  simp only [reachesNoCycle, Bool.and_eq_true, Bool.not_eq_true', List.all_eq_true,
    Graph.mem_beyond hb, ← Bool.not_eq_true, Graph.onCycle_iff hb]
  constructor
  · rintro ⟨hi, hbeyond⟩ j hj
    rcases Relation.reflTransGen_iff_eq_or_transGen.mp hj with rfl | hj
    · exact hi
    · exact hbeyond j hj
  · exact fun h => ⟨h i .refl, fun j hj => h j hj.to_reflTransGen⟩

theorem le_foldl_max (f : Nat → Nat) (cs : List Nat) (b : Nat) :
    b ≤ cs.foldl (fun most c => max most (f c)) b ∧
      ∀ c ∈ cs, f c ≤ cs.foldl (fun most c => max most (f c)) b := by
  induction cs generalizing b with
  | nil => simp
  | cons c cs ih =>
      obtain ⟨hb, hcs⟩ := ih (max b (f c))
      rw [List.foldl_cons]
      refine ⟨by omega, fun d hd => ?_⟩
      rcases List.mem_cons.mp hd with rfl | hd
      · omega
      · exact hcs d hd

theorem foldl_max_mem (f : Nat → Nat) (cs : List Nat) (b : Nat) :
    cs.foldl (fun most c => max most (f c)) b = b ∨
      ∃ c ∈ cs, cs.foldl (fun most c => max most (f c)) b = f c := by
  induction cs generalizing b with
  | nil => exact .inl rfl
  | cons c cs ih =>
      rw [List.foldl_cons]
      rcases ih (max b (f c)) with h | ⟨d, hd, h⟩
      · rcases Nat.le_total (f c) b with hle | hle
        · exact .inl (by omega)
        · exact .inr ⟨c, List.mem_cons_self .., by omega⟩
      · exact .inr ⟨d, List.mem_cons_of_mem _ hd, h⟩

section Longest

variable (acyclic : Nat → Bool)

theorem longest_zero (i : Nat) : (longest clauses acyclic 0)[i]?.getD 0 = 0 := by
  rw [longest, Array.getElem?_replicate]
  split <;> rfl

theorem longest_succ (length i : Nat) :
    (longest clauses acyclic (length + 1))[i]?.getD 0 =
      (Linked.next clauses i).foldl (fun most child =>
        max most ((longest clauses acyclic length)[child]?.getD 0 + step clauses acyclic i child)) 0 := by
  by_cases hi : i < clauses.size
  · simp [longest, hi]
  · have hnext : Linked.next clauses i = [] := by
      simp [Linked.next, Linked.clause, hi, Shape.children, Shape.slots, default]
    simp [longest, hi, hnext]

theorem crossings_le_longest (length : Nat) {i : Nat} {rest : List Nat}
    (hchain : (i :: rest).IsChain (Graph.Edge (Linked.next clauses))) (hlen : rest.length ≤ length) :
    crossings clauses acyclic (i :: rest) ≤ (longest clauses acyclic length)[i]?.getD 0 := by
  induction length generalizing i rest with
  | zero =>
      rw [List.length_eq_zero_iff.mp (Nat.le_zero.mp hlen)]
      exact Nat.zero_le _
  | succ length ih =>
      cases rest with
      | nil => exact Nat.zero_le _
      | cons j rest =>
          obtain ⟨hedge, htail⟩ := List.isChain_cons_cons.mp hchain
          have hrest := ih htail (by simpa using hlen)
          rw [longest_succ, crossings]
          refine Nat.le_trans ?_ ((le_foldl_max _ _ 0).2 j hedge)
          omega

theorem exists_walk (length i : Nat) :
    ∃ rest, (i :: rest).IsChain (Graph.Edge (Linked.next clauses)) ∧
      crossings clauses acyclic (i :: rest) = (longest clauses acyclic length)[i]?.getD 0 := by
  induction length generalizing i with
  | zero => exact ⟨[], .singleton i, (longest_zero acyclic i).symm⟩
  | succ length ih =>
      rw [longest_succ]
      rcases foldl_max_mem (fun child => (longest clauses acyclic length)[child]?.getD 0 +
        step clauses acyclic i child) (Linked.next clauses i) 0 with h | ⟨j, hj, h⟩
      · exact ⟨[], .singleton i, h.symm⟩
      · obtain ⟨rest, hchain, heq⟩ := ih j
        refine ⟨j :: rest, List.isChain_cons_cons.mpr ⟨hj, hchain⟩, ?_⟩
        rw [h, crossings, heq, Nat.add_comm]

theorem reaches_of_isChain {i j : Nat} {rest : List Nat}
    (hchain : (i :: rest).IsChain (Graph.Edge (Linked.next clauses))) (hj : j ∈ i :: rest) :
    Graph.Reaches (Linked.next clauses) i j := by
  induction rest generalizing i with
  | nil => rw [List.mem_singleton.mp hj]
  | cons k rest ih =>
      obtain ⟨hedge, htail⟩ := List.isChain_cons_cons.mp hchain
      rcases List.mem_cons.mp hj with rfl | hj
      · exact .refl
      · exact .head hedge (ih htail hj)

theorem crossings_append
    (hneg : ∀ i, isNegative clauses i = true → ¬Graph.LeadsTo (Linked.next clauses) i i)
    {i : Nat} (before after : List Nat)
    (hchain : (before ++ i :: after).IsChain (Graph.Edge (Linked.next clauses)))
    (hback : ∀ j ∈ before, Graph.LeadsTo (Linked.next clauses) i j) :
    crossings clauses acyclic (before ++ i :: after) = crossings clauses acyclic (i :: after) := by
  induction before with
  | nil => rfl
  | cons j before ih =>
      have hreach := reaches_of_isChain hchain (j := i) (by simp)
      have hcycle : Graph.LeadsTo (Linked.next clauses) j j :=
        Relation.TransGen.trans_right hreach (hback j (List.mem_cons_self ..))
      have hj : isNegative clauses j = false := by
        by_contra hn
        exact hneg j (by simpa using hn) hcycle
      have htail := ih hchain.tail fun k hk => hback k (List.mem_cons_of_mem _ hk)
      rw [← htail]
      cases hrest : before ++ i :: after with
      | nil => simp at hrest
      | cons k rest => simp [hrest, crossings, step, hj]

theorem exists_simple_walk
    (hneg : ∀ i, isNegative clauses i = true → ¬Graph.LeadsTo (Linked.next clauses) i i)
    (rest : List Nat) (i : Nat)
    (hchain : (i :: rest).IsChain (Graph.Edge (Linked.next clauses))) :
    ∃ simple, (i :: simple).IsChain (Graph.Edge (Linked.next clauses)) ∧ (i :: simple).Nodup ∧
      crossings clauses acyclic (i :: simple) = crossings clauses acyclic (i :: rest) := by
  induction rest generalizing i with
  | nil => exact ⟨[], hchain, by simp, rfl⟩
  | cons j rest ih =>
      obtain ⟨hedge, htail⟩ := List.isChain_cons_cons.mp hchain
      obtain ⟨simple, hsimple, hnodup, heq⟩ := ih j htail
      have hlong : (i :: j :: simple).IsChain (Graph.Edge (Linked.next clauses)) :=
        List.isChain_cons_cons.mpr ⟨hedge, hsimple⟩
      by_cases hi : i ∈ j :: simple
      · obtain ⟨before, after, hsplit⟩ := List.append_of_mem hi
        rw [hsplit] at hsimple hnodup hlong
        refine ⟨after, hsimple.right_of_append, hnodup.of_append_right, ?_⟩
        have hback : ∀ k ∈ i :: before, Graph.LeadsTo (Linked.next clauses) i k := by
          have hcycle : Graph.LeadsTo (Linked.next clauses) i i :=
            .head' hedge (reaches_of_isChain (hsplit ▸ hsimple) hi)
          intro k hk
          refine Relation.TransGen.trans_left hcycle (reaches_of_isChain hlong ?_)
          rw [← List.cons_append]
          exact List.mem_append_left _ hk
        have hcross := crossings_append acyclic hneg (i :: before) after hlong hback
        rw [← hcross, List.cons_append, ← hsplit, crossings, crossings, heq]
      · exact ⟨j :: simple, hlong, List.nodup_cons.mpr ⟨hi, hnodup⟩, by
          rw [crossings, crossings, heq]⟩

end Longest

theorem isGreatest_longest (hb : Graph.Bounded (Linked.next clauses) clauses.size)
    (hneg : ∀ i, isNegative clauses i = true → ¬Graph.LeadsTo (Linked.next clauses) i i)
    (acyclic : Nat → Bool) {c : Nat} (hc : c < clauses.size) :
    IsGreatest (heights clauses acyclic c)
      ((longest clauses acyclic clauses.size)[c]?.getD 0) := by
  refine ⟨exists_walk acyclic clauses.size c, ?_⟩
  rintro n ⟨walk, hchain, rfl⟩
  -- Walking round a cycle crosses no layer, so a walk that meets no clause twice crosses as many.
  obtain ⟨simple, hsimple, hnodup, hcross⟩ := exists_simple_walk acyclic hneg walk c hchain
  have hlt : ∀ k ∈ c :: simple, k < clauses.size := by
    intro k hk
    rcases Relation.reflTransGen_iff_eq_or_transGen.mp (reaches_of_isChain hsimple hk) with rfl | hk
    · exact hc
    · exact hb.lt_of_leadsTo hk
  have hlength := Graph.length_le_of_nodup hnodup hlt
  rw [← hcross]
  exact crossings_le_longest acyclic clauses.size hsimple (Nat.le_of_succ_le hlength)

theorem isMarked_eq (hb : Graph.Bounded (Linked.next clauses) clauses.size)
    (hfirst : Linked.PartsFirst clauses) :
    isMarked clauses = fun i =>
      ((List.range clauses.size).map (reachesNoCycle clauses)).toArray[i]?.getD false := by
  funext i
  rcases Nat.lt_or_ge i clauses.size with hi | hi
  · have heq : isMarked clauses i = reachesNoCycle clauses i :=
      Bool.eq_iff_iff.mpr ((isMarked_iff hb hfirst hi).trans (reachesNoCycle_iff hb i).symm)
    simp [heq, hi]
  · rw [isMarked_of_size_le hi]
    simp [Nat.not_lt.mpr hi]

theorem table_eq_walkTable (hb : Graph.Bounded (Linked.next clauses) clauses.size)
    (hfirst : Linked.PartsFirst clauses)
    (hneg : ∀ i, isNegative clauses i = true → ¬Graph.LeadsTo (Linked.next clauses) i i) :
    table clauses = .ok (walkTable clauses) := by
  obtain ⟨layers, htable⟩ := exists_table hb hneg
  obtain ⟨hsize, _, hmarked, hgreatest⟩ := table_ok hb htable
  rw [htable]
  refine congrArg Except.ok (Array.ext (by simp [walkTable, hsize]) fun i hi hi' => ?_)
  have hlt : i < clauses.size := hsize ▸ hi
  have hget : layers[i]?.getD default = layers[i] := by simp [hi]
  have hmark := hmarked i
  have hstratum := (hgreatest i hlt).unique (isGreatest_longest hb hneg (isMarked clauses) hlt)
  rw [hget] at hmark hstratum
  rw [isMarked_eq hb hfirst] at hmark hstratum
  calc layers[i] = ⟨layers[i].acyclic, layers[i].stratum⟩ := rfl
    _ = (walkTable clauses)[i] := by
      rw [hmark, hstratum]
      simp [walkTable]

end BottomUpPeg.Layer
