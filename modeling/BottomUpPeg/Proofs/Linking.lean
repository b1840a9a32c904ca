import BottomUpPeg.Grammar.Compile
import BottomUpPeg.Proofs.Postorder
import Mathlib.Data.List.Forall2

namespace BottomUpPeg

theorem mapM_ok_forall₂ {ε α β : Type} {f : α → Except ε β} {xs : List α} {ys : List β}
    (h : xs.mapM f = .ok ys) : List.Forall₂ (fun x y => f x = .ok y) xs ys := by
  induction xs generalizing ys with
  | nil =>
      cases h
      exact .nil
  | cons x xs ih =>
      rw [List.mapM_cons] at h
      cases hx : f x with
      | error e => rw [hx] at h; cases h
      | ok y =>
          cases hxs : xs.mapM f with
          | error e => rw [hx, hxs] at h; cases h
          | ok rest =>
              rw [hx, hxs] at h
              cases h
              exact .cons hx (ih hxs)

theorem forall₂_mem_right {α β : Type} {r : α → β → Prop} {xs : List α} {ys : List β}
    (h : List.Forall₂ r xs ys) {y : β} (hy : y ∈ ys) : ∃ x ∈ xs, r x y := by
  induction h with
  | nil => cases hy
  | @cons x y' xs ys hxy _ ih =>
      rcases List.mem_cons.mp hy with rfl | hy
      · exact ⟨x, List.mem_cons_self .., hxy⟩
      · obtain ⟨x', hx', hr⟩ := ih hy
        exact ⟨x', List.mem_cons_of_mem _ hx', hr⟩

theorem mapM_ok_mem {ε α β : Type} {f : α → Except ε β} {xs : List α} {ys : List β}
    (h : xs.mapM f = .ok ys) : ys.length = xs.length ∧ ∀ y ∈ ys, ∃ x ∈ xs, f x = .ok y :=
  ⟨(mapM_ok_forall₂ h).length_eq.symm, fun _ hy => forall₂_mem_right (mapM_ok_forall₂ h) hy⟩

namespace Shape

theorem children_renumber (f : Nat → Nat) (s : Shape) :
    (s.renumber f).children = s.children.map f := by
  cases s <;> simp [renumber, children, slots, Function.comp_def]

end Shape

def Body.children : Body → List Nat
  | .shape s => s.children
  | .reference _ => []

namespace Arena

def Closed (arena : Arena) : Prop := ∀ i, ∀ j ∈ (arena.draft i).body.children, j < arena.size

theorem draft_push (arena : Arena) (d : Draft) (i : Nat) :
    draft (arena.push d) i = if i = arena.size then d else arena.draft i := by
  simp only [draft, Array.getElem?_push]
  split <;> rfl

theorem closed_push {arena : Arena} {d : Draft} (h : arena.Closed)
    (hd : ∀ j ∈ d.body.children, j < arena.size) : Closed (arena.push d) := by
  intro i j hj
  rw [draft_push] at hj
  simp only [Array.size_push]
  split at hj
  · exact Nat.lt_succ_of_lt (hd j hj)
  · exact Nat.lt_succ_of_lt (h i j hj)

structure Grows (arena : Arena) (i : Nat) (arena' : Arena) : Prop where
  size_le : arena.size ≤ arena'.size
  lt_size : i < arena'.size
  closed : arena'.Closed

theorem lt_size_of_find? {arena : Arena} {form : String} {i : Nat}
    (h : arena.find? form = some i) : i < arena.size := by
  rw [find?, List.findIdx?_eq_some_iff_getElem] at h
  simpa using h.1

theorem add_grows {arena : Arena} (body : Body) (h : arena.Closed)
    (hbody : ∀ j ∈ body.children, j < arena.size) :
    Grows arena (arena.add body).1 (arena.add body).2 := by
  rw [add]
  split
  · rename_i i hfound
    exact ⟨Nat.le_refl _, lt_size_of_find? hfound, h⟩
  · exact ⟨by simp, by simp, closed_push h hbody⟩

mutual

theorem intern_grows : (e : Expr) → (arena : Arena) → arena.Closed →
    Grows arena (intern e arena).1 (intern e arena).2
  | .terminal t, arena, h => by
      rw [intern]
      exact add_grows _ h (by simp [Body.children, Shape.children, Shape.slots])
  | .reference rule, arena, h => by
      rw [intern]
      exact add_grows _ h (by simp [Body.children])
  | .group kind items, arena, h => by
      obtain ⟨hle, hclosed, hslots⟩ := internSlots_grows items arena h
      rw [intern]
      have hadd := add_grows (.shape (.group kind (internSlots items arena).1)) hclosed
        (by simpa [Body.children, Shape.children, Shape.slots] using hslots)
      exact ⟨hle.trans hadd.size_le, hadd.lt_size, hadd.closed⟩
  | .unary kind item, arena, h => by
      have hitem := intern_grows item arena h
      rw [intern]
      have hadd := add_grows (.shape (.unary kind ⟨(intern item arena).1, item.outerLabel⟩))
        hitem.closed
        (by simpa [Body.children, Shape.children, Shape.slots] using hitem.lt_size)
      exact ⟨hitem.size_le.trans hadd.size_le, hadd.lt_size, hadd.closed⟩
  | .label _ item, arena, h => by
      rw [intern]
      exact intern_grows item arena h

theorem internSlots_grows : (es : List Expr) → (arena : Arena) → arena.Closed →
    arena.size ≤ (internSlots es arena).2.size ∧ (internSlots es arena).2.Closed ∧
      ∀ s ∈ (internSlots es arena).1, s.clause < (internSlots es arena).2.size
  | [], arena, h => by simpa [internSlots] using h
  | e :: rest, arena, h => by
      have he := intern_grows e arena h
      obtain ⟨hle, hclosed, hslots⟩ := internSlots_grows rest (intern e arena).2 he.closed
      rw [internSlots]
      refine ⟨he.size_le.trans hle, hclosed, ?_⟩
      intro s hs
      rcases List.mem_cons.mp hs with rfl | hs
      · exact Nat.lt_of_lt_of_le he.lt_size hle
      · exact hslots s hs

end

theorem internAll_grows (ds : List Definition) (arena : Arena) (h : arena.Closed) :
    arena.size ≤ (internAll ds arena).2.size ∧ (internAll ds arena).2.Closed ∧
      ∀ i ∈ (internAll ds arena).1, i < (internAll ds arena).2.size := by
  induction ds generalizing arena with
  | nil => simpa [internAll] using h
  | cons d rest ih =>
      have hd := intern_grows d.body arena h
      obtain ⟨hle, hclosed, hroots⟩ := ih (intern d.body arena).2 hd.closed
      rw [internAll]
      refine ⟨hd.size_le.trans hle, hclosed, ?_⟩
      intro i hi
      rcases List.mem_cons.mp hi with rfl | hi
      · exact Nat.lt_of_lt_of_le hd.lt_size hle
      · exact hroots i hi

theorem closed_empty : Closed #[] := by
  intro i j hj
  simp [draft, Body.children, Shape.children, Shape.slots, default] at hj

variable {arena : Arena} {roots : List (String × Nat)}

theorem mem_of_lookup {rule : String} {root : Nat} (h : roots.lookup rule = some root) :
    (rule, root) ∈ roots := by
  obtain ⟨before, after, rfl, _⟩ := List.lookup_eq_some_iff.mp h
  simp

theorem follow_lt (hclosed : arena.Closed) (hroots : ∀ r ∈ roots, r.2 < arena.size) (fuel : Nat)
    (chain : List String) (i : Nat) (hi : i < arena.size) {target : Nat × Linked}
    (h : arena.follow roots fuel chain i = .ok target) :
    target.1 < arena.size ∧ ∀ j ∈ target.2.shape.children, j < arena.size := by
  induction fuel generalizing chain i with
  | zero => cases h
  | succ fuel ih =>
      rw [follow] at h
      split at h
      · rename_i s hs
        cases h
        refine ⟨hi, fun j hj => hclosed i j ?_⟩
        rw [hs]
        exact hj
      · split at h
        · cases h
        · split at h
          · cases h
          · rename_i rule _ _ _ root hroot
            exact ih _ root (hroots (rule, root) (mem_of_lookup hroot)) h

theorem link_lt (hclosed : arena.Closed) (hroots : ∀ r ∈ roots, r.2 < arena.size)
    {clauses : Array Linked} {targets : List Nat} (h : arena.link roots = .ok (clauses, targets)) :
    Graph.Bounded (Linked.next clauses) clauses.size ∧ ∀ i ∈ targets, i < clauses.size := by
  simp only [link, bind, Except.bind] at h
  split at h
  · cases h
  rename_i rootTargets hrootTargets
  split at h
  · cases h
  rename_i drafts hdrafts
  cases h
  obtain ⟨hlength, hdrafts⟩ := mapM_ok_mem hdrafts
  rw [List.length_range] at hlength
  have hdraft : ∀ d ∈ drafts, d.1 < arena.size ∧ ∀ j ∈ d.2.shape.children, j < arena.size := by
    intro d hd
    obtain ⟨i, hi, heq⟩ := hdrafts d hd
    exact follow_lt hclosed hroots _ _ i (List.mem_range.mp hi) heq
  have htarget : ∀ j < arena.size, ((drafts[j]?.map Prod.fst).getD j) < arena.size := by
    intro j hj
    have hj' : j < drafts.length := by omega
    simpa [hj'] using (hdraft _ (List.getElem_mem hj')).1
  constructor
  · intro i j hj
    simp only [List.size_toArray, List.length_map, hlength]
    simp only [Linked.next, Linked.clause, List.getElem?_toArray, List.getElem?_map] at hj
    cases hd : drafts[i]? with
    | none => simp [hd, Shape.children, Shape.slots, default] at hj
    | some d =>
        simp only [hd, Option.map_some, Option.getD_some, Shape.children_renumber,
          List.mem_map] at hj
        obtain ⟨k, hk, rfl⟩ := hj
        exact htarget k ((hdraft d (List.mem_of_getElem? hd)).2 k hk)
  · intro i hi
    simp only [List.size_toArray, List.length_map, hlength]
    obtain ⟨t, ht, rfl⟩ := List.mem_map.mp hi
    obtain ⟨r, hr, heq⟩ := (mapM_ok_mem hrootTargets).2 t ht
    exact (follow_lt hclosed hroots _ _ _ (hroots r hr) heq).1

end Arena

namespace Linked

variable {clauses : Array Linked} {roots : List Nat}

def order (clauses : Array Linked) (roots : List Nat) : List Nat :=
  Graph.postorder (next clauses) clauses.size roots

theorem size_compact : (compact clauses roots).1.size = (order clauses roots).length := by
  simp [compact, order]

theorem clause_compact {i d : Nat} (h : (order clauses roots)[i]? = some d) :
    clause (compact clauses roots).1 i =
      ⟨(clause clauses d).shape.renumber (order clauses roots).idxOf, (clause clauses d).form⟩ := by
  rw [order] at h ⊢
  simp [compact, clause, h]

theorem mem_next_compact {i d j : Nat} (h : (order clauses roots)[i]? = some d) :
    j ∈ next (compact clauses roots).1 i ↔ ∃ u ∈ next clauses d, (order clauses roots).idxOf u = j := by
  rw [next, clause_compact h, Shape.children_renumber, List.mem_map]
  rfl

theorem exists_of_mem_next_compact {i j : Nat} (h : j ∈ next (compact clauses roots).1 i) :
    ∃ d, (order clauses roots)[i]? = some d ∧
      ∃ u ∈ next clauses d, (order clauses roots).idxOf u = j := by
  cases hget : (order clauses roots)[i]? with
  | some d => exact ⟨d, rfl, (mem_next_compact hget).mp h⟩
  | none =>
      rw [List.getElem?_eq_none_iff, ← size_compact] at hget
      simp [next, clause, hget, Shape.children, Shape.slots, default] at h

/-- A part stands before its whole unless the whole is again a part of it. -/
def PartsFirst (clauses : Array Linked) : Prop :=
  ∀ i, ∀ j ∈ next clauses i, j < i ∨ Graph.LeadsTo (next clauses) j i

variable (hb : Graph.Bounded (next clauses) clauses.size) (hroots : ∀ r ∈ roots, r < clauses.size)

include hb hroots

theorem mem_order_of_mem_next {d u : Nat} (hd : d ∈ order clauses roots)
    (hu : u ∈ next clauses d) : u ∈ order clauses roots := by
  obtain ⟨r, hr, hreach⟩ := (Graph.mem_postorder hb hroots d).mp hd
  exact (Graph.mem_postorder hb hroots u).mpr ⟨r, hr, hreach.tail hu⟩

theorem reaches_compact {d u : Nat} (hd : d ∈ order clauses roots)
    (h : Graph.Reaches (next clauses) d u) :
    u ∈ order clauses roots ∧ Graph.Reaches (next (compact clauses roots).1)
      ((order clauses roots).idxOf d) ((order clauses roots).idxOf u) := by
  induction h with
  | refl => exact ⟨hd, .refl⟩
  | @tail v u _ hu ih =>
      obtain ⟨hv, hreach⟩ := ih
      refine ⟨mem_order_of_mem_next hb hroots hv hu, hreach.tail ?_⟩
      exact (mem_next_compact (List.getElem?_idxOf hv)).mpr ⟨u, hu, rfl⟩

theorem ordered_compact {i j : Nat} (h : j ∈ next (compact clauses roots).1 i) :
    j < i ∨ Graph.LeadsTo (next (compact clauses roots).1) i j ∧
      Graph.LeadsTo (next (compact clauses roots).1) j i := by
  obtain ⟨d, hget, u, hu, rfl⟩ := exists_of_mem_next_compact h
  have hmem := List.mem_of_getElem? hget
  have hindex : (order clauses roots).idxOf d = i := by
    obtain ⟨hi, rfl⟩ := List.getElem?_eq_some_iff.mp hget
    exact (Graph.postorder_nodup hb hroots).idxOf_getElem i hi
  rcases Graph.postorder_idxOf_lt hb hroots hmem hu with hlt | hback
  · left
    exact hindex ▸ hlt
  · right
    have hreach := (reaches_compact hb hroots (mem_order_of_mem_next hb hroots hmem hu) hback).2
    rw [hindex] at hreach
    refine ⟨.single h, ?_⟩
    rcases Relation.reflTransGen_iff_eq_or_transGen.mp hreach with heq | hleads
    · rw [← heq] at h ⊢
      exact .single h
    · exact hleads

theorem compact_partsFirst : PartsFirst (compact clauses roots).1 := fun _ _ h =>
  (ordered_compact hb hroots h).imp_right And.right

theorem compact_lt : Graph.Bounded (next (compact clauses roots).1) (compact clauses roots).1.size ∧
    ∀ r ∈ (compact clauses roots).2, r < (compact clauses roots).1.size := by
  rw [size_compact]
  refine ⟨fun i j hj => ?_, fun i hi => ?_⟩
  · obtain ⟨d, hd, u, hu, rfl⟩ := exists_of_mem_next_compact hj
    exact List.idxOf_lt_length_of_mem
      (mem_order_of_mem_next hb hroots (List.mem_of_getElem? hd) hu)
  · obtain ⟨r, hr, rfl⟩ := List.mem_map.mp hi
    exact List.idxOf_lt_length_of_mem ((Graph.mem_postorder hb hroots r).mpr ⟨r, hr, .refl⟩)

end Linked

theorem exists_of_linkDefinitions {ds : List Definition} {clauses : Array Linked}
    {roots : List Nat} (h : linkDefinitions ds = .ok (clauses, roots)) :
    ∃ linked targets, Graph.Bounded (Linked.next linked) linked.size ∧
      (∀ r ∈ targets, r < linked.size) ∧ Linked.compact linked targets = (clauses, roots) := by
  obtain ⟨_, hclosed, hlt⟩ := Arena.internAll_grows ds #[] Arena.closed_empty
  simp only [linkDefinitions, bind, Except.bind] at h
  split at h
  · cases h
  rename_i linked hlinked
  cases h
  have hroots : ∀ r ∈ (ds.map (·.name)).zip (Arena.internAll ds #[]).1,
      r.2 < (Arena.internAll ds #[]).2.size := fun r hr => hlt _ (List.of_mem_zip hr).2
  obtain ⟨hb, ht⟩ := Arena.link_lt hclosed hroots hlinked
  exact ⟨_, _, hb, ht, rfl⟩

theorem linkDefinitions_lt {ds : List Definition} {clauses : Array Linked} {roots : List Nat}
    (h : linkDefinitions ds = .ok (clauses, roots)) :
    Graph.Bounded (Linked.next clauses) clauses.size ∧ ∀ r ∈ roots, r < clauses.size := by
  obtain ⟨linked, targets, hb, ht, hcompact⟩ := exists_of_linkDefinitions h
  have hlt := Linked.compact_lt hb ht
  rwa [hcompact] at hlt

theorem linkDefinitions_partsFirst {ds : List Definition} {clauses : Array Linked}
    {roots : List Nat} (h : linkDefinitions ds = .ok (clauses, roots)) :
    Linked.PartsFirst clauses := by
  obtain ⟨linked, targets, hb, ht, hcompact⟩ := exists_of_linkDefinitions h
  have hfirst := Linked.compact_partsFirst hb ht
  rwa [hcompact] at hfirst

end BottomUpPeg
