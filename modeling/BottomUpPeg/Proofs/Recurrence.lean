import BottomUpPeg.Proofs.Sharing

namespace BottomUpPeg

namespace Arena

variable {arena : Arena}

def Descending (arena : Arena) : Prop := ∀ i, ∀ j ∈ (arena.draft i).body.children, j < i

theorem add_descending (h : arena.Descending) {body : Body}
    (hbody : ∀ j ∈ body.children, j < arena.size) : Descending (arena.add body).2 := by
  rw [add]
  split
  · exact h
  · intro i j hj
    rw [draft_push] at hj
    split at hj
    · rename_i hi
      exact hi ▸ hbody j hj
    · exact h i j hj

mutual

theorem intern_descending : (e : Expr) → (arena : Arena) → arena.Closed → arena.Descending →
    Descending (intern e arena).2
  | .terminal t, arena, _, h => by
      rw [intern]
      exact add_descending h (by simp [Body.children, Shape.children, Shape.slots])
  | .reference rule, arena, _, h => by
      rw [intern]
      exact add_descending h (by simp [Body.children])
  | .group kind items, arena, hclosed, h => by
      obtain ⟨_, _, hslots⟩ := internSlots_grows items arena hclosed
      rw [intern]
      refine add_descending (internSlots_descending items arena hclosed h) ?_
      simpa [Body.children, Shape.children, Shape.slots] using hslots
  | .unary kind item, arena, hclosed, h => by
      have hitem := intern_grows item arena hclosed
      rw [intern]
      refine add_descending (intern_descending item arena hclosed h) ?_
      simpa [Body.children, Shape.children, Shape.slots] using hitem.lt_size
  | .label _ item, arena, hclosed, h => by
      rw [intern]
      exact intern_descending item arena hclosed h

theorem internSlots_descending : (es : List Expr) → (arena : Arena) → arena.Closed →
    arena.Descending → Descending (internSlots es arena).2
  | [], _, _, h => by rwa [internSlots]
  | e :: rest, arena, hclosed, h => by
      rw [internSlots]
      exact internSlots_descending rest _ (intern_grows e arena hclosed).closed
        (intern_descending e arena hclosed h)

end

theorem internAll_descending (ds : List Definition) (hclosed : arena.Closed)
    (h : arena.Descending) : Descending (internAll ds arena).2 := by
  induction ds generalizing arena with
  | nil => exact h
  | cons d ds ih =>
      exact ih (intern_grows d.body arena hclosed).closed (intern_descending d.body arena hclosed h)

theorem descending_empty : Descending #[] := by
  intro i j hj
  simp [draft, Body.children, Shape.children, Shape.slots, default] at hj

end Arena

namespace Faithful

variable {arena : Arena} {roots : List (String × Nat)} {clauses : Array Linked}
  {targets origin : List Nat}

theorem eq_of_origin (h : Faithful arena roots clauses targets origin) {j j' t : Nat}
    (hj : origin[j]? = some t) (hj' : origin[j']? = some t) : j = j' := by
  obtain ⟨hlt, heq⟩ := List.getElem?_eq_some_iff.mp hj
  obtain ⟨hlt', heq'⟩ := List.getElem?_eq_some_iff.mp hj'
  exact h.nodup.getElem_inj_iff.mp (heq.trans heq'.symm)

-- What a reference ends in is what a rule ends in.
theorem mem_targets_of_reference (h : Faithful arena roots clauses targets origin)
    {rule : String} {root t j : Nat} (hroot : roots.lookup rule = some root)
    (hends : arena.EndsIn roots root t) (hj : origin[j]? = some t) : j ∈ targets := by
  obtain ⟨j', hj', t', hends', horigin⟩ :=
    forall₂_mem_right h.targets.flip (Arena.mem_of_lookup hroot)
  obtain rfl := hends.unique hends'
  exact h.eq_of_origin hj horigin ▸ hj'

theorem target_or_earlier (h : Faithful arena roots clauses targets origin)
    (hdescending : arena.Descending) {i j : Nat} (hj : j ∈ Linked.next clauses i) :
    j ∈ targets ∨ ∃ d t, origin[i]? = some d ∧ origin[j]? = some t ∧ t < d := by
  have hi : i < origin.length := by
    by_contra hi
    rw [← h.size_eq, Nat.not_lt] at hi
    simp [Linked.next, Linked.clause, hi, Shape.children, Shape.slots, default] at hj
  obtain ⟨_, s, number, hbody, hclause, hparts⟩ := h.copied i _ (List.getElem?_eq_getElem hi)
  rw [Linked.next, hclause, Shape.children_renumber, List.mem_map] at hj
  obtain ⟨c, hc, rfl⟩ := hj
  obtain ⟨t, hends, horigin⟩ := hparts c hc
  cases hends with
  | shape _ =>
      have hlt := hdescending origin[i] c (by rw [hbody]; exact hc)
      exact .inr ⟨_, c, List.getElem?_eq_getElem hi, horigin, hlt⟩
  | reference _ hroot hends => exact .inl (h.mem_targets_of_reference hroot hends horigin)

end Faithful

namespace Grammar

variable {source : Source} {g : Grammar}

theorem next_linked (g : Grammar) : Linked.next g.linked = g.next := by
  funext i
  rcases Nat.lt_or_ge i g.size with hi | hi
  · rw [Linked.next, g.clause_linked hi, next]
  · have hi' : g.clauses.size ≤ i := hi
    rw [next, shape, clause_of_size_le hi]
    simp [Linked.next, Linked.clause, linked, hi', default]

theorem ruleNames_ne_nil (hg : source.compile = .ok g) {rule : Rule} (h : rule ∈ g.rules) :
    (g.clause rule.clause).ruleNames ≠ [] := by
  obtain ⟨ds, _, hlinked, _⟩ := Source.compile_linked hg
  have hlt : rule.clause < g.linked.size :=
    (linkDefinitions_lt hlinked).2 _ (List.mem_map_of_mem h)
  obtain ⟨clauses, _, _, hassembled, _⟩ := Source.compile_assembled hg
  have hsize : g.linked.size = clauses.size := by
    rw [← hassembled.size_eq]
    simp [linked, size]
  have hmem : rule ∈ g.rules.filter (·.clause = rule.clause) := by simpa using h
  rw [hassembled.clause_eq _ (hsize ▸ hlt)]
  exact fun hnil => List.ne_nil_of_mem hmem (List.map_eq_nil_iff.mp hnil)

def inner (g : Grammar) (i : Nat) : List Nat :=
  if (g.clause i).ruleNames.isEmpty then g.next i else []

theorem mem_inner {i j : Nat} : j ∈ g.inner i ↔ (g.clause i).ruleNames = [] ∧ j ∈ g.next i := by
  rw [inner]
  split <;> simp_all

theorem inner_bounded (hg : g.Lawful) : Graph.Bounded g.inner g.size :=
  fun i j hj => hg.bounded i j (mem_inner.mp hj).2

-- A clause without a name that is met inside is part of the same body, so its draft is older.
theorem not_leadsTo_inner_self (hg : source.compile = .ok g) (i : Nat) :
    ¬Graph.LeadsTo g.inner i i := by
  obtain ⟨ds, origin, _, _, hfaithful⟩ := (source.compiled_is_faithful).2.2 g hg
  have hdescending := Arena.internAll_descending ds Arena.closed_empty Arena.descending_empty
  have hstep : ∀ {v j}, j ∈ g.inner v → (g.clause j).ruleNames = [] →
      ∃ d t, origin[v]? = some d ∧ origin[j]? = some t ∧ t < d := by
    intro v j hj hnone
    have hnext := (mem_inner.mp hj).2
    rw [← g.next_linked] at hnext
    refine (hfaithful.target_or_earlier hdescending hnext).resolve_left fun htarget => ?_
    obtain ⟨rule, hrule, rfl⟩ := List.mem_map.mp htarget
    exact ruleNames_ne_nil hg hrule hnone
  have hrun : ∀ {j}, Graph.LeadsTo g.inner i j → (g.clause j).ruleNames = [] →
      ∃ d t, origin[i]? = some d ∧ origin[j]? = some t ∧ t < d := by
    intro j hleads
    induction hleads with
    | single hj => exact hstep hj
    | @tail v j _ hj ih =>
        intro hnone
        obtain ⟨d, t, hd, ht, hlt⟩ := ih (mem_inner.mp hj).1
        obtain ⟨t', u, ht', hu, hlt'⟩ := hstep hj hnone
        cases ht.symm.trans ht'
        exact ⟨d, u, hd, hu, hlt'.trans hlt⟩
  intro hcycle
  obtain ⟨v, hv, _⟩ := Relation.TransGen.head'_iff.mp hcycle
  obtain ⟨d, t, hd, ht, hlt⟩ := hrun hcycle (mem_inner.mp hv).1
  cases hd.symm.trans ht
  exact Nat.lt_irrefl _ hlt

theorem leadsTo_inner_of_chain {i j : Nat} {path : List Nat}
    (hchain : (i :: path).IsChain (Graph.Edge g.next)) (hlast : path.getLast? = some j)
    (hnone : ∀ k ∈ i :: path, (g.clause k).ruleNames = []) : Graph.LeadsTo g.inner i j := by
  induction path generalizing i with
  | nil => cases hlast
  | cons k path ih =>
      obtain ⟨hedge, hchain⟩ := List.isChain_cons_cons.mp hchain
      obtain ⟨hi, hnone⟩ := List.forall_mem_cons.mp hnone
      have hinner : Graph.Edge g.inner i k := mem_inner.mpr ⟨hi, hedge⟩
      cases path with
      | nil =>
          cases hlast
          exact .single hinner
      | cons k' path => exact .head hinner (ih hchain (by simpa using hlast) hnone)

theorem exists_named_on_cycle (hg : source.compile = .ok g) {i : Nat} {path : List Nat}
    (hchain : (i :: path).IsChain (Graph.Edge g.next)) (hlast : path.getLast? = some i) :
    ∃ j ∈ path, (g.clause j).ruleNames ≠ [] := by
  by_contra hnone
  push Not at hnone
  have hi := hnone i (List.mem_of_getLast? hlast)
  exact not_leadsTo_inner_self hg i
    (leadsTo_inner_of_chain hchain hlast (List.forall_mem_cons.mpr ⟨hi, hnone⟩))

end Grammar

end BottomUpPeg
