import BottomUpPeg.Proofs.Layering

namespace BottomUpPeg.Layer

theorem table_is_exact :
    (∀ (clauses : Array Linked) (roots : List Nat),
      Graph.Bounded (Linked.next clauses) clauses.size → (∀ r ∈ roots, r < clauses.size) →
      Graph.Bounded (Linked.next (Linked.compact clauses roots).1)
          (Linked.compact clauses roots).1.size ∧
        Linked.PartsFirst (Linked.compact clauses roots).1) ∧
    ∀ clauses : Array Linked, Graph.Bounded (Linked.next clauses) clauses.size →
      Linked.PartsFirst clauses →
      ((∃ form, table clauses = .error (.lookaheadCycle form)) ↔
        ∃ i, isNegative clauses i = true ∧ Graph.LeadsTo (Linked.next clauses) i i) ∧
      (∀ e, table clauses = .error e → ∃ i, isNegative clauses i = true ∧
        Graph.LeadsTo (Linked.next clauses) i i ∧
        e = .lookaheadCycle (Linked.clause clauses i).form) ∧
      ((∀ i, isNegative clauses i = true → ¬Graph.LeadsTo (Linked.next clauses) i i) →
        ∃ layers, table clauses = .ok layers ∧ layers.size = clauses.size ∧
          ∀ c layer, layers[c]? = some layer →
            (layer.acyclic = true ↔ ∀ j, Graph.Reaches (Linked.next clauses) c j →
              ¬Graph.LeadsTo (Linked.next clauses) j j) ∧
            IsGreatest (heights clauses (fun i => (layers[i]?.getD default).acyclic) c)
              layer.stratum) := by
  refine ⟨fun clauses roots hb hroots => ⟨(Linked.compact_lt hb hroots).1,
    Linked.compact_partsFirst hb hroots⟩, fun clauses hb hfirst => ⟨⟨?_, ?_⟩,
    fun e he => table_error hb he, fun hfree => ?_⟩⟩
  · rintro ⟨form, hform⟩
    obtain ⟨i, hneg, hcycle, _⟩ := table_error hb hform
    exact ⟨i, hneg, hcycle⟩
  · rintro ⟨i, hneg, hcycle⟩
    cases htable : table clauses with
    | ok layers => exact absurd hcycle ((table_ok hb htable).2.1 i hneg)
    | error e =>
        obtain ⟨j, _, _, rfl⟩ := table_error hb htable
        exact ⟨_, rfl⟩
  · obtain ⟨layers, htable⟩ := exists_table hb hfree
    obtain ⟨hsize, _, hmarked, hgreatest⟩ := table_ok hb htable
    refine ⟨layers, htable, hsize, fun c layer hlayer => ?_⟩
    have hc : c < clauses.size := hsize ▸ (Array.getElem?_eq_some_iff.mp hlayer).1
    have hmark := hmarked c
    have hheight := hgreatest c hc
    rw [hlayer, Option.getD_some] at hmark hheight
    simp only [hmarked]
    exact ⟨hmark ▸ isMarked_iff hb hfirst hc, hheight⟩

/-- A recursive rule, and one that looks whether it does not match. -/
def aloof : List Definition :=
  [.plain "S" (.seq [.notFollowedBy (.reference "X"), .char 'b']),
    .plain "X" (.first [.seq [.reference "X", .char 'a'], .char 'a'])]

theorem aloof_lies_one_layer_higher :
    ∃ clauses roots layers layer, linkDefinitions aloof = .ok (clauses, roots) ∧
      table clauses = .ok layers ∧ layers[3]? = some layer ∧ isNegative clauses 3 = true ∧
      layer.acyclic = false ∧
      IsGreatest (heights clauses (fun i => (layers[i]?.getD default).acyclic) 3) 1 := by
  have hfacts : ((linkDefinitions aloof).toOption.any fun linked =>
      (table linked.1).toOption.any fun layers =>
        isNegative linked.1 3 && decide (layers[3]? = some ⟨false, 1⟩)) = true := by
    decide +kernel
  cases hlinked : linkDefinitions aloof with
  | error e => simp [hlinked, Except.toOption] at hfacts
  | ok linked =>
      obtain ⟨clauses, roots⟩ := linked
      cases htable : table clauses with
      | error e => simp [hlinked, htable, Except.toOption] at hfacts
      | ok layers =>
          simp only [hlinked, htable, Except.toOption, Option.any_some, Bool.and_eq_true,
            decide_eq_true_eq] at hfacts
          obtain ⟨hneg, hlayer⟩ := hfacts
          have hexact := table_is_exact.2 clauses (linkDefinitions_lt hlinked).1
            (linkDefinitions_partsFirst hlinked)
          have hfree : ∀ i, isNegative clauses i = true →
              ¬Graph.LeadsTo (Linked.next clauses) i i := by
            intro i hi hcycle
            obtain ⟨form, hform⟩ := hexact.1.mpr ⟨i, hi, hcycle⟩
            rw [htable] at hform
            cases hform
          obtain ⟨layers', htable', _, hlayers⟩ := hexact.2.2 hfree
          obtain rfl : layers = layers' := Except.ok.inj (htable.symm.trans htable')
          exact ⟨clauses, roots, layers, _, rfl, htable, hlayer, hneg, rfl, (hlayers 3 _ hlayer).2⟩

end BottomUpPeg.Layer
