import BottomUpPeg.Proofs.Climbing
import BottomUpPeg.Proofs.Faithful

namespace BottomUpPeg

namespace Definition

variable {ds out : List Definition} {d : Definition}

theorem nodup_of_repeatedName? {seen : List String} (h : repeatedName? seen ds = none) :
    (ds.map (·.name)).Nodup ∧ ∀ d ∈ ds, d.name ∉ seen := by
  induction ds generalizing seen with
  | nil => simp
  | cons d ds ih =>
      rw [repeatedName?] at h
      split at h
      · cases h
      · rename_i hd
        obtain ⟨hnodup, hnew⟩ := ih h
        refine ⟨?_, List.forall_mem_cons.mpr ⟨hd, fun e he hseen => ?_⟩⟩
        · rw [List.map_cons, List.nodup_cons, List.mem_map]
          refine ⟨?_, hnodup⟩
          rintro ⟨e, he, heq⟩
          exact hnew e he (heq ▸ List.mem_cons_self ..)
        · exact hnew e he (List.mem_cons_of_mem _ hseen)

theorem mem_of_sole (h : expandLevels ds = .ok out) (hd : Sole ds d) : d ∈ out := by
  have hmem : d ∈ ds.filter (·.name = d.name) := hd ▸ List.mem_singleton_self d
  have hname := mem_names.mpr ⟨d, (List.mem_filter.mp hmem).1, rfl⟩
  obtain ⟨group, hsub, hexpand⟩ := (expandLevels_ok h).1 d.name hname
  rw [hd] at hexpand
  rcases expandName_ok (by simp) hexpand with ⟨e, he, rfl⟩ | ⟨hlength, _⟩
  · cases he
    exact hsub (List.mem_singleton_self d)
  · exact absurd rfl hlength

end Definition

theorem Source.definitionsChecked_ok {source : Source} {ds : List Definition}
    (h : source.definitionsChecked = .ok ds) :
    Definition.expandLevels source.definitions = .ok ds ∧ (ds.map (·.name)).Nodup := by
  have hexpand : Definition.expandLevels source.definitions = .ok ds ∧
      Definition.repeatedName? [] ds = none := by
    simp only [definitionsChecked, bind, Except.bind] at h
    split at h
    · cases h
    split at h
    · cases h
    split at h
    · cases h
    rename_i hexpand
    split at h
    · cases h
    rename_i hrepeated
    split at h
    · cases h
    split at h
    · cases h
      exact ⟨hexpand, hrepeated⟩
    split at h
    · cases h
      exact ⟨hexpand, hrepeated⟩
    · cases h
  exact ⟨hexpand.1, (Definition.nodup_of_repeatedName? hexpand.2).1⟩

namespace Grammar

variable {source : Source} {g : Grammar} {rule : Rule}

theorem rule?_of_nodup (hnodup : (g.rules.map (·.name)).Nodup) (h : rule ∈ g.rules) :
    g.rule? rule.name = some rule := by
  cases hfound : g.rule? rule.name with
  | none => simpa using List.find?_eq_none.mp hfound rule h
  | some other =>
      have hname : other.name = rule.name := by simpa using List.find?_some hfound
      rw [List.inj_on_of_nodup_map hnodup (List.mem_of_find?_eq_some hfound) h hname]

theorem rule?_of_mem (hg : source.compile = .ok g) (h : rule ∈ g.rules) :
    g.rule? rule.name = some rule := by
  obtain ⟨ds, hds, _, hnames⟩ := Source.compile_linked hg
  exact rule?_of_nodup (hnames ▸ (Source.definitionsChecked_ok hds).2) h

theorem ruleOf_of_mem (hg : source.compile = .ok g) (h : rule ∈ g.rules) :
    g.ruleOf rule.name = .ok rule := by
  rw [ruleOf, rule?_of_mem hg h]

theorem ruleOf_of_unknown {name : String} (h : ∀ rule ∈ g.rules, rule.name ≠ name) :
    g.ruleOf name = .error (.unknownRule name) := by
  have hnone : g.rule? name = none := List.find?_eq_none.mpr (by simpa using h)
  rw [ruleOf, hnone]

end Grammar

end BottomUpPeg
