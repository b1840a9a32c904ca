import BottomUpPeg.Proofs.LevelOrder
import BottomUpPeg.Proofs.Linking

namespace BottomUpPeg

namespace Expr

variable {old new : String}

inductive Redirects (old new : String) : Expr → Expr → Prop
  | terminal (t : Terminal) : Redirects old new (.terminal t) (.terminal t)
  | redirected : Redirects old new (.reference old) (.reference new)
  | kept {rule : String} : rule ≠ old → Redirects old new (.reference rule) (.reference rule)
  | group {kind : Group} {items items' : List Expr} :
      List.Forall₂ (Redirects old new) items items' →
        Redirects old new (.group kind items) (.group kind items')
  | unary {kind : Unary} {item item' : Expr} : Redirects old new item item' →
      Redirects old new (.unary kind item) (.unary kind item')
  | label {name : String} {item item' : Expr} : Redirects old new item item' →
      Redirects old new (.label name item) (.label name item')

mutual

theorem redirects_iff : (e e' : Expr) → (Redirects old new e e' ↔ e' = e.rename old new)
  | .terminal t, e' => by
      rw [rename]
      constructor
      · rintro ⟨⟩
        rfl
      · rintro rfl
        exact .terminal t
  | .reference rule, e' => by
      rw [rename]
      split
      · rename_i heq
        subst heq
        constructor
        · intro h
          cases h with
          | redirected => rfl
          | kept hne => exact absurd rfl hne
        · rintro rfl
          exact .redirected
      · rename_i hne
        constructor
        · intro h
          cases h with
          | redirected => exact absurd rfl hne
          | kept _ => rfl
        · rintro rfl
          exact .kept hne
  | .group kind items, e' => by
      rw [rename]
      constructor
      · intro h
        cases h with
        | group hitems => rw [(redirectsAll_iff items _).mp hitems]
      · rintro rfl
        exact .group ((redirectsAll_iff items _).mpr rfl)
  | .unary kind item, e' => by
      rw [rename]
      constructor
      · intro h
        cases h with
        | unary hitem => rw [(redirects_iff item _).mp hitem]
      · rintro rfl
        exact .unary ((redirects_iff item _).mpr rfl)
  | .label name item, e' => by
      rw [rename]
      constructor
      · intro h
        cases h with
        | label hitem => rw [(redirects_iff item _).mp hitem]
      · rintro rfl
        exact .label ((redirects_iff item _).mpr rfl)

theorem redirectsAll_iff : (es es' : List Expr) →
    (List.Forall₂ (Redirects old new) es es' ↔ es' = renameAll old new es)
  | [], es' => by rw [List.forall₂_nil_left_iff, renameAll]
  | e :: es, es' => by
      rw [List.forall₂_cons_left_iff, renameAll]
      constructor
      · rintro ⟨e', rest, he, hes, rfl⟩
        rw [(redirects_iff e _).mp he, (redirectsAll_iff es _).mp hes]
      · rintro rfl
        exact ⟨_, _, (redirects_iff e _).mpr rfl, (redirectsAll_iff es _).mpr rfl, rfl⟩

end

mutual

theorem rename_self (rule : String) : (e : Expr) → e.rename rule rule = e
  | .terminal _ => by rw [rename]
  | .reference name => by
      rw [rename]
      split
      · rename_i heq
        rw [heq]
      · rfl
  | .group _ items => by rw [rename, renameAll_self rule items]
  | .unary _ item => by rw [rename, rename_self rule item]
  | .label _ item => by rw [rename, rename_self rule item]

theorem renameAll_self (rule : String) : (es : List Expr) → renameAll rule rule es = es
  | [] => by rw [renameAll]
  | e :: es => by rw [renameAll, rename_self rule e, renameAll_self rule es]

end

theorem redirects_self (e : Expr) (rule : String) : Redirects rule rule e e :=
  (redirects_iff e e).mpr (rename_self rule e).symm

theorem countReferences_pos_iff {e : Expr} {rule : String} :
    0 < e.countReferences rule ↔ rule ∈ e.references := List.count_pos_iff

end Expr

namespace Definition

variable {ds : List Definition} {d : Definition}

def Sole (ds : List Definition) (d : Definition) : Prop := ds.filter (·.name = d.name) = [d]

instance (ds : List Definition) (d : Definition) : Decidable (Sole ds d) :=
  inferInstanceAs (Decidable (ds.filter (·.name = d.name) = [d]))

theorem sole_of_mem (hnodup : (ds.map (·.name)).Nodup) (hd : d ∈ ds) : Sole ds d := by
  obtain ⟨before, after, rfl⟩ := List.append_of_mem hd
  rw [List.map_append, List.map_cons, List.nodup_middle, ← List.map_append, List.nodup_cons] at hnodup
  have hothers : ∀ es ⊆ before ++ after, es.filter (·.name = d.name) = [] := by
    intro es hes
    refine List.filter_eq_nil_iff.mpr fun e he heq => hnodup.1 ?_
    exact List.mem_map.mpr ⟨e, hes he, of_decide_eq_true heq⟩
  rw [Sole, List.filter_append, List.filter_cons_of_pos (by simp),
    hothers before (List.subset_append_left ..), hothers after (List.subset_append_right ..)]
  rfl

end Definition

namespace Level

variable {name : String} {levels : List Level} {out : List Definition} {d : Definition}

theorem mem_rules : d ∈ rules name levels ↔ ∃ l above, l :: above <:+ levels ∧
    d = ⟨l.ruleName name, some l.rank, l.body.rename name (target name above)⟩ := by
  induction levels with
  | nil => simp [rules]
  | cons m levels ih =>
      rw [rules, List.mem_cons, ih]
      constructor
      · rintro (rfl | ⟨l, above, hl, hd⟩)
        · exact ⟨m, levels, List.suffix_rfl, rfl⟩
        · exact ⟨l, above, hl.trans (List.suffix_cons ..), hd⟩
      · rintro ⟨l, above, hl, hd⟩
        rcases List.suffix_cons_iff.mp hl with heq | hl
        · cases heq
          exact .inl hd
        · exact .inr ⟨l, above, hl, hd⟩

theorem mem_selectors : d ∈ selectors name levels ↔ ∃ l above, l :: above <:+ levels ∧
    2 ≤ above.length ∧ name ∈ l.body.references ∧ d = ⟨target name above, none, choice name above⟩ := by
  induction levels with
  | nil => simp [selectors]
  | cons m levels ih =>
      have hcons : d ∈ selectors name (m :: levels) ↔
          (2 ≤ levels.length ∧ name ∈ m.body.references ∧
            d = ⟨target name levels, none, choice name levels⟩) ∨ d ∈ selectors name levels := by
        simp only [selectors, Expr.countReferences_pos_iff]
        split
        · rename_i hemitted
          rw [List.mem_cons]
          exact or_congr_left ⟨fun hd => ⟨hemitted.1, hemitted.2, hd⟩, fun hd => hd.2.2⟩
        · rename_i hnot
          exact (or_iff_right fun hd => hnot ⟨hd.1, hd.2.1⟩).symm
      rw [hcons, ih]
      constructor
      · rintro (hd | ⟨l, above, hl, hd⟩)
        · exact ⟨m, levels, List.suffix_rfl, hd⟩
        · exact ⟨l, above, hl.trans (List.suffix_cons ..), hd⟩
      · rintro ⟨l, above, hl, hd⟩
        rcases List.suffix_cons_iff.mp hl with heq | hl
        · cases heq
          exact .inl hd
        · exact .inr ⟨l, above, hl, hd⟩

theorem mem_expand : d ∈ expand name levels ↔
    d = ⟨name, none, choice name levels⟩ ∨ d ∈ rules name levels ∨ d ∈ selectors name levels := by
  simp [expand]

def Offers (out : List Definition) (name target : String) : List Level → Prop
  | [l] => target = l.ruleName name
  | levels => Definition.Sole out
      ⟨target, none, .group .first (levels.map fun l => .reference (l.ruleName name))⟩

/-- The name is defined as the choice of all its levels. In the body of a level its references lead
to the choice of the levels above, from the top level to all of them, and nothing else is changed. -/
structure Climbs (out : List Definition) (name : String) (levels : List Level) : Prop where
  whole : Offers out name name levels
  level : ∀ l above, l :: above <:+ levels → ∃ target body,
    Definition.Sole out ⟨l.ruleName name, some l.rank, body⟩ ∧ l.body.Redirects name target body ∧
      (above = [] → body = l.body) ∧
      (name ∈ l.body.references → Offers out name target (if above = [] then levels else above))

theorem offers_of_two (hlength : 2 ≤ levels.length) {target : String}
    (h : Definition.Sole out ⟨target, none, choice name levels⟩) : Offers out name target levels := by
  match levels, hlength with
  | _ :: _ :: _, _ => exact h

theorem climbs_of_expand (hlength : 2 ≤ levels.length)
    (h : ∀ d ∈ expand name levels, Definition.Sole out d) : Climbs out name levels := by
  have hwhole : Offers out name name levels := offers_of_two hlength (h _ (mem_expand.mpr (.inl rfl)))
  refine ⟨hwhole, fun l above hl => ?_⟩
  refine ⟨target name above, l.body.rename name (target name above),
    h _ (mem_expand.mpr (.inr (.inl (mem_rules.mpr ⟨l, above, hl, rfl⟩)))),
    (Expr.redirects_iff ..).mpr rfl, ?_, fun hrefers => ?_⟩
  · rintro rfl
    exact Expr.rename_self name l.body
  · match above with
    | [] => exact hwhole
    | [m] => exact rfl
    | m :: n :: above =>
        have hselector := mem_selectors.mpr ⟨l, _, hl, by simp, hrefers, rfl⟩
        exact h _ (mem_expand.mpr (.inr (.inr hselector)))

theorem mem_references_choice {rule : String} (h : rule ∈ (choice name levels).references) :
    ∃ l ∈ levels, l.ruleName name = rule := by
  rw [choice, Expr.references] at h
  induction levels with
  | nil => simp [Expr.referencesAll] at h
  | cons m levels ih =>
      rw [List.map_cons, Expr.referencesAll, List.mem_append] at h
      rcases h with h | h
      · exact ⟨m, List.mem_cons_self .., (List.mem_singleton.mp h).symm⟩
      · obtain ⟨l, hl, heq⟩ := ih h
        exact ⟨l, List.mem_cons_of_mem _ hl, heq⟩

theorem exists_rule {l : Level} (hl : l ∈ levels) :
    ∃ d ∈ expand name levels, d.name = l.ruleName name := by
  obtain ⟨below, above, rfl⟩ := List.append_of_mem hl
  have hl : l :: above <:+ below ++ l :: above := List.suffix_append below _
  exact ⟨_, mem_expand.mpr (.inr (.inl (mem_rules.mpr ⟨l, above, hl, rfl⟩))), rfl⟩

theorem exists_target {l : Level} {above : List Level} (hl : l :: above <:+ levels)
    (hrefers : name ∈ l.body.references) :
    ∃ d ∈ expand name levels, d.name = target name above := by
  match above with
  | [] => exact ⟨_, mem_expand.mpr (.inl rfl), rfl⟩
  | [m] => exact exists_rule (hl.subset (by simp))
  | m :: n :: above =>
      have hselector := mem_selectors.mpr ⟨l, _, hl, by simp, hrefers, rfl⟩
      exact ⟨_, mem_expand.mpr (.inr (.inr hselector)), rfl⟩

theorem body_of_mem_expand (hd : d ∈ expand name levels) :
    (∀ rule ∈ d.body.references, ∃ e ∈ expand name levels, e.name = rule) ∨
      ∃ l ∈ levels, ∃ target, l.body.Redirects name target d.body ∧
        (name ∈ l.body.references → ∃ e ∈ expand name levels, e.name = target) := by
  have hchoice : ∀ above ⊆ levels, ∀ rule ∈ (choice name above).references,
      ∃ e ∈ expand name levels, e.name = rule := by
    intro above habove rule hrule
    obtain ⟨l, hl, rfl⟩ := mem_references_choice hrule
    exact exists_rule (habove hl)
  rcases mem_expand.mp hd with rfl | hd | hd
  · exact .inl (hchoice levels (List.Subset.refl levels))
  · obtain ⟨l, above, hl, rfl⟩ := mem_rules.mp hd
    exact .inr ⟨l, hl.subset (List.mem_cons_self ..), target name above,
      (Expr.redirects_iff ..).mpr rfl, exists_target hl⟩
  · obtain ⟨l, above, hl, _, _, rfl⟩ := mem_selectors.mp hd
    exact .inl (hchoice above fun m hm => hl.subset (List.mem_cons_of_mem _ hm))

end Level

namespace Definition

variable {name : String} {ds out group : List Definition} {d : Definition}

theorem mem_names : name ∈ names ds ↔ ∃ d ∈ ds, d.name = name := by
  rw [names_eq, List.mem_eraseDups, List.mem_map]

theorem expandName_ok (hname : ∀ d ∈ ds, d.name = name) (h : expandName name ds = .ok group) :
    (∃ d, ds = [d] ∧ group = [d]) ∨
      ds.length ≠ 1 ∧ ∃ levels, Stacked name ds levels ∧ group = Level.expand name levels := by
  by_cases hlength : ds.length = 1
  · obtain ⟨d, rfl⟩ := List.length_eq_one_iff.mp hlength
    rw [expandName] at h
    split at h
    · cases h
    · cases h
      exact .inl ⟨d, rfl, rfl⟩
  · by_cases hstacked : ∃ levels, Stacked name ds levels
    · obtain ⟨levels, hlevels⟩ := hstacked
      rw [expandName_of_stacked hlength hlevels] at h
      cases h
      exact .inr ⟨hlength, levels, hlevels, rfl⟩
    · rw [expandName_of_not_stacked hlength hname (not_exists.mp hstacked)] at h
      cases h

theorem expandLevels_ok (h : expandLevels ds = .ok out) :
    (∀ name ∈ names ds, ∃ group ⊆ out, expandName name (ds.filter (·.name = name)) = .ok group) ∧
      ∀ d ∈ out, ∃ name ∈ names ds, ∃ group ⊆ out, d ∈ group ∧
        expandName name (ds.filter (·.name = name)) = .ok group := by
  rw [expandLevels] at h
  cases hgroups : (names ds).mapM fun name => expandName name (ds.filter (·.name = name)) with
  | error e =>
      rw [hgroups] at h
      cases h
  | ok groups =>
      rw [hgroups] at h
      cases h
      have hall := mapM_ok_forall₂ hgroups
      have hsub : ∀ group ∈ groups, group ⊆ groups.flatten := fun group hgroup d hd =>
        List.mem_flatten.mpr ⟨group, hgroup, hd⟩
      constructor
      · intro name hname
        obtain ⟨group, hgroup, hexpand⟩ := forall₂_mem_right hall.flip hname
        exact ⟨group, hsub group hgroup, hexpand⟩
      · intro d hd
        obtain ⟨group, hgroup, hd⟩ := List.mem_flatten.mp hd
        obtain ⟨name, hname, hexpand⟩ := forall₂_mem_right hall hgroup
        exact ⟨name, hname, group, hsub group hgroup, hd, hexpand⟩

theorem name_of_mem_filter (name : String) : ∀ d ∈ ds.filter (·.name = name), d.name = name :=
  fun _ hd => of_decide_eq_true (List.mem_filter.mp hd).2

theorem levels_climb (h : expandLevels ds = .ok out) (hnames : (out.map (·.name)).Nodup) :
    (∀ name, 2 ≤ (ds.filter (·.name = name)).length → ∃ levels : List Level,
      levels.Pairwise (·.rank < ·.rank) ∧
        (ds.filter (·.name = name)).Perm (levels.map fun l => .leveled name l.rank l.body) ∧
        Level.Climbs out name levels) ∧
      (∀ d, Sole ds d → Sole out d) ∧
      ∀ d ∈ out, (∀ rule ∈ d.body.references, ∃ e ∈ out, e.name = rule) ∨
        ∃ d' ∈ ds, ∃ target, d'.body.Redirects d'.name target d.body ∧
          (d'.name ∈ d'.body.references → ∃ e ∈ out, e.name = target) := by
  obtain ⟨hgroups, hout⟩ := expandLevels_ok h
  refine ⟨fun name htwo => ?_, fun d hd => ?_, fun d hd => ?_⟩
  · have hmem : name ∈ names ds := by
      obtain ⟨d, hd⟩ := List.exists_mem_of_length_pos (Nat.zero_lt_of_lt htwo)
      exact mem_names.mpr ⟨d, (List.mem_filter.mp hd).1, name_of_mem_filter name d hd⟩
    obtain ⟨group, hsub, hexpand⟩ := hgroups name hmem
    rcases expandName_ok (name_of_mem_filter name) hexpand with ⟨d, hd, _⟩ | ⟨_, levels, hlevels, rfl⟩
    · rw [hd] at htwo
      exact absurd htwo (by simp)
    · have hlength : levels.length = (ds.filter (·.name = name)).length := by
        rw [hlevels.perm.length_eq, List.length_map]
      exact ⟨levels, hlevels.ascending, hlevels.perm,
        Level.climbs_of_expand (hlength ▸ htwo) fun d hd => sole_of_mem hnames (hsub hd)⟩
  · have hmem : d ∈ ds.filter (·.name = d.name) := by
      rw [hd]
      exact List.mem_singleton_self d
    obtain ⟨group, hsub, hexpand⟩ := hgroups d.name (mem_names.mpr ⟨d, (List.mem_filter.mp hmem).1, rfl⟩)
    rw [hd] at hexpand
    rcases expandName_ok (by simp) hexpand with ⟨e, he, rfl⟩ | ⟨hlength, _⟩
    · cases he
      exact sole_of_mem hnames (hsub (List.mem_singleton_self d))
    · exact absurd rfl hlength
  · obtain ⟨name, _, group, hsub, hd, hexpand⟩ := hout d hd
    rcases expandName_ok (name_of_mem_filter name) hexpand with ⟨e, he, rfl⟩ | ⟨_, levels, hlevels, rfl⟩
    · obtain rfl := List.mem_singleton.mp hd
      have hmem : d ∈ ds := (List.mem_filter.mp (he ▸ List.mem_singleton_self d)).1
      exact .inr ⟨d, hmem, d.name, Expr.redirects_self .., fun _ => ⟨d, hsub hd, rfl⟩⟩
    · rcases Level.body_of_mem_expand hd with hdefined | ⟨l, hl, target, hbody, htarget⟩
      · left
        intro rule hrule
        obtain ⟨e, he, heq⟩ := hdefined rule hrule
        exact ⟨e, hsub he, heq⟩
      · right
        have hmem := hlevels.perm.mem_iff.mpr (List.mem_map_of_mem hl)
        refine ⟨Level.definition name l, (List.mem_filter.mp hmem).1, target, hbody, fun hrefers => ?_⟩
        obtain ⟨e, he, heq⟩ := htarget hrefers
        exact ⟨e, hsub he, heq⟩

theorem operators_climb :
    ∃ out levels, expandLevels (.plain "S" (.reference "E") :: operators) = .ok out ∧
      levels.map Level.rank = [-1, 0, 2] ∧ Level.Climbs out "E" levels ∧
      Sole out (.plain "S" (.reference "E")) := by
  have hfacts : ((expandLevels (.plain "S" (.reference "E") :: operators)).toOption.any fun out =>
      decide (out.map (·.name)).Nodup) = true := by
    decide +kernel
  cases hout : expandLevels (.plain "S" (.reference "E") :: operators) with
  | error e => simp [hout, Except.toOption] at hfacts
  | ok out =>
      simp only [hout, Except.toOption, Option.any_some, decide_eq_true_eq] at hfacts
      obtain ⟨hclimb, hsole, _⟩ := levels_climb hout hfacts
      obtain ⟨levels, hascending, hperm, hlevels⟩ := hclimb "E" (by decide)
      refine ⟨out, levels, rfl, ?_, hlevels, hsole _ (by decide +kernel)⟩
      have hranks : (levels.map Level.rank).Perm [2, 0, -1] := by
        simpa [Function.comp_def, plain, leveled, operators] using (hperm.filterMap (·.level)).symm
      refine (hranks.trans (by decide)).eq_of_pairwise (fun a b _ _ hab hba => ?_)
        (List.pairwise_map.mpr hascending) (by decide)
      exact absurd hab (Int.lt_asymm hba)

end Definition

end BottomUpPeg
