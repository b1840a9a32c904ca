import BottomUpPeg.Proofs.Interning
import BottomUpPeg.Proofs.Naming

namespace BottomUpPeg

namespace Arena

variable {arena arena' : Arena} {i : Nat}

theorem find?_eq_some_iff {form : String} :
    arena.find? form = some i ↔
      i < arena.size ∧ (arena.draft i).form = form ∧ ∀ j < i, (arena.draft j).form ≠ form := by
  rw [find?, List.findIdx?_eq_some_iff_getElem]
  have hdraft : ∀ j, (h : j < arena.toList.length) → arena.toList[j] = arena.draft j := by
    intro j h
    have hj : j < arena.size := by simpa using h
    simp [draft, hj]
  constructor
  · rintro ⟨hi, hform, hbefore⟩
    refine ⟨by simpa using hi, by simpa [hdraft] using hform, fun j hj => ?_⟩
    simpa [hdraft] using hbefore j hj
  · rintro ⟨hi, hform, hbefore⟩
    refine ⟨by simpa using hi, by simpa [hdraft] using hform, fun j hj => ?_⟩
    simpa [hdraft] using hbefore j hj

theorem find?_of_extends (h : arena.Extends arena') {form : String}
    (hfound : arena.find? form = some i) : arena'.find? form = some i := by
  obtain ⟨hi, hform, hbefore⟩ := find?_eq_some_iff.mp hfound
  refine find?_eq_some_iff.mpr ⟨Nat.lt_of_lt_of_le hi h.1, ?_, fun j hj => ?_⟩
  · rw [h.2 i hi, hform]
  · rw [h.2 j (hj.trans hi)]
    exact hbefore j hj

theorem bodyForm_of_extends (h : arena.Extends arena') {body : Body}
    (hbody : ∀ j ∈ body.children, j < arena.size) : arena'.bodyForm body = arena.bodyForm body := by
  have hslot : ∀ slot : Slot, slot.clause < arena.size → ∀ parent,
      arena'.slotForm parent slot = arena.slotForm parent slot := by
    intro slot hslot parent
    rw [slotForm, slotForm, h.2 _ hslot]
  cases body with
  | reference rule => rfl
  | shape s =>
      cases s with
      | terminal t => rfl
      | group kind slots =>
          have hslots : slots.map (arena'.slotForm (Shape.group kind slots).strength) =
              slots.map (arena.slotForm (Shape.group kind slots).strength) :=
            List.map_congr_left fun slot hmem =>
              hslot slot (hbody _ (List.mem_map_of_mem hmem)) _
          cases kind <;> simp only [bodyForm, shapeForm, hslots]
      | unary kind slot =>
          have hpart := hslot slot (hbody _ (List.mem_singleton_self _))
          cases kind <;> simp only [bodyForm, shapeForm, hpart]

theorem find?_add (arena : Arena) (body : Body) :
    (arena.add body).2.find? (arena.bodyForm body) = some (arena.add body).1 := by
  rw [add]
  split
  · assumption
  · rename_i hnone
    refine find?_eq_some_iff.mpr ⟨by simp, by rw [draft_push, if_pos rfl], fun j hj => ?_⟩
    rw [draft_push, if_neg (Nat.ne_of_lt hj)]
    exact ne_of_find?_eq_none hnone hj

theorem add_again {body : Body} (hbody : ∀ j ∈ body.children, j < arena.size)
    (h : (arena.add body).2.Extends arena') : arena'.add body = ((arena.add body).1, arena') := by
  have hform := bodyForm_of_extends ((extends_add arena body).trans h) hbody
  rw [add, hform, find?_of_extends h (find?_add arena body)]

mutual

theorem intern_invariant (P : Arena → Prop) (hadd : ∀ arena body, P arena → P (arena.add body).2) :
    (e : Expr) → (arena : Arena) → P arena → P (intern e arena).2
  | .terminal _, _, h | .reference _, _, h => hadd _ _ h
  | .group _ items, arena, h => hadd _ _ (internSlots_invariant P hadd items arena h)
  | .unary _ item, arena, h => hadd _ _ (intern_invariant P hadd item arena h)
  | .label _ item, arena, h => intern_invariant P hadd item arena h

theorem internSlots_invariant (P : Arena → Prop)
    (hadd : ∀ arena body, P arena → P (arena.add body).2) :
    (es : List Expr) → (arena : Arena) → P arena → P (internSlots es arena).2
  | [], _, h => h
  | e :: rest, arena, h =>
      internSlots_invariant P hadd rest _ (intern_invariant P hadd e arena h)

end

theorem internAll_invariant (P : Arena → Prop)
    (hadd : ∀ arena body, P arena → P (arena.add body).2) (ds : List Definition) (h : P arena) :
    P (internAll ds arena).2 := by
  induction ds generalizing arena with
  | nil => exact h
  | cons d ds ih => exact ih (intern_invariant P hadd d.body arena h)

theorem extends_internSlots (es : List Expr) (arena : Arena) :
    arena.Extends (internSlots es arena).2 :=
  internSlots_invariant arena.Extends (fun _ _ h => h.trans (extends_add _ _)) es arena (.refl arena)

theorem extends_internAll (ds : List Definition) (arena : Arena) :
    arena.Extends (internAll ds arena).2 :=
  internAll_invariant arena.Extends (fun _ _ h => h.trans (extends_add _ _)) ds (.refl arena)

mutual

theorem intern_again : (e : Expr) → (arena : Arena) → arena.Closed →
    (intern e arena).2.Extends arena' → intern e arena' = ((intern e arena).1, arena')
  | .terminal t, arena, _, h =>
      add_again (by simp [Body.children, Shape.children, Shape.slots]) h
  | .reference rule, arena, _, h => add_again (by simp [Body.children]) h
  | .group kind items, arena, hclosed, h => by
      have hslots := (internSlots_grows items arena hclosed).2.2
      have hitems := internSlots_again items arena hclosed ((extends_add _ _).trans h)
      rw [intern, hitems]
      exact add_again (by simpa [Body.children, Shape.children, Shape.slots] using hslots) h
  | .unary kind item, arena, hclosed, h => by
      have hlt := (intern_grows item arena hclosed).lt_size
      have hitem := intern_again item arena hclosed ((extends_add _ _).trans h)
      rw [intern, hitem]
      exact add_again (by simpa [Body.children, Shape.children, Shape.slots] using hlt) h
  | .label _ item, arena, hclosed, h => intern_again item arena hclosed h

theorem internSlots_again : (es : List Expr) → (arena : Arena) → arena.Closed →
    (internSlots es arena).2.Extends arena' →
      internSlots es arena' = ((internSlots es arena).1, arena')
  | [], _, _, _ => rfl
  | e :: rest, arena, hclosed, h => by
      have hrest := internSlots_again rest _ (intern_grows e arena hclosed).closed h
      have he := intern_again e arena hclosed ((extends_internSlots rest _).trans h)
      rw [internSlots, he]
      simp only [hrest]
      rfl

end

mutual

theorem intern_of_mem_numbered : (e : Expr) → (arena : Arena) → arena.Closed →
    (intern e arena).2.Extends arena' → ∀ p ∈ numbered e arena, intern p.1 arena' = (p.2, arena')
  | .terminal t, arena, hclosed, h => by
      simpa [numbered] using intern_again (.terminal t) arena hclosed h
  | .reference rule, arena, hclosed, h => by
      simpa [numbered] using intern_again (.reference rule) arena hclosed h
  | .group kind items, arena, hclosed, h => by
      refine List.forall_mem_cons.mpr ⟨intern_again (.group kind items) arena hclosed h, ?_⟩
      exact intern_of_mem_numberedSlots items arena hclosed ((extends_add _ _).trans h)
  | .unary kind item, arena, hclosed, h => by
      refine List.forall_mem_cons.mpr ⟨intern_again (.unary kind item) arena hclosed h, ?_⟩
      exact intern_of_mem_numbered item arena hclosed ((extends_add _ _).trans h)
  | .label name item, arena, hclosed, h => by
      refine List.forall_mem_cons.mpr ⟨intern_again (.label name item) arena hclosed h, ?_⟩
      exact intern_of_mem_numbered item arena hclosed h

theorem intern_of_mem_numberedSlots : (es : List Expr) → (arena : Arena) → arena.Closed →
    (internSlots es arena).2.Extends arena' →
      ∀ p ∈ numberedSlots es arena, intern p.1 arena' = (p.2, arena')
  | [], _, _, _ => by simp [numberedSlots]
  | e :: rest, arena, hclosed, h => by
      refine List.forall_mem_append.mpr ⟨?_, ?_⟩
      · exact intern_of_mem_numbered e arena hclosed ((extends_internSlots rest _).trans h)
      · exact intern_of_mem_numberedSlots rest _ (intern_grows e arena hclosed).closed h

end

theorem intern_of_mem_numberedAll {ds : List Definition} (hclosed : arena.Closed)
    (h : (internAll ds arena).2.Extends arena') :
    ∀ p ∈ numberedAll ds arena, intern p.1 arena' = (p.2, arena') := by
  induction ds generalizing arena with
  | nil => simp [numberedAll]
  | cons d ds ih =>
      refine List.forall_mem_append.mpr ⟨?_, ih (intern_grows d.body arena hclosed).closed h⟩
      exact intern_of_mem_numbered d.body arena hclosed ((extends_internAll ds _).trans h)

theorem intern_roots {ds : List Definition} (hclosed : arena.Closed)
    (h : (internAll ds arena).2.Extends arena') :
    List.Forall₂ (fun d root => intern d.body arena' = (root, arena')) ds
      (internAll ds arena).1 := by
  induction ds generalizing arena with
  | nil => exact .nil
  | cons d ds ih =>
      refine .cons ?_ (ih (intern_grows d.body arena hclosed).closed h)
      exact intern_again d.body arena hclosed ((extends_internAll ds _).trans h)

def Keyed (arena : Arena) : Prop := ∀ i < arena.size, arena.find? (arena.draft i).form = some i

theorem add_keyed (h : arena.Keyed) (body : Body) : Keyed (arena.add body).2 := by
  have hnew := find?_add arena body
  rw [add] at hnew ⊢
  split at hnew
  · exact h
  · intro i hi
    rcases Nat.lt_succ_iff_lt_or_eq.mp (by simpa using hi) with hi | rfl
    · rw [(extends_push arena _).2 i hi]
      exact find?_of_extends (extends_push arena _) (h i hi)
    · rw [draft_push, if_pos rfl]
      exact hnew

theorem internAll_keyed (ds : List Definition) : Keyed (internAll ds #[]).2 :=
  internAll_invariant Keyed (fun _ body h => add_keyed h body) ds (by simp [Keyed])

end Arena

namespace Faithful

variable {arena : Arena} {roots : List (String × Nat)} {clauses : Array Linked}
  {targets origin : List Nat}

theorem eq_of_form_eq (h : Faithful arena roots clauses targets origin) (hkeyed : arena.Keyed)
    {i j : Nat} (hi : i < clauses.size) (hj : j < clauses.size)
    (hform : (Linked.clause clauses i).form = (Linked.clause clauses j).form) : i = j := by
  have hfound : ∀ k, (hk : k < origin.length) →
      arena.find? (Linked.clause clauses k).form = some origin[k] := by
    intro k hk
    obtain ⟨hd, _, _, _, hclause, _⟩ := h.copied k _ (List.getElem?_eq_getElem hk)
    rw [hclause]
    exact hkeyed _ hd
  rw [h.size_eq] at hi hj
  have hsame := hfound i hi
  rw [hform, hfound j hj, Option.some.injEq] at hsame
  exact (h.nodup.getElem_inj_iff.mp hsame).symm

theorem eq_of_root_eq (h : Faithful arena roots clauses targets origin) {r r' : String × Nat}
    {j j' : Nat} (hj : (r, j) ∈ roots.zip targets) (hj' : (r', j') ∈ roots.zip targets)
    (hroot : r.2 = r'.2) : j = j' := by
  obtain ⟨_, hends⟩ := List.forall₂_iff_zip.mp h.targets
  obtain ⟨t, ht, hget⟩ := hends hj
  obtain ⟨t', ht', hget'⟩ := hends hj'
  obtain rfl := ht.unique (hroot ▸ ht')
  obtain ⟨hlt, heq⟩ := List.getElem?_eq_some_iff.mp hget
  obtain ⟨hlt', heq'⟩ := List.getElem?_eq_some_iff.mp hget'
  exact h.nodup.getElem_inj_iff.mp (heq.trans heq'.symm)

end Faithful

namespace Grammar

theorem clause_linked (g : Grammar) {i : Nat} (hi : i < g.size) :
    Linked.clause g.linked i = ⟨g.shape i, (g.clause i).form⟩ := by
  have hi' : i < g.clauses.size := hi
  simp [Linked.clause, linked, shape, clause, hi']

theorem clauseByForm?_eq_some_iff {g : Grammar}
    (h : ∀ i < g.size, ∀ j < g.size, (g.clause i).form = (g.clause j).form → i = j)
    {form : String} {i : Nat} :
    g.clauseByForm? form = some i ↔ i < g.size ∧ (g.clause i).form = form := by
  have hclause : ∀ j, (hj : j < g.clauses.toList.length) → g.clauses.toList[j] = g.clause j := by
    intro j hj
    have hj' : j < g.clauses.size := by simpa using hj
    simp [clause, hj']
  rw [clauseByForm?, List.findIdx?_eq_some_iff_getElem]
  constructor
  · rintro ⟨hi, hform, _⟩
    exact ⟨by simpa [size] using hi, by simpa [hclause] using hform⟩
  · rintro ⟨hi, rfl⟩
    refine ⟨by simpa [size] using hi, by simp [hclause], fun j hj => ?_⟩
    simpa [hclause] using fun hform => Nat.ne_of_lt hj (h j (hj.trans hi) i hi hform)

end Grammar

namespace Source

variable {source : Source} {g : Grammar}

theorem compile_forms (hg : source.compile = .ok g) :
    ∀ i < g.size, ∀ j < g.size, (g.clause i).form = (g.clause j).form → i = j := by
  intro i hi j hj hform
  obtain ⟨ds, _, hlinked, _⟩ := compile_linked hg
  obtain ⟨origin, hfaithful⟩ := Arena.linkDefinitions_faithful hlinked
  have hsize : g.linked.size = g.size := by simp [Grammar.linked, Grammar.size]
  refine hfaithful.eq_of_form_eq (Arena.internAll_keyed ds) (hsize ▸ hi) (hsize ▸ hj) ?_
  rw [g.clause_linked hi, g.clause_linked hj]
  exact hform

theorem exists_rule_of_mem (hg : source.compile = .ok g) {ds : List Definition}
    (hnames : g.rules.map (·.name) = ds.map (·.name)) {d : Definition} (hd : d ∈ ds) :
    ∃ r, g.rule? d.name = some r ∧
      ((d.name, (Arena.intern d.body (Arena.internAll ds #[]).2).1), r.clause) ∈
        (Arena.rootsOf ds).zip (g.rules.map (·.clause)) := by
  obtain ⟨k, hk, rfl⟩ := List.getElem_of_mem hd
  have hroots := Arena.intern_roots Arena.closed_empty (.refl (Arena.internAll ds #[]).2)
  have hlength : g.rules.length = ds.length := by simpa using congrArg List.length hnames
  have hk' : k < g.rules.length := hlength ▸ hk
  have hname : g.rules[k].name = ds[k].name := by
    simpa [hk, hk'] using congrArg (·[k]?) hnames
  have hroot := hroots.get hk (hroots.length_eq ▸ hk)
  simp only [List.get_eq_getElem] at hroot
  refine ⟨g.rules[k], hname ▸ Grammar.rule?_of_mem hg (List.getElem_mem hk'), ?_⟩
  refine List.mem_iff_getElem.mpr ⟨k, ?_, ?_⟩
  · simp [Arena.rootsOf, ← hroots.length_eq, hk, hk']
  · simp [Arena.rootsOf, hroot]

theorem clauses_are_known_by_form :
    (∀ (ds more : List Definition) (e : Expr),
      let first := Arena.intern e (Arena.internAll ds #[]).2
      let later := (Arena.internAll more first.2).2
      Arena.intern e later = (first.1, later)) ∧
    (∀ ds more : List Definition, ∀ p ∈ Arena.numberedAll ds #[],
      let later := (Arena.internAll more (Arena.internAll ds #[]).2).2
      Arena.intern p.1 later = (p.2, later)) ∧
    ∀ (source : Source) (g : Grammar), source.compile = .ok g →
      (∀ i < g.size, ∀ j < g.size, (g.clause i).form = (g.clause j).form → i = j) ∧
      (∀ form i, g.clauseByForm? form = some i ↔ i < g.size ∧ (g.clause i).form = form) ∧
      ∃ ds, source.definitionsChecked = .ok ds ∧ g.rules.map (·.name) = ds.map (·.name) ∧
        (∀ d, Definition.Sole source.definitions d → d ∈ ds) ∧
        ∀ d ∈ ds, ∀ d' ∈ ds, d.body = d'.body →
          ∃ r r', g.rule? d.name = some r ∧ g.rule? d'.name = some r' ∧ r.clause = r'.clause := by
  have hclosed : ∀ ds, (Arena.internAll ds #[]).2.Closed := fun ds =>
    (Arena.internAll_grows ds #[] Arena.closed_empty).2.1
  refine ⟨fun ds more e => ?_, fun ds more p hp => ?_, fun source g hg => ?_⟩
  · exact Arena.intern_again e _ (hclosed ds) (Arena.extends_internAll more _)
  · exact Arena.intern_of_mem_numberedAll Arena.closed_empty (Arena.extends_internAll more _) p hp
  · obtain ⟨ds, hds, hlinked, hnames⟩ := compile_linked hg
    obtain ⟨origin, hfaithful⟩ := Arena.linkDefinitions_faithful hlinked
    have hforms := compile_forms hg
    refine ⟨hforms, fun form i => Grammar.clauseByForm?_eq_some_iff hforms, ds, hds, hnames,
      fun d => Definition.mem_of_sole (definitionsChecked_ok hds).1, fun d hd d' hd' hbody => ?_⟩
    obtain ⟨r, hr, hzip⟩ := exists_rule_of_mem hg hnames hd
    obtain ⟨r', hr', hzip'⟩ := exists_rule_of_mem hg hnames hd'
    exact ⟨r, r', hr, hr', hfaithful.eq_of_root_eq hzip hzip' (by rw [hbody])⟩

/-- Two rules with one body, whose parts stand in a third as well. -/
def twins : Source where
  definitions := [
    .plain "A" (.label "x" (.seq [.char 'a', .label "c" (.reference "C")])),
    .plain "B" (.label "x" (.seq [.char 'a', .label "c" (.reference "C")])),
    .plain "C" (.first [.seq [.char 'a', .label "c" (.reference "C")], .char 'a'])]
  lexical := none

theorem twins_share_a_clause :
    ∃ g r r', twins.compile = .ok g ∧ g.rule? "A" = some r ∧ g.rule? "B" = some r' ∧
      r.clause = r'.clause ∧ 0 < g.size ∧ g.clauseByForm? (g.clause 0).form = some 0 := by
  have hsize : twins.compile.toOption.any (fun g => decide (0 < g.size)) = true := by
    decide +kernel
  obtain ⟨g, hg, hsize⟩ := exists_of_compile_any hsize
  obtain ⟨_, hforms, ds, _, _, hsole, hbodies⟩ := clauses_are_known_by_form.2.2 twins g hg
  have hA := hsole (.plain "A" (.label "x" (.seq [.char 'a', .label "c" (.reference "C")])))
    (by decide +kernel)
  have hB := hsole (.plain "B" (.label "x" (.seq [.char 'a', .label "c" (.reference "C")])))
    (by decide +kernel)
  obtain ⟨r, r', hr, hr', hclause⟩ := hbodies _ hA _ hB rfl
  have hsize : 0 < g.size := of_decide_eq_true hsize
  exact ⟨g, r, r', hg, hr, hr', hclause, hsize, (hforms _ 0).mpr ⟨hsize, rfl⟩⟩

end Source

end BottomUpPeg
