import BottomUpPeg.Proofs.Linking

namespace BottomUpPeg

theorem mapM_error_iff {ε α β : Type} {f : α → Except ε β} {xs : List α} {e : ε} :
    xs.mapM f = .error e ↔ ∃ before x after, xs = before ++ x :: after ∧
      (∀ y ∈ before, ∃ z, f y = .ok z) ∧ f x = .error e := by
  induction xs with
  | nil =>
      constructor
      · intro h
        cases h
      · rintro ⟨before, x, after, heq, _⟩
        simp at heq
  | cons x xs ih =>
      rw [List.mapM_cons]
      constructor
      · intro h
        cases hx : f x with
        | error e' =>
            rw [hx] at h
            cases h
            exact ⟨[], x, xs, rfl, by simp, hx⟩
        | ok y =>
            cases hxs : xs.mapM f with
            | ok ys => rw [hx, hxs] at h; cases h
            | error e' =>
                rw [hx, hxs] at h
                cases h
                obtain ⟨before, x', after, rfl, hbefore, hx'⟩ := ih.mp hxs
                exact ⟨x :: before, x', after, rfl,
                  List.forall_mem_cons.mpr ⟨⟨y, hx⟩, hbefore⟩, hx'⟩
      · rintro ⟨before, x', after, heq, hbefore, hx'⟩
        cases before with
        | nil =>
            cases heq
            rw [hx']
            rfl
        | cons y before =>
            cases heq
            obtain ⟨⟨z, hz⟩, hbefore⟩ := List.forall_mem_cons.mp hbefore
            rw [hz, ih.mpr ⟨before, x', after, rfl, hbefore, hx'⟩]
            rfl

theorem mapM_error_mem {ε α β : Type} {f : α → Except ε β} {xs : List α} {e : ε}
    (h : xs.mapM f = .error e) : ∃ x ∈ xs, f x = .error e := by
  obtain ⟨before, x, after, rfl, _, hx⟩ := mapM_error_iff.mp h
  exact ⟨x, by simp, hx⟩

namespace Arena

variable {arena : Arena} {roots : List (String × Nat)} {names : List String}

def Refers (names : List String) (arena : Arena) : Prop :=
  ∀ i rule, (arena.draft i).body = .reference rule → rule ∈ names

theorem add_refers (h : arena.Refers names) {body : Body}
    (hbody : ∀ rule, body = .reference rule → rule ∈ names) :
    Refers names (arena.add body).2 := by
  rw [add]
  split
  · exact h
  · intro i rule hi
    rw [draft_push] at hi
    split at hi
    · exact hbody rule hi
    · exact h i rule hi

mutual

theorem intern_refers : (e : Expr) → (arena : Arena) → (∀ rule ∈ e.references, rule ∈ names) →
    arena.Refers names → Refers names (intern e arena).2
  | .terminal t, arena, _, h => by
      rw [intern]
      exact add_refers h (by simp)
  | .reference rule, arena, hnames, h => by
      rw [intern]
      refine add_refers h fun rule' heq => ?_
      cases heq
      exact hnames rule (by simp [Expr.references])
  | .group kind items, arena, hnames, h => by
      rw [intern]
      exact add_refers (internSlots_refers items arena hnames h) (by simp)
  | .unary kind item, arena, hnames, h => by
      rw [intern]
      exact add_refers (intern_refers item arena hnames h) (by simp)
  | .label _ item, arena, hnames, h => by
      rw [intern]
      exact intern_refers item arena hnames h

theorem internSlots_refers : (es : List Expr) → (arena : Arena) →
    (∀ rule ∈ Expr.referencesAll es, rule ∈ names) → arena.Refers names →
      Refers names (internSlots es arena).2
  | [], _, _, h => h
  | e :: rest, arena, hnames, h => by
      rw [internSlots]
      rw [Expr.referencesAll] at hnames
      have he := intern_refers e arena (fun rule hr => hnames rule (List.mem_append_left _ hr)) h
      exact internSlots_refers rest _ (fun rule hr => hnames rule (List.mem_append_right _ hr)) he

end

theorem internAll_refers (ds : List Definition)
    (hnames : ∀ d ∈ ds, ∀ rule ∈ d.body.references, rule ∈ names) (h : arena.Refers names) :
    Refers names (internAll ds arena).2 := by
  induction ds generalizing arena with
  | nil => exact h
  | cons d ds ih =>
      obtain ⟨hd, hds⟩ := List.forall_mem_cons.mp hnames
      exact ih hds (intern_refers d.body arena hd h)

theorem internAll_length (ds : List Definition) (arena : Arena) :
    (internAll ds arena).1.length = ds.length := by
  induction ds generalizing arena with
  | nil => rfl
  | cons d ds ih => exact congrArg (· + 1) (ih _)

inductive EndsIn (arena : Arena) (roots : List (String × Nat)) : Nat → Nat → Prop
  | shape {i : Nat} {s : Shape} : (arena.draft i).body = .shape s → EndsIn arena roots i i
  | reference {i root t : Nat} {rule : String} : (arena.draft i).body = .reference rule →
      roots.lookup rule = some root → EndsIn arena roots root t → EndsIn arena roots i t

namespace EndsIn

theorem exists_shape {i t : Nat} (h : arena.EndsIn roots i t) :
    ∃ s, (arena.draft t).body = .shape s := by
  induction h with
  | shape hs => exact ⟨_, hs⟩
  | reference _ _ _ ih => exact ih

theorem unique {i t t' : Nat} (h : arena.EndsIn roots i t) (h' : arena.EndsIn roots i t') :
    t = t' := by
  induction h with
  | shape hs =>
      cases h' with
      | shape _ => rfl
      | reference hr _ _ => rw [hs] at hr; cases hr
  | reference hr hroot _ ih =>
      cases h' with
      | shape hs => rw [hr] at hs; cases hs
      | reference hr' hroot' ht' =>
          rw [hr] at hr'
          cases hr'
          rw [hroot] at hroot'
          cases hroot'
          exact ih ht'

end EndsIn

theorem exists_lookup {rule : String} (h : rule ∈ roots.map Prod.fst) :
    ∃ root, roots.lookup rule = some root := by
  obtain ⟨r, hr, rfl⟩ := List.mem_map.mp h
  refine Option.ne_none_iff_exists'.mp fun hnone => ?_
  have hne := List.lookup_eq_none_iff.mp hnone r hr
  simp at hne

theorem follow_ne_dangling (h : arena.Refers (roots.map Prod.fst)) (fuel : Nat)
    (chain : List String) (i : Nat) (name : String) :
    arena.follow roots fuel chain i ≠ .error (.danglingReference name) := by
  induction fuel generalizing chain i with
  | zero => simp [follow]
  | succ fuel ih =>
      rw [follow]
      split
      · simp
      · rename_i rule hrule
        split
        · simp
        · split
          · rename_i hnone
            obtain ⟨root, hroot⟩ := exists_lookup (h i rule hrule)
            rw [hroot] at hnone
            cases hnone
          · exact ih _ _

theorem follow_ok {fuel : Nat} {chain : List String} {i t : Nat} {c : Linked}
    (h : arena.follow roots fuel chain i = .ok (t, c)) :
    arena.EndsIn roots i t ∧ ∀ s, (arena.draft i).body = .shape s →
      c = ⟨s, (arena.draft i).form⟩ := by
  induction fuel generalizing chain i with
  | zero => cases h
  | succ fuel ih =>
      rw [follow] at h
      split at h
      · rename_i s hs
        cases h
        refine ⟨.shape hs, fun s' hs' => ?_⟩
        rw [hs] at hs'
        cases hs'
        rfl
      · rename_i rule hrule
        split at h
        · cases h
        · split at h
          · cases h
          · rename_i root hroot
            refine ⟨.reference hrule hroot (ih h).1, fun s hs => ?_⟩
            rw [hrule] at hs
            cases hs

theorem link_ne_dangling (h : arena.Refers (roots.map Prod.fst)) (name : String) :
    arena.link roots ≠ .error (.danglingReference name) := by
  simp only [link, bind, Except.bind]
  split
  · rename_i e he
    intro heq
    cases heq
    obtain ⟨r, _, hr⟩ := mapM_error_mem he
    exact follow_ne_dangling h _ _ _ _ hr
  split
  · rename_i e he
    intro heq
    cases heq
    obtain ⟨i, _, hi⟩ := mapM_error_mem he
    exact follow_ne_dangling h _ _ _ _ hi
  · simp [pure, Except.pure]

structure Resolved (arena : Arena) (roots : List (String × Nat)) (clauses : Array Linked)
    (target : Nat → Nat) : Prop where
  ends : ∀ i < arena.size, arena.EndsIn roots i (target i)
  clause_eq : ∀ i < arena.size, ∀ s, (arena.draft i).body = .shape s →
    Linked.clause clauses i = ⟨s.renumber target, (arena.draft i).form⟩

theorem link_ok {clauses : Array Linked} {targets : List Nat}
    (h : arena.link roots = .ok (clauses, targets)) :
    List.Forall₂ (fun r t => arena.EndsIn roots r.2 t) roots targets ∧
      ∃ target, arena.Resolved roots clauses target := by
  simp only [link, bind, Except.bind] at h
  split at h
  · cases h
  rename_i rootTargets hroots
  split at h
  · cases h
  rename_i drafts hdrafts
  cases h
  have hall := mapM_ok_forall₂ hdrafts
  have hfollow : ∀ i < arena.size, ∃ t c, drafts[i]? = some (t, c) ∧ arena.EndsIn roots i t ∧
      ∀ s, (arena.draft i).body = .shape s → c = ⟨s, (arena.draft i).form⟩ := by
    intro i hi
    have hi' : i < drafts.length := by
      rw [← hall.length_eq]
      simpa using hi
    have hget := hall.get (by simpa using hi) hi'
    simp only [List.get_eq_getElem, List.getElem_range] at hget
    exact ⟨_, _, List.getElem?_eq_getElem hi', follow_ok hget⟩
  refine ⟨?_, fun i => (drafts[i]?.map Prod.fst).getD i, fun i hi => ?_, fun i hi s hs => ?_⟩
  · rw [List.forall₂_map_right_iff]
    exact (mapM_ok_forall₂ hroots).imp fun r t ht => (follow_ok ht).1
  · obtain ⟨t, c, hget, hends, _⟩ := hfollow i hi
    simpa [hget] using hends
  · obtain ⟨t, c, hget, _, hshape⟩ := hfollow i hi
    obtain rfl := hshape s hs
    simp [Linked.clause, hget]

def Part (arena : Arena) (roots : List (String × Nat)) (d t : Nat) : Prop :=
  ∃ c ∈ (arena.draft d).body.children, arena.EndsIn roots c t

def Kept (arena : Arena) (roots : List (String × Nat)) (d : Nat) : Prop :=
  ∃ r ∈ roots, ∃ t, arena.EndsIn roots r.2 t ∧ Relation.ReflTransGen (arena.Part roots) t d

theorem EndsIn.lt_size (hroots : ∀ r ∈ roots, r.2 < arena.size) {i t : Nat}
    (h : arena.EndsIn roots i t) (hi : i < arena.size) : t < arena.size := by
  induction h with
  | shape _ => exact hi
  | @reference i root t rule _ hroot _ ih =>
      exact ih (hroots (rule, root) (mem_of_lookup hroot))

namespace Resolved

variable {clauses : Array Linked} {target : Nat → Nat}

theorem mem_next (h : arena.Resolved roots clauses target) (hclosed : arena.Closed) {d t : Nat}
    (hd : d < arena.size) {s : Shape} (hs : (arena.draft d).body = .shape s) :
    t ∈ Linked.next clauses d ↔ arena.Part roots d t := by
  rw [Linked.next, h.clause_eq d hd s hs, Shape.children_renumber, List.mem_map, Part, hs]
  refine exists_congr fun c => and_congr_right fun hc => ?_
  have hends := h.ends c (hclosed d c (by rw [hs]; exact hc))
  exact ⟨fun heq => heq ▸ hends, fun ht => hends.unique ht⟩

theorem part_lt_size (hclosed : arena.Closed) (hroots : ∀ r ∈ roots, r.2 < arena.size) {d t : Nat}
    (h : arena.Part roots d t) : t < arena.size := by
  obtain ⟨c, hc, hends⟩ := h
  exact hends.lt_size hroots (hclosed d c hc)

theorem part_shape {d t : Nat} (h : arena.Part roots d t) :
    ∃ s, (arena.draft t).body = .shape s := by
  obtain ⟨c, _, hends⟩ := h
  exact hends.exists_shape

-- From a draft that is no reference only such drafts are reached.
theorem reaches_iff (h : arena.Resolved roots clauses target) (hclosed : arena.Closed)
    (hroots : ∀ r ∈ roots, r.2 < arena.size) {t d : Nat} (ht : t < arena.size)
    (hs : ∃ s, (arena.draft t).body = .shape s) :
    Graph.Reaches (Linked.next clauses) t d ↔ Relation.ReflTransGen (arena.Part roots) t d := by
  constructor
  · intro hreach
    induction hreach using Relation.ReflTransGen.head_induction_on with
    | refl => exact .refl
    | head hstep _ ih =>
        obtain ⟨s, hs⟩ := hs
        have hpart := (h.mem_next hclosed ht hs).mp hstep
        exact .head hpart (ih (part_lt_size hclosed hroots hpart) (part_shape hpart))
  · intro hreach
    induction hreach using Relation.ReflTransGen.head_induction_on with
    | refl => exact .refl
    | head hpart _ ih =>
        obtain ⟨s, hs⟩ := hs
        have hstep := (h.mem_next hclosed ht hs).mpr hpart
        exact .head hstep (ih (part_lt_size hclosed hroots hpart) (part_shape hpart))

end Resolved

theorem Kept.lt_size (hclosed : arena.Closed) (hroots : ∀ r ∈ roots, r.2 < arena.size) {d : Nat}
    (h : arena.Kept roots d) : d < arena.size ∧ ∃ s, (arena.draft d).body = .shape s := by
  obtain ⟨r, hr, t, hends, hreach⟩ := h
  rcases Relation.ReflTransGen.cases_tail hreach with rfl | ⟨u, _, hpart⟩
  · exact ⟨hends.lt_size hroots (hroots r hr), hends.exists_shape⟩
  · exact ⟨Resolved.part_lt_size hclosed hroots hpart, Resolved.part_shape hpart⟩

end Arena

end BottomUpPeg
