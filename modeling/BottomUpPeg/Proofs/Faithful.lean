import BottomUpPeg.Proofs.Lawful
import BottomUpPeg.Proofs.Resolution

namespace BottomUpPeg

namespace Shape

theorem renumber_renumber (f f' : Nat → Nat) (s : Shape) :
    (s.renumber f).renumber f' = s.renumber (f' ∘ f) := by
  cases s <;> simp [renumber, Function.comp_def]

end Shape

/-- The clauses are the drafts that the rules need, each once and renumbered, with every part and
every rule led to the draft its references end in. A part has a smaller number than its whole
unless the two lie on one cycle. The list holds the draft that each clause comes from. -/
structure Faithful (arena : Arena) (roots : List (String × Nat)) (clauses : Array Linked)
    (targets : List Nat) (origin : List Nat) : Prop where
  nodup : origin.Nodup
  size_eq : clauses.size = origin.length
  mem_iff : ∀ d, d ∈ origin ↔ arena.Kept roots d
  copied : ∀ i d, origin[i]? = some d → d < arena.size ∧
    ∃ s number, (arena.draft d).body = .shape s ∧
      Linked.clause clauses i = ⟨s.renumber number, (arena.draft d).form⟩ ∧
      ∀ c ∈ s.children, ∃ t, arena.EndsIn roots c t ∧ origin[number c]? = some t
  targets : List.Forall₂ (fun r j => ∃ t, arena.EndsIn roots r.2 t ∧ origin[j]? = some t)
    roots targets
  ordered : ∀ i, ∀ j ∈ Linked.next clauses i, j < i ∨
    Graph.LeadsTo (Linked.next clauses) i j ∧ Graph.LeadsTo (Linked.next clauses) j i

theorem Arena.link_faithful {arena : Arena} {roots : List (String × Nat)} (hclosed : arena.Closed)
    (hroots : ∀ r ∈ roots, r.2 < arena.size) {clauses : Array Linked} {targets : List Nat}
    (h : arena.link roots = .ok (clauses, targets)) :
    Faithful arena roots (Linked.compact clauses targets).1 (Linked.compact clauses targets).2
      (Linked.order clauses targets) := by
  obtain ⟨hb, hlt⟩ := link_lt hclosed hroots h
  obtain ⟨htargets, target, hresolved⟩ := link_ok h
  have hreaches : ∀ {r t d}, r ∈ roots → arena.EndsIn roots r.2 t →
      (Graph.Reaches (Linked.next clauses) t d ↔ Relation.ReflTransGen (arena.Part roots) t d) :=
    fun hr hends => hresolved.reaches_iff hclosed hroots (hends.lt_size hroots (hroots _ hr))
      hends.exists_shape
  have hmem : ∀ d, d ∈ Linked.order clauses targets ↔ arena.Kept roots d := by
    intro d
    rw [Linked.order, Graph.mem_postorder hb hlt]
    constructor
    · rintro ⟨t, ht, hreach⟩
      obtain ⟨r, hr, hends⟩ := forall₂_mem_right htargets ht
      exact ⟨r, hr, t, hends, (hreaches hr hends).mp hreach⟩
    · rintro ⟨r, hr, t, hends, hreach⟩
      obtain ⟨t', ht', hends'⟩ := forall₂_mem_right htargets.flip hr
      obtain rfl := hends.unique hends'
      exact ⟨t, ht', (hreaches hr hends).mpr hreach⟩
  refine
    { nodup := Graph.postorder_nodup hb hlt
      size_eq := Linked.size_compact
      mem_iff := hmem
      copied := fun i d hd => ?_
      targets := ?_
      ordered := fun i j hj => Linked.ordered_compact hb hlt hj }
  · have hin := List.mem_of_getElem? hd
    obtain ⟨hsize, s, hs⟩ := ((hmem d).mp hin).lt_size hclosed hroots
    have hclause := hresolved.clause_eq d hsize s hs
    refine ⟨hsize, s, (Linked.order clauses targets).idxOf ∘ target, hs, ?_, fun c hc => ?_⟩
    · rw [Linked.clause_compact hd, hclause, Shape.renumber_renumber]
    · have hends := hresolved.ends c (hclosed d c (by rw [hs]; exact hc))
      have hnext := (hresolved.mem_next hclosed hsize hs).mpr ⟨c, by rw [hs]; exact hc, hends⟩
      exact ⟨target c, hends,
        List.getElem?_idxOf (Linked.mem_order_of_mem_next hb hlt hin hnext)⟩
  · change List.Forall₂ _ roots (targets.map (Linked.order clauses targets).idxOf)
    rw [List.forall₂_map_right_iff]
    obtain ⟨hlength, hpairs⟩ := List.forall₂_iff_zip.mp htargets
    refine List.forall₂_iff_zip.mpr ⟨hlength, fun {r t} hrt => ⟨t, hpairs hrt, ?_⟩⟩
    exact List.getElem?_idxOf ((hmem t).mpr ⟨r, (List.of_mem_zip hrt).1, t, hpairs hrt, .refl⟩)

namespace Flags

variable {clauses : Array Linked} {e : GrammarError}

theorem raise_error {t : Table} {i : Nat} (h : raise clauses t i = .error e) :
    ∃ form index, e = .shadowedAlternative form index := by
  rw [raise] at h
  split at h
  · cases h
    exact ⟨_, _, rfl⟩
  · cases h

theorem settle_error {fuel : Nat} {t : Table} (h : settle clauses fuel t = .error e) :
    ∃ form index, e = .shadowedAlternative form index := by
  induction fuel generalizing t with
  | zero => cases h
  | succ fuel ih =>
      rw [settle] at h
      split at h
      · rename_i hswept
        cases h
        obtain ⟨_, _, _, hraise⟩ := exists_of_foldlM_error hswept
        exact raise_error hraise
      · split at h
        · cases h
        · exact ih h

end Flags

namespace Definition

theorem expandName_ne_dangling (name : String) (ds : List Definition) (rule : String) :
    expandName name ds ≠ .error (.danglingReference rule) := by
  unfold expandName
  split
  · split <;> simp
  · split
    · simp
    · split <;> simp

theorem expandLevels_ne_dangling (ds : List Definition) (rule : String) :
    expandLevels ds ≠ .error (.danglingReference rule) := by
  intro h
  rw [expandLevels] at h
  cases hmapM : (names ds).mapM fun name => expandName name (ds.filter (·.name = name)) with
  | ok expanded =>
      rw [hmapM] at h
      cases h
  | error e =>
      rw [hmapM] at h
      cases h
      obtain ⟨name, _, hname⟩ := mapM_error_mem hmapM
      exact expandName_ne_dangling _ _ _ hname

theorem mem_of_unknownReference? {defined : List String} {ds : List Definition}
    (h : unknownReference? defined ds = none) :
    ∀ d ∈ ds, ∀ rule ∈ d.body.references, rule ∈ defined := by
  induction ds with
  | nil => simp
  | cons d ds ih =>
      rw [unknownReference?] at h
      split at h
      · cases h
      · rename_i hnone
        refine List.forall_mem_cons.mpr ⟨fun rule hrule => ?_, ih h⟩
        simpa using List.find?_eq_none.mp hnone rule hrule

end Definition

namespace Source

variable {source : Source} {ds : List Definition}

theorem definitionsChecked_ne_dangling (source : Source) (rule : String) :
    source.definitionsChecked ≠ .error (.danglingReference rule) := by
  intro h
  simp only [definitionsChecked, bind, Except.bind] at h
  split at h
  · cases h
  split at h
  · cases h
  split at h
  · rename_i hexpand
    cases h
    exact Definition.expandLevels_ne_dangling _ _ hexpand
  split at h
  · cases h
  split at h
  · cases h
  split at h
  · cases h
  split at h
  · cases h
  · cases h

theorem unknownReference?_of_checked (h : source.definitionsChecked = .ok ds) :
    Definition.unknownReference? (ds.map (·.name)) ds = none := by
  simp only [definitionsChecked, bind, Except.bind] at h
  split at h
  · cases h
  split at h
  · cases h
  split at h
  · cases h
  split at h
  · cases h
  split at h
  · cases h
  rename_i hnone
  split at h
  · cases h
    exact hnone
  split at h
  · cases h
    exact hnone
  · cases h

end Source

def Arena.rootsOf (ds : List Definition) : List (String × Nat) :=
  (ds.map (·.name)).zip (internAll ds #[]).1

namespace Arena

theorem names_rootsOf (ds : List Definition) : (rootsOf ds).map Prod.fst = ds.map (·.name) := by
  rw [rootsOf, List.map_fst_zip]
  simp [internAll_length]

theorem rootsOf_lt (ds : List Definition) :
    ∀ r ∈ rootsOf ds, r.2 < (internAll ds #[]).2.size := by
  intro r hr
  exact (internAll_grows ds #[] closed_empty).2.2 _ (List.of_mem_zip hr).2

theorem linkDefinitions_eq (ds : List Definition) :
    linkDefinitions ds = ((internAll ds #[]).2.link (rootsOf ds)).map fun linked =>
      Linked.compact linked.1 linked.2 := by
  simp only [linkDefinitions, bind, Except.bind, rootsOf]
  cases (internAll ds #[]).2.link ((ds.map (·.name)).zip (internAll ds #[]).1) <;> rfl

theorem linkDefinitions_ne_dangling {ds : List Definition}
    (h : Definition.unknownReference? (ds.map (·.name)) ds = none) (rule : String) :
    linkDefinitions ds ≠ .error (.danglingReference rule) := by
  have hempty : Refers (ds.map (·.name)) #[] := by
    intro i rule hi
    simp [draft, default] at hi
  have hrefers := internAll_refers ds (Definition.mem_of_unknownReference? h) hempty
  rw [← names_rootsOf] at hrefers
  rw [linkDefinitions_eq]
  intro herror
  cases hlink : (internAll ds #[]).2.link (rootsOf ds) with
  | ok linked => rw [hlink] at herror; cases herror
  | error e =>
      rw [hlink] at herror
      cases herror
      exact link_ne_dangling hrefers rule hlink

theorem linkDefinitions_faithful {ds : List Definition} {clauses : Array Linked}
    {targets : List Nat} (h : linkDefinitions ds = .ok (clauses, targets)) :
    ∃ origin, Faithful (internAll ds #[]).2 (rootsOf ds) clauses targets origin := by
  rw [linkDefinitions_eq] at h
  cases hlink : (internAll ds #[]).2.link (rootsOf ds) with
  | error e => rw [hlink] at h; cases h
  | ok linked =>
      rw [hlink] at h
      cases h
      exact ⟨_, link_faithful (internAll_grows ds #[] closed_empty).2.1 (rootsOf_lt ds) hlink⟩

end Arena

def Grammar.linked (g : Grammar) : Array Linked := g.clauses.map fun c => ⟨c.shape, c.form⟩

theorem Source.compile_linked {source : Source} {g : Grammar} (h : source.compile = .ok g) :
    ∃ ds, source.definitionsChecked = .ok ds ∧
      linkDefinitions ds = .ok (g.linked, g.rules.map (·.clause)) ∧
      g.rules.map (·.name) = ds.map (·.name) := by
  simp only [compile, bind, Except.bind] at h
  split at h
  · cases h
  rename_i ds hds
  split at h
  · cases h
  rename_i linked hlinked
  split at h
  · cases h
  split at h
  · cases h
  split at h
  · cases h
  cases h
  have hlength : linked.2.length = ds.length := by
    obtain ⟨origin, hfaithful⟩ := Arena.linkDefinitions_faithful hlinked
    rw [← hfaithful.targets.length_eq, ← List.length_map (f := Prod.fst), Arena.names_rootsOf,
      List.length_map]
  refine ⟨ds, hds, ?_, ?_⟩
  · have hclauses : ((List.range linked.1.size).map fun i =>
        (⟨(Linked.clause linked.1 i).shape, (Linked.clause linked.1 i).form⟩ : Linked)).toArray =
          linked.1 := by
      apply Array.ext
      · simp
      · intro i hi hi'
        simp [Linked.clause, hi']
    have htargets : (ds.zip linked.2).map Prod.snd = linked.2 :=
      List.map_snd_zip hlength.le
    rw [hlinked]
    simp only [Grammar.linked, List.map_map, List.map_toArray, Function.comp_def, Clause.assemble,
      Rule.ofDefinition]
    rw [hclauses, htargets]
  · have hfirst : (ds.zip linked.2).map Prod.fst = ds := List.map_fst_zip hlength.ge
    have hnames : ((ds.zip linked.2).map fun p => Rule.ofDefinition linked.1 p.1 p.2).map
        (·.name) = ((ds.zip linked.2).map Prod.fst).map (·.name) := by
      simp [Rule.ofDefinition, Function.comp_def]
    exact hnames.trans (by rw [hfirst])

theorem Source.compile_ne_dangling (source : Source) (rule : String) :
    source.compile ≠ .error (.danglingReference rule) := by
  intro h
  simp only [compile, bind, Except.bind] at h
  split at h
  · rename_i hchecked
    cases h
    exact definitionsChecked_ne_dangling source rule hchecked
  rename_i ds hds
  split at h
  · rename_i hlinked
    cases h
    exact Arena.linkDefinitions_ne_dangling (unknownReference?_of_checked hds) rule hlinked
  rename_i linked hlinked
  split at h
  · rename_i hlexical
    cases h
    unfold checkLexical at hlexical
    split at hlexical
    · cases hlexical
    split at hlexical
    · cases hlexical
    · cases hlexical
  split at h
  · rename_i hflags
    cases h
    obtain ⟨_, _, heq⟩ := Flags.settle_error hflags
    cases heq
  split at h
  · rename_i hlayers
    cases h
    obtain ⟨_, _, _, heq⟩ := Layer.table_error (linkDefinitions_lt hlinked).1 hlayers
    cases heq
  · cases h

theorem Source.compiled_is_faithful (source : Source) :
    (∀ rule, source.compile ≠ .error (.danglingReference rule)) ∧
    (∀ ds clauses targets, source.definitionsChecked = .ok ds →
      linkDefinitions ds = .ok (clauses, targets) →
        ∃ origin, Faithful (Arena.internAll ds #[]).2 (Arena.rootsOf ds) clauses targets origin) ∧
    ∀ g, source.compile = .ok g → ∃ ds origin, source.definitionsChecked = .ok ds ∧
      g.rules.map (·.name) = ds.map (·.name) ∧
      Faithful (Arena.internAll ds #[]).2 (Arena.rootsOf ds) g.linked (g.rules.map (·.clause))
        origin := by
  refine ⟨source.compile_ne_dangling, fun ds clauses targets _ hlinked => ?_, fun g hg => ?_⟩
  · exact Arena.linkDefinitions_faithful hlinked
  · obtain ⟨ds, hds, hlinked, hnames⟩ := compile_linked hg
    obtain ⟨origin, hfaithful⟩ := Arena.linkDefinitions_faithful hlinked
    exact ⟨ds, origin, hds, hnames, hfaithful⟩

def bracketed : Source where
  definitions := [
    .plain "A" (.reference "B"),
    .plain "B" (.reference "C"),
    .plain "C" (.first [.seq [.char '(', .reference "A", .char ')'], .char 'c'])]
  lexical := none

theorem Source.bracketed_is_faithful :
    ∃ g ds origin, bracketed.compile = .ok g ∧ bracketed.definitionsChecked = .ok ds ∧
      g.size < (Arena.internAll ds #[]).2.size ∧
      Faithful (Arena.internAll ds #[]).2 (Arena.rootsOf ds) g.linked (g.rules.map (·.clause))
        origin := by
  have hsizes : (bracketed.compile.toOption.any fun g =>
      bracketed.definitionsChecked.toOption.all fun ds =>
        decide (g.size < (Arena.internAll ds #[]).2.size)) = true := by
    decide +kernel
  cases hg : bracketed.compile with
  | error e => simp [hg, Except.toOption] at hsizes
  | ok g =>
      obtain ⟨ds, origin, hds, _, hfaithful⟩ := (compiled_is_faithful bracketed).2.2 g hg
      have hlt : g.size < (Arena.internAll ds #[]).2.size := by
        simpa [hg, hds, Except.toOption] using hsizes
      exact ⟨g, ds, origin, rfl, hds, hlt, hfaithful⟩

end BottomUpPeg
