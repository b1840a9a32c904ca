import BottomUpPeg.Clause.Layer
import BottomUpPeg.Proofs.Components
import BottomUpPeg.Proofs.Folding
import BottomUpPeg.Proofs.Linking
import Mathlib.Data.List.Chain
import Mathlib.Order.Bounds.Defs

namespace BottomUpPeg

theorem Graph.forall_reaches_iff {next : Nat → List Nat} {v : Nat} :
    (∀ w, Reaches next v w → ¬LeadsTo next w w) ↔
      ¬LeadsTo next v v ∧ ∀ u ∈ next v, ∀ w, Reaches next u w → ¬LeadsTo next w w := by
  refine ⟨fun h => ⟨h v .refl, fun u hu w hw => h w (.head hu hw)⟩, fun ⟨hv, hnext⟩ w hw => ?_⟩
  rcases Relation.ReflTransGen.cases_head hw with rfl | ⟨u, hu, hw⟩
  · exact hv
  · exact hnext u hu w hw

namespace Layer

variable {clauses : Array Linked}

section Components

variable (hb : Graph.Bounded (Linked.next clauses) clauses.size)

include hb

theorem components_condensed : Graph.Condensed (Linked.next clauses) (components clauses) :=
  Graph.components_condensed hb

theorem exists_component {i : Nat} (hi : i < clauses.size) :
    ∃ before members after, components clauses = before ++ members :: after ∧ i ∈ members := by
  obtain ⟨members, hmembers, hmem⟩ := List.mem_flatten.mp ((Graph.mem_components hb i).mpr hi)
  obtain ⟨before, after, hsplit⟩ := List.append_of_mem hmembers
  exact ⟨before, members, after, hsplit, hmem⟩

theorem getElem?_label_components {α : Type} {f : Nat → List Nat → α}
    {before after : List (List Nat)} {members : List Nat}
    (hsplit : components clauses = before ++ members :: after) {i : Nat} (hi : i ∈ members)
    {a : Array α} (ha : a.size = clauses.size) :
    (Graph.label f (components clauses) a)[i]? = some (f before.length members) := by
  have hflatten : i ∈ (components clauses).flatten := by simp [hsplit, hi]
  have hlt : i < a.size := ha.symm ▸ (Graph.mem_components hb i).mp hflatten
  have hnodup := (components_condensed hb).nodup
  rw [hsplit] at hnodup ⊢
  exact Graph.getElem?_label hnodup hi hlt

theorem componentOf_eq {before after : List (List Nat)} {members : List Nat}
    (hsplit : components clauses = before ++ members :: after) {i : Nat} (hi : i ∈ members) :
    (componentOf clauses)[i]?.getD 0 = before.length := by
  rw [componentOf, getElem?_label_components hb hsplit hi Array.size_replicate]
  rfl

theorem cyclic_iff {i : Nat} (hi : i < clauses.size) :
    (cyclic clauses)[i]?.getD false = true ↔ Graph.LeadsTo (Linked.next clauses) i i := by
  obtain ⟨before, members, after, hsplit, hmem⟩ := exists_component hb hi
  rw [cyclic, getElem?_label_components hb hsplit hmem Array.size_replicate, Option.getD_some]
  exact (hsplit ▸ components_condensed hb).isCycle_iff hmem

end Components

section Marks

variable {a : Array Bool} {i : Nat}

theorem size_foldl_mark {cyclic : Array Bool} (cs : List Nat) (a : Array Bool) :
    (cs.foldl (mark clauses cyclic) a).size = a.size := by
  induction cs generalizing a with
  | nil => rfl
  | cons c cs ih => exact (ih _).trans (Array.size_setIfInBounds ..)

theorem isMarked_of_size_le (hi : clauses.size ≤ i) : isMarked clauses i = false := by
  have hsize : ¬i < (marks clauses).size := by
    rw [marks, size_foldl_mark, Array.size_replicate]
    exact Nat.not_lt.mpr hi
  simp [isMarked, hsize]

variable (hb : Graph.Bounded (Linked.next clauses) clauses.size)

include hb

theorem mark_iff (ha : a.size = clauses.size) (hi : i < clauses.size) (j : Nat) :
    (mark clauses (cyclic clauses) a i)[j]?.getD false = true ↔
      if j = i then ¬Graph.LeadsTo (Linked.next clauses) i i ∧
        ∀ child ∈ Linked.next clauses i, a[child]?.getD false = true
      else a[j]?.getD false = true := by
  rw [mark, Graph.getD_setIfInBounds (ha.symm ▸ hi)]
  split
  · rw [Bool.and_eq_true, Bool.not_eq_true', ← Bool.not_eq_true, cyclic_iff hb hi,
      List.all_eq_true]
  · exact Iff.rfl

def Marked (clauses : Array Linked) (a : Array Bool) : Prop :=
  a.size = clauses.size ∧ ∀ i, a[i]?.getD false = true → ∀ j,
    Graph.Reaches (Linked.next clauses) i j → ¬Graph.LeadsTo (Linked.next clauses) j j

theorem Marked.mark (h : Marked clauses a) (hi : i < clauses.size) :
    Marked clauses (mark clauses (cyclic clauses) a i) := by
  refine ⟨(Array.size_setIfInBounds ..).trans h.1, fun k hk => ?_⟩
  rw [mark_iff hb h.1 hi] at hk
  split at hk
  · rename_i heq
    rw [heq, Graph.forall_reaches_iff]
    exact ⟨hk.1, fun u hu => h.2 u (hk.2 u hu)⟩
  · exact h.2 k hk

theorem not_leadsTo_self_of_isMarked (h : isMarked clauses i = true) :
    ∀ j, Graph.Reaches (Linked.next clauses) i j → ¬Graph.LeadsTo (Linked.next clauses) j j := by
  have hstart : Marked clauses (Array.replicate clauses.size false) := by
    refine ⟨Array.size_replicate, fun k hk => ?_⟩
    rw [Array.getElem?_replicate] at hk
    split at hk <;> cases hk
  have hrun : Marked clauses (marks clauses) :=
    List.foldlRecOn (motive := Marked clauses) _ _ hstart
      fun a ha c hc => ha.mark hb (List.mem_range.mp hc)
  exact hrun.2 i h

theorem marks_of_partsFirst (hfirst : Linked.PartsFirst clauses) {n : Nat} (hn : n ≤ clauses.size)
    (hi : i < n) (hfree : ∀ j, Graph.Reaches (Linked.next clauses) i j →
      ¬Graph.LeadsTo (Linked.next clauses) j j) :
    ((List.range n).foldl (mark clauses (cyclic clauses))
      (Array.replicate clauses.size false))[i]?.getD false = true := by
  induction n generalizing i with
  | zero => exact absurd hi (Nat.not_lt_zero i)
  | succ n ih =>
      have hle := Nat.le_of_succ_le hn
      rw [List.range_succ, List.foldl_append, List.foldl_cons, List.foldl_nil,
        mark_iff hb (by rw [size_foldl_mark, Array.size_replicate]) hn]
      by_cases heq : i = n
      · subst heq
        obtain ⟨hself, hnext⟩ := Graph.forall_reaches_iff.mp hfree
        rw [if_pos rfl]
        refine ⟨hself, fun u hu => ?_⟩
        -- A part that is not marked yet would lie on a cycle with its whole.
        have hlt : u < i := (hfirst i u hu).resolve_right fun hback => hself (.head hu hback)
        exact ih hle hlt (hnext u hu)
      · rw [if_neg heq]
        exact ih hle (by omega) hfree

theorem isMarked_iff (hfirst : Linked.PartsFirst clauses) (hi : i < clauses.size) :
    isMarked clauses i = true ↔
      ∀ j, Graph.Reaches (Linked.next clauses) i j → ¬Graph.LeadsTo (Linked.next clauses) j j :=
  ⟨not_leadsTo_self_of_isMarked hb, marks_of_partsFirst hb hfirst (Nat.le_refl _) hi⟩

end Marks

def crossings (clauses : Array Linked) (acyclic : Nat → Bool) : List Nat → Nat
  | i :: j :: rest => step clauses acyclic i j + crossings clauses acyclic (j :: rest)
  | _ => 0

def heights (clauses : Array Linked) (acyclic : Nat → Bool) (c : Nat) : Set Nat :=
  {n | ∃ walk, (c :: walk).IsChain (Graph.Edge (Linked.next clauses)) ∧
    crossings clauses acyclic (c :: walk) = n}

theorem lt_size_of_mem_next {i j : Nat} (h : j ∈ Linked.next clauses i) : i < clauses.size := by
  by_contra hi
  simp [Linked.next, Linked.clause, hi, Shape.children, Shape.slots, default] at h

section Heights

variable {acyclic : Nat → Bool} {i j n : Nat}

theorem zero_mem_heights (i : Nat) : 0 ∈ heights clauses acyclic i := ⟨[], .singleton i, rfl⟩

theorem add_step_mem_heights (hj : j ∈ Linked.next clauses i) (hn : n ∈ heights clauses acyclic j) :
    step clauses acyclic i j + n ∈ heights clauses acyclic i := by
  obtain ⟨walk, hchain, rfl⟩ := hn
  exact ⟨j :: walk, List.isChain_cons_cons.mpr ⟨hj, hchain⟩, rfl⟩

theorem exists_ge_of_reaches (h : Graph.Reaches (Linked.next clauses) i j)
    (hn : n ∈ heights clauses acyclic j) : ∃ m ∈ heights clauses acyclic i, n ≤ m := by
  induction h using Relation.ReflTransGen.head_induction_on with
  | refl => exact ⟨n, hn, Nat.le_refl _⟩
  | head hstep _ ih =>
      obtain ⟨m, hm, hle⟩ := ih
      exact ⟨_, add_step_mem_heights hstep hm, hle.trans (Nat.le_add_left ..)⟩

end Heights

section Strata

variable {componentOf strata : Array Nat} {acyclic : Nat → Bool} {c i stratum child : Nat}
  {members : List Nat} {e : GrammarError}

def above (clauses : Array Linked) (componentOf : Array Nat) (acyclic : Nat → Bool)
    (strata : Array Nat) (i child : Nat) : Nat :=
  strata[componentOf[child]?.getD 0]?.getD 0 + step clauses acyclic i child

theorem raise_ok {stratum' : Nat}
    (h : raise clauses componentOf acyclic strata c i stratum child = .ok stratum') :
    (componentOf[child]?.getD 0 = c ∧ isNegative clauses i = false ∧ stratum' = stratum) ∨
      (componentOf[child]?.getD 0 ≠ c ∧
        stratum' = max stratum (above clauses componentOf acyclic strata i child)) := by
  rw [raise] at h
  split at h
  · rename_i hsame
    split at h
    · cases h
    · rename_i hneg
      cases h
      exact .inl ⟨hsame, Bool.eq_false_iff.mpr hneg, rfl⟩
  · rename_i hother
    cases h
    exact .inr ⟨hother, rfl⟩

theorem raise_error (h : raise clauses componentOf acyclic strata c i stratum child = .error e) :
    componentOf[child]?.getD 0 = c ∧ isNegative clauses i = true ∧
      e = .lookaheadCycle (Linked.clause clauses i).form := by
  rw [raise] at h
  split at h
  · rename_i hsame
    split at h
    · rename_i hneg
      cases h
      exact ⟨hsame, hneg, rfl⟩
    · cases h
  · cases h

theorem le_raise {stratum' : Nat}
    (h : raise clauses componentOf acyclic strata c i stratum child = .ok stratum') :
    stratum ≤ stratum' := by
  rcases raise_ok h with ⟨_, _, rfl⟩ | ⟨_, rfl⟩
  · exact Nat.le_refl _
  · exact Nat.le_max_left ..

theorem stratumOf_ok
    (h : stratumOf clauses componentOf acyclic strata c members = .ok stratum) {i : Nat}
    (hi : i ∈ members) {child : Nat} (hchild : child ∈ Linked.next clauses i) :
    (componentOf[child]?.getD 0 = c ∧ isNegative clauses i = false) ∨
      (componentOf[child]?.getD 0 ≠ c ∧
        above clauses componentOf acyclic strata i child ≤ stratum) := by
  have hinner : ∀ {i} {cs : List Nat} {b b' : Nat},
      cs.foldlM (raise clauses componentOf acyclic strata c i) b = .ok b' →
      b ≤ b' ∧ ∀ child ∈ cs, ∃ d d', b ≤ d ∧
        raise clauses componentOf acyclic strata c i d child = .ok d' ∧ d' ≤ b' :=
    steps_of_foldlM Nat.le_refl Nat.le_trans fun _ _ _ _ => le_raise
  obtain ⟨b, b', _, hmember, hle⟩ :=
    (steps_of_foldlM Nat.le_refl Nat.le_trans (fun _ _ _ _ hb => (hinner hb).1) h).2 i hi
  obtain ⟨d, d', _, hraise, hle'⟩ := (hinner hmember).2 child hchild
  rcases raise_ok hraise with ⟨hsame, hneg, _⟩ | ⟨hother, rfl⟩
  · exact .inl ⟨hsame, hneg⟩
  · exact .inr ⟨hother, (Nat.le_max_right ..).trans (hle'.trans hle)⟩

def Attained (clauses : Array Linked) (componentOf : Array Nat) (acyclic : Nat → Bool)
    (strata : Array Nat) (c : Nat) (members : List Nat) (n : Nat) : Prop :=
  n = 0 ∨ ∃ i ∈ members, ∃ child ∈ Linked.next clauses i, componentOf[child]?.getD 0 ≠ c ∧
    n = above clauses componentOf acyclic strata i child

theorem stratumOf_attained
    (h : stratumOf clauses componentOf acyclic strata c members = .ok stratum) :
    Attained clauses componentOf acyclic strata c members stratum := by
  refine foldlM_invariant (P := Attained clauses componentOf acyclic strata c members)
    (fun i hi b b' hb hmember => ?_) (.inl rfl) h
  refine foldlM_invariant (P := Attained clauses componentOf acyclic strata c members)
    (fun child hchild d d' hd hraise => ?_) hb hmember
  rcases raise_ok hraise with ⟨_, _, rfl⟩ | ⟨hother, rfl⟩
  · exact hd
  · rcases Nat.le_total d (above clauses componentOf acyclic strata i child) with hle | hle
    · rw [Nat.max_eq_right hle]
      exact .inr ⟨i, hi, child, hchild, hother, rfl⟩
    · rwa [Nat.max_eq_left hle]

theorem stratumOf_error
    (h : stratumOf clauses componentOf acyclic strata c members = .error e) :
    ∃ i ∈ members, ∃ child ∈ Linked.next clauses i, componentOf[child]?.getD 0 = c ∧
      isNegative clauses i = true ∧ e = .lookaheadCycle (Linked.clause clauses i).form := by
  obtain ⟨i, hi, _, hmember⟩ := exists_of_foldlM_error h
  obtain ⟨child, hchild, _, hraise⟩ := exists_of_foldlM_error hmember
  exact ⟨i, hi, child, hchild, raise_error hraise⟩

def Placed (clauses : Array Linked) (acyclic : Nat → Bool) (before : List (List Nat))
    (strata : Array Nat) : Prop :=
  ∀ front members back, before = front ++ members :: back → ∀ i ∈ members,
    IsGreatest (heights clauses acyclic i) (strata[front.length]?.getD 0)

theorem Placed.push {before : List (List Nat)} (hplaced : Placed clauses acyclic before strata)
    (hlt : before.length < strata.size)
    (hgreatest : ∀ i ∈ members, IsGreatest (heights clauses acyclic i) stratum) :
    Placed clauses acyclic (before ++ [members]) (strata.setIfInBounds before.length stratum) := by
  intro front ms back hfront i hi
  rcases List.eq_nil_or_concat back with rfl | ⟨back, last, rfl⟩
  · obtain ⟨rfl, hms⟩ := List.append_inj' hfront rfl
    cases hms
    rw [Graph.getD_setIfInBounds hlt, if_pos rfl]
    exact hgreatest i hi
  · rw [List.concat_eq_append, ← List.cons_append, ← List.append_assoc] at hfront
    have hbefore := (List.append_inj' hfront rfl).1
    have hne : front.length ≠ before.length := by
      rw [hbefore, List.length_append, List.length_cons]
      omega
    rw [Graph.getD_setIfInBounds hlt, if_neg hne]
    exact hplaced front ms back hbefore i hi

section Order

variable {components before after : List (List Nat)}
  (hcondensed : Graph.Condensed (Linked.next clauses) components)
  (hof : ∀ before members after, components = before ++ members :: after → ∀ i ∈ members,
    componentOf[i]?.getD 0 = before.length)

include hcondensed hof

theorem componentOf_eq_iff (hsplit : components = before ++ members :: after) (hi : i ∈ members)
    (hchild : child ∈ Linked.next clauses i) :
    componentOf[child]?.getD 0 = before.length ↔ child ∈ members := by
  refine ⟨fun hsame => ?_, hof before members after hsplit child⟩
  refine (hcondensed.earlier before members after hsplit i hi child hchild).resolve_right
    fun hbefore => ?_
  obtain ⟨ms, hms, hmem⟩ := List.mem_flatten.mp hbefore
  obtain ⟨front, back, rfl⟩ := List.append_of_mem hms
  have hearlier := hof front ms (back ++ members :: after) (by simp [hsplit]) child hmem
  rw [hearlier, List.length_append, List.length_cons] at hsame
  omega

theorem leadsTo_self_of_componentOf (hsplit : components = before ++ members :: after)
    (hi : i ∈ members) (hchild : child ∈ Linked.next clauses i)
    (hsame : componentOf[child]?.getD 0 = before.length) :
    Graph.LeadsTo (Linked.next clauses) i i := by
  have hmem := (componentOf_eq_iff hcondensed hof hsplit hi hchild).mp hsame
  have hmembers : members ∈ components := by simp [hsplit]
  exact .head' hchild (hcondensed.reaches members hmembers child hmem i hi)

theorem isGreatest_child (hsplit : components = before ++ members :: after)
    (hplaced : Placed clauses acyclic before strata) (hi : i ∈ members)
    (hchild : child ∈ Linked.next clauses i) (hother : componentOf[child]?.getD 0 ≠ before.length) :
    IsGreatest (heights clauses acyclic child) (strata[componentOf[child]?.getD 0]?.getD 0) := by
  have hbefore := (hcondensed.earlier before members after hsplit i hi child hchild).resolve_left
    (mt (componentOf_eq_iff hcondensed hof hsplit hi hchild).mpr hother)
  obtain ⟨ms, hms, hmem⟩ := List.mem_flatten.mp hbefore
  obtain ⟨front, back, rfl⟩ := List.append_of_mem hms
  rw [hof front ms (back ++ members :: after) (by simp [hsplit]) child hmem]
  exact hplaced front ms back rfl child hmem

theorem crossings_le_stratumOf (hsplit : components = before ++ members :: after)
    (hplaced : Placed clauses acyclic before strata)
    (h : stratumOf clauses componentOf acyclic strata before.length members = .ok stratum)
    (hi : i ∈ members) {walk : List Nat}
    (hchain : (i :: walk).IsChain (Graph.Edge (Linked.next clauses))) :
    crossings clauses acyclic (i :: walk) ≤ stratum := by
  induction walk generalizing i with
  | nil => exact Nat.zero_le _
  | cons child walk ih =>
      obtain ⟨hchild, hrest⟩ := List.isChain_cons_cons.mp hchain
      rw [crossings]
      rcases stratumOf_ok h hi hchild with ⟨hsame, hneg⟩ | ⟨hother, hle⟩
      · have hmem := (componentOf_eq_iff hcondensed hof hsplit hi hchild).mp hsame
        simpa [step, hneg] using ih hmem hrest
      · have hgreatest := isGreatest_child hcondensed hof hsplit hplaced hi hchild hother
        have hwalk := hgreatest.2 ⟨walk, hrest, rfl⟩
        rw [above] at hle
        omega

theorem isGreatest_stratumOf (hsplit : components = before ++ members :: after)
    (hplaced : Placed clauses acyclic before strata)
    (h : stratumOf clauses componentOf acyclic strata before.length members = .ok stratum)
    (hi : i ∈ members) : IsGreatest (heights clauses acyclic i) stratum := by
  have hupper : stratum ∈ upperBounds (heights clauses acyclic i) := by
    rintro n ⟨walk, hchain, rfl⟩
    exact crossings_le_stratumOf hcondensed hof hsplit hplaced h hi hchain
  refine ⟨?_, hupper⟩
  rcases stratumOf_attained h with rfl | ⟨k, hk, child, hchild, hother, heq⟩
  · exact zero_mem_heights i
  · have hgreatest := isGreatest_child hcondensed hof hsplit hplaced hk hchild hother
    have hmembers : members ∈ components := by simp [hsplit]
    obtain ⟨m, hm, hle⟩ := exists_ge_of_reaches (hcondensed.reaches members hmembers i hi k hk)
      (add_step_mem_heights hchild hgreatest.1)
    rw [above, Nat.add_comm] at heq
    rw [← heq] at hle
    rwa [Nat.le_antisymm hle (hupper hm)]

theorem foldlM_assignStratum {rest : List (List Nat)} (hsplit : components = before ++ rest)
    (hplaced : Placed clauses acyclic before strata) (hsize : strata.size = components.length)
    {result : Array Nat}
    (h : (rest.zipIdx before.length).foldlM (assignStratum clauses componentOf acyclic) strata =
      .ok result) :
    Placed clauses acyclic components result := by
  induction rest generalizing before strata with
  | nil =>
      cases h
      rwa [hsplit, List.append_nil]
  | cons members rest ih =>
      rw [List.zipIdx_cons, List.foldlM_cons, assignStratum] at h
      cases hstratum : stratumOf clauses componentOf acyclic strata before.length members with
      | error e =>
          rw [hstratum] at h
          cases h
      | ok stratum =>
          rw [hstratum] at h
          have hlength : (before ++ [members]).length = before.length + 1 := by simp
          have hlt : before.length < strata.size := by simp [hsize, hsplit]
          have hpushed := hplaced.push hlt fun i hi =>
            isGreatest_stratumOf hcondensed hof hsplit hplaced hstratum hi
          rw [← hlength] at h
          exact ih (by simp [hsplit]) hpushed ((Array.size_setIfInBounds ..).trans hsize) h

theorem strata_ok {result : Array Nat}
    (h : Layer.strata clauses componentOf acyclic components = .ok result) :
    Placed clauses acyclic components result ∧
      ∀ i ∈ components.flatten, isNegative clauses i = true →
        ¬Graph.LeadsTo (Linked.next clauses) i i := by
  constructor
  · have hsplit : components = [] ++ components := rfl
    have hplaced : Placed clauses acyclic [] (Array.replicate components.length 0) := by
      intro front ms back hnil
      simp at hnil
    exact foldlM_assignStratum hcondensed hof hsplit hplaced Array.size_replicate h
  · intro i hi hneg hcycle
    obtain ⟨members, hmembers, hmem⟩ := List.mem_flatten.mp hi
    obtain ⟨before, after, hsplit⟩ := List.append_of_mem hmembers
    have hzip : (members, before.length) ∈ components.zipIdx := by
      rw [hsplit, List.zipIdx_append]
      simp
    obtain ⟨strata, _, _, hstep, _⟩ := (steps_of_foldlM (R := fun _ _ => True) (fun _ => trivial)
      (fun _ _ => trivial) (fun _ _ _ _ _ => trivial) h).2 _ hzip
    rw [assignStratum] at hstep
    cases hstratum : stratumOf clauses componentOf acyclic strata before.length members with
    | error e =>
        rw [hstratum] at hstep
        cases hstep
    | ok stratum =>
        obtain ⟨child, hchild, hback⟩ := Relation.TransGen.head'_iff.mp hcycle
        have hin := (hsplit ▸ hcondensed).mem_of_mutual hmem (.single hchild) hback
        have hsame := (componentOf_eq_iff hcondensed hof hsplit hmem hchild).mpr hin
        rcases stratumOf_ok hstratum hmem hchild with ⟨_, hfree⟩ | ⟨hother, _⟩
        · rw [hneg] at hfree
          cases hfree
        · exact hother hsame

theorem strata_error (h : Layer.strata clauses componentOf acyclic components = .error e) :
    ∃ i, isNegative clauses i = true ∧ Graph.LeadsTo (Linked.next clauses) i i ∧
      e = .lookaheadCycle (Linked.clause clauses i).form := by
  obtain ⟨⟨members, c⟩, hzip, strata, hstep⟩ := exists_of_foldlM_error h
  have hget : components[c]? = some members := List.mem_zipIdx_iff_getElem?.mp hzip
  obtain ⟨hc, rfl⟩ := List.getElem?_eq_some_iff.mp hget
  have hsplit : components = components.take c ++ components[c] :: components.drop (c + 1) := by
    rw [List.getElem_cons_drop, List.take_append_drop]
  have hlength : (components.take c).length = c := List.length_take_of_le (Nat.le_of_lt hc)
  rw [assignStratum] at hstep
  cases hstratum : stratumOf clauses componentOf acyclic strata c components[c] with
  | ok stratum =>
      rw [hstratum] at hstep
      cases hstep
  | error e' =>
      rw [hstratum] at hstep
      cases hstep
      obtain ⟨i, hi, child, hchild, hsame, hneg, rfl⟩ := stratumOf_error hstratum
      exact ⟨i, hneg, leadsTo_self_of_componentOf hcondensed hof hsplit hi hchild
        (hsame.trans hlength.symm), rfl⟩

end Order

end Strata

section Table

variable (hb : Graph.Bounded (Linked.next clauses) clauses.size) {layers : Array Layer}
  {e : GrammarError}

theorem exists_strata_of_table (h : table clauses = .ok layers) :
    ∃ result, strata clauses (componentOf clauses) (isMarked clauses) (components clauses) =
        .ok result ∧
      layers = ((List.range clauses.size).map fun i =>
        ⟨isMarked clauses i, result[(componentOf clauses)[i]?.getD 0]?.getD 0⟩).toArray := by
  simp only [table] at h
  cases hstrata : strata clauses (componentOf clauses) (isMarked clauses) (components clauses) with
  | error e =>
      rw [hstrata] at h
      cases h
  | ok result =>
      rw [hstrata] at h
      exact ⟨result, rfl, (Except.ok.inj h).symm⟩

include hb

theorem table_ok (h : table clauses = .ok layers) :
    layers.size = clauses.size ∧
      (∀ i, isNegative clauses i = true → ¬Graph.LeadsTo (Linked.next clauses) i i) ∧
      (∀ i, (layers[i]?.getD default).acyclic = isMarked clauses i) ∧
      ∀ i < clauses.size, IsGreatest (heights clauses (isMarked clauses) i)
        (layers[i]?.getD default).stratum := by
  obtain ⟨result, hstrata, rfl⟩ := exists_strata_of_table h
  obtain ⟨hplaced, hfree⟩ := strata_ok (components_condensed hb)
    (fun _ _ _ hsplit _ => componentOf_eq hb hsplit) hstrata
  refine ⟨by simp, fun i hneg hcycle => ?_, fun i => ?_, fun i hi => ?_⟩
  · exact hfree i ((Graph.mem_components hb i).mpr (hb.lt_of_leadsTo hcycle)) hneg hcycle
  · rcases Nat.lt_or_ge i clauses.size with hi | hi
    · simp [hi]
    · rw [isMarked_of_size_le hi]
      simp [Nat.not_lt.mpr hi]
      rfl
  · obtain ⟨before, members, after, hsplit, hmem⟩ := exists_component hb hi
    have hgreatest := hplaced before members after hsplit i hmem
    rw [← componentOf_eq hb hsplit hmem] at hgreatest
    simpa [hi] using hgreatest

theorem table_error (h : table clauses = .error e) :
    ∃ i, isNegative clauses i = true ∧ Graph.LeadsTo (Linked.next clauses) i i ∧
      e = .lookaheadCycle (Linked.clause clauses i).form := by
  simp only [table] at h
  cases hstrata : strata clauses (componentOf clauses) (isMarked clauses) (components clauses) with
  | error e' =>
      rw [hstrata] at h
      cases h
      exact strata_error (components_condensed hb)
        (fun _ _ _ hsplit _ => componentOf_eq hb hsplit) hstrata
  | ok result =>
      rw [hstrata] at h
      cases h

theorem exists_table (hfree : ∀ i, isNegative clauses i = true →
    ¬Graph.LeadsTo (Linked.next clauses) i i) : ∃ layers, table clauses = .ok layers := by
  cases htable : table clauses with
  | ok layers => exact ⟨layers, rfl⟩
  | error e =>
      obtain ⟨i, hneg, hcycle, _⟩ := table_error hb htable
      exact absurd hcycle (hfree i hneg)

structure Sound (clauses : Array Linked) (layer : Nat → Layer) : Prop where
  negative : ∀ i, isNegative clauses i = true → ¬Graph.LeadsTo (Linked.next clauses) i i
  acyclic_iff : ∀ i < clauses.size, (layer i).acyclic = true ↔
    ∀ j, Graph.Reaches (Linked.next clauses) i j → ¬Graph.LeadsTo (Linked.next clauses) j j
  stratum_le : ∀ i, ∀ j ∈ Linked.next clauses i, (layer j).stratum ≤ (layer i).stratum
  stratum_lt : ∀ i, ∀ j ∈ Linked.next clauses i, isNegative clauses i = true →
    (layer j).acyclic = false → (layer j).stratum < (layer i).stratum

theorem table_sound (hfirst : Linked.PartsFirst clauses) (h : table clauses = .ok layers) :
    Sound clauses fun i => layers[i]?.getD default := by
  obtain ⟨_, hnegative, hmarked, hgreatest⟩ := table_ok hb h
  have hstep : ∀ i, ∀ j ∈ Linked.next clauses i,
      step clauses (isMarked clauses) i j + (layers[j]?.getD default).stratum ≤
        (layers[i]?.getD default).stratum := fun i j hj =>
    (hgreatest i (lt_size_of_mem_next hj)).2 (add_step_mem_heights hj (hgreatest j (hb i j hj)).1)
  refine ⟨hnegative, fun i hi => ?_, fun i j hj => ?_, fun i j hj hneg hacyclic => ?_⟩
  · rw [hmarked, isMarked_iff hb hfirst hi]
  · exact (Nat.le_add_left ..).trans (hstep i j hj)
  · have hlt := hstep i j hj
    rw [hmarked] at hacyclic
    rw [step, hneg, hacyclic, Bool.not_false, Bool.and_self, if_pos rfl] at hlt
    omega

end Table

end Layer

end BottomUpPeg
