import BottomUpPeg.Proofs.FlagTable

namespace BottomUpPeg.Flags

variable {clauses : Array Linked}

def equations (clauses : Array Linked) (f : Nat → Flags) (i : Nat) : Flags :=
  if i < clauses.size then (Linked.clause clauses i).shape.flags f else unset

theorem equations_mono {f f' : Nat → Flags} (h : ∀ i, (f i).Le (f' i)) (i : Nat) :
    (equations clauses f i).Le (equations clauses f' i) := by
  rw [equations, equations]
  split
  · exact Shape.flags_mono fun j _ => h j
  · exact Le.refl _

structure LeastSolution (clauses : Array Linked) (f : Nat → Flags) : Prop where
  solves : ∀ i, equations clauses f i = f i
  least : ∀ f', (∀ i, equations clauses f' i = f' i) → ∀ i, (f i).Le (f' i)

section

open Classical

noncomputable def common (clauses : Array Linked) (i : Nat) : Flags :=
  ⟨decide (∀ f, (∀ j, (equations clauses f j).Le (f j)) → (f i).always = true),
    decide (∀ f, (∀ j, (equations clauses f j).Le (f j)) → (f i).zero = true)⟩

theorem common_le {f : Nat → Flags} (h : ∀ j, (equations clauses f j).Le (f j)) (i : Nat) :
    (common clauses i).Le (f i) :=
  ⟨fun ha => of_decide_eq_true ha f h, fun hz => of_decide_eq_true hz f h⟩

theorem le_common {i : Nat} {a : Flags}
    (h : ∀ f, (∀ j, (equations clauses f j).Le (f j)) → a.Le (f i)) : a.Le (common clauses i) :=
  ⟨fun ha => decide_eq_true fun f hf => (h f hf).1 ha,
    fun hz => decide_eq_true fun f hf => (h f hf).2 hz⟩

end

theorem exists_leastSolution (clauses : Array Linked) : ∃ f, LeastSolution clauses f := by
  have hclosed : ∀ i, (equations clauses (common clauses) i).Le (common clauses i) := fun i =>
    le_common fun f hf => (equations_mono (common_le hf) i).trans (hf i)
  refine ⟨common clauses, fun i => (hclosed i).antisymm ?_, fun f' hf' i => ?_⟩
  · exact common_le (equations_mono hclosed) i
  · exact common_le (fun j => (hf' j).symm ▸ Le.refl _) i

/-- Recomputes the flags of one clause. If they differ from those it has, they are added to them and
the change is noted, whichever way they differ. -/
def recheck (clauses : Array Linked) (state : Table × Bool) (i : Nat) :
    Except GrammarError (Table × Bool) :=
  let c := Linked.clause clauses i
  match c.shape.shadowing? state.1.get with
  | some index => .error (.shadowedAlternative c.form index)
  | none =>
      let new := c.shape.flags state.1.get
      if new = state.1.get i then .ok state
      else .ok (state.1.setIfInBounds i ((state.1.get i).or new), true)

/-- The unbounded loop over all clauses, from a table to its outcome: it ends with the first error,
or with a pass that notes no change. -/
inductive Settles (clauses : Array Linked) : Table → Except GrammarError Table → Prop
  | fails {t : Table} {e : GrammarError} :
      (List.range clauses.size).foldlM (recheck clauses) (t, false) = .error e →
      Settles clauses t (.error e)
  | ends {t t' : Table} :
      (List.range clauses.size).foldlM (recheck clauses) (t, false) = .ok (t', false) →
      Settles clauses t (.ok t')
  | again {t t' : Table} {outcome : Except GrammarError Table} :
      (List.range clauses.size).foldlM (recheck clauses) (t, false) = .ok (t', true) →
      Settles clauses t' outcome → Settles clauses t outcome

theorem or_eq_right {a b : Flags} (h : a.Le b) : a.or b = b :=
  (or_le h (Le.refl b)).antisymm (le_or_right a b)

-- Every flag that is set has a reason, so a recomputed flag never falls below the one it is
-- compared with, and a noted change is a change of the table.
theorem recheck_eq {t : Table} (hj : Justified clauses t) {i : Nat} (hi : i < clauses.size)
    (changed : Bool) :
    recheck clauses (t, changed) i =
      (raise clauses t i).map fun t' => (t', changed || decide (t' ≠ t)) := by
  rw [recheck, raise]
  cases hshadow : (Linked.clause clauses i).shape.shadowing? t.get with
  | some index => rfl
  | none =>
      have hor := or_eq_right (hj.le_flags i)
      have hget := Table.get_set t i i ((Linked.clause clauses i).shape.flags t.get)
      rw [hj.size_eq, if_pos ⟨rfl, hi⟩] at hget
      simp only [hor]
      split
      · rename_i hsame
        have hset : t.setIfInBounds i ((Linked.clause clauses i).shape.flags t.get) = t := by
          refine Table.ext_get (by simp) fun j => ?_
          rw [Table.get_set]
          split
          · rename_i hij
            rw [← hij.1, hsame]
          · rfl
        simp [Except.map, hset]
      · rename_i hdiffers
        have hset : t.setIfInBounds i ((Linked.clause clauses i).shape.flags t.get) ≠ t := by
          intro heq
          rw [heq] at hget
          exact hdiffers hget.symm
        simp [Except.map, hset]

theorem foldlM_recheck_eq (is : List Nat) (his : ∀ i ∈ is, i < clauses.size) {t : Table}
    (hj : Justified clauses t) (changed : Bool) :
    is.foldlM (recheck clauses) (t, changed) =
      (is.foldlM (raise clauses) t).map fun t' => (t', changed || decide (t' ≠ t)) := by
  induction is generalizing t changed with
  | nil =>
      change Except.ok (t, changed) = Except.ok (t, changed || decide (t ≠ t))
      simp
  | cons i is ih =>
      obtain ⟨hi, his⟩ := List.forall_mem_cons.mp his
      rw [List.foldlM_cons, List.foldlM_cons, recheck_eq hj hi]
      cases hraise : raise clauses t i with
      | error e => rfl
      | ok mid =>
          change is.foldlM (recheck clauses) (mid, changed || decide (mid ≠ t)) =
            (is.foldlM (raise clauses) mid).map _
          rw [ih his (hj.raise hraise)]
          cases hrest : is.foldlM (raise clauses) mid with
          | error e => rfl
          | ok t' =>
              have hback : t' = t → mid = t := fun heq =>
                (heq ▸ foldlM_raise_le is hrest).antisymm (raise_le hraise)
              simp only [Except.map, Except.ok.injEq, Prod.mk.injEq, true_and, Bool.or_assoc]
              congr 1
              by_cases hmid : mid = t
              · simp [hmid]
              · simpa [hmid] using fun heq => hmid (hback heq)

theorem settles_settle (fuel : Nat) {t : Table} (hj : Justified clauses t)
    (hfuel : 2 * clauses.size < fuel + t.raised.card) :
    Settles clauses t (settle clauses fuel t) := by
  induction fuel generalizing t with
  | zero =>
      have hcard := Table.card_raised_le t
      rw [hj.size_eq] at hcard
      omega
  | succ fuel ih =>
      have hpass := foldlM_recheck_eq (List.range clauses.size) (fun i hi => List.mem_range.mp hi)
        hj false
      change _ = (sweep clauses t).map _ at hpass
      rw [settle]
      cases hswept : sweep clauses t with
      | error e =>
          rw [hswept] at hpass
          exact .fails hpass
      | ok swept =>
          rw [hswept] at hpass
          by_cases hsame : swept = t
          · subst hsame
            simp only [if_true]
            exact .ends (by simpa [Except.map] using hpass)
          · simp only [hsame, if_false]
            have hlt := Table.card_raised_lt (foldlM_raise_le _ hswept) (Ne.symm hsame)
            have hswept' := hj.foldlM _ hswept
            exact .again (by simpa [Except.map, hsame] using hpass) (ih hswept' (by omega))

def Shadowed (clauses : Array Linked) (f : Nat → Flags) (i index : Nat) : Prop :=
  ∃ slots slot, (Linked.clause clauses i).shape = .group .first slots ∧
    slots.dropLast[index]? = some slot ∧ (f slot.clause).always = true

theorem shadowed_of_shadowing? {f : Nat → Flags} {i index : Nat}
    (h : (Linked.clause clauses i).shape.shadowing? f = some index) :
    Shadowed clauses f i index := by
  rw [Shape.shadowing?.eq_def] at h
  split at h
  · rename_i slots hshape
    obtain ⟨hlt, halways, _⟩ := List.findIdx?_eq_some_iff_getElem.mp h
    exact ⟨slots, _, hshape, List.getElem?_eq_getElem hlt, halways⟩
  · cases h

theorem not_shadowed_of_shadowing? {f : Nat → Flags} {i : Nat}
    (h : (Linked.clause clauses i).shape.shadowing? f = none) (index : Nat) :
    ¬Shadowed clauses f i index := by
  rintro ⟨slots, slot, hshape, hslot, halways⟩
  rw [hshape, Shape.shadowing?, List.findIdx?_eq_none_iff] at h
  rw [h slot (List.mem_of_getElem? hslot)] at halways
  cases halways

def Within (clauses : Array Linked) (f : Nat → Flags) : Except GrammarError Table → Prop
  | .ok t => ∀ i, (t.get i).Le (f i)
  | .error e => ∃ i index, Shadowed clauses f i index ∧
      e = .shadowedAlternative (Linked.clause clauses i).form index

variable {f : Nat → Flags}

theorem within_raise (hf : ∀ i, equations clauses f i = f i) {t : Table}
    (ht : Within clauses f (.ok t)) {i : Nat} (hi : i < clauses.size) :
    Within clauses f (raise clauses t i) := by
  rw [raise]
  split
  · rename_i index hshadow
    obtain ⟨slots, slot, hshape, hslot, halways⟩ := shadowed_of_shadowing? hshadow
    exact ⟨i, index, ⟨slots, slot, hshape, hslot, (ht slot.clause).1 halways⟩, rfl⟩
  · intro j
    have hflags : ((Linked.clause clauses i).shape.flags t.get).Le (f i) := by
      rw [← hf i, equations, if_pos hi]
      exact Shape.flags_mono fun c _ => ht c
    rw [Table.get_set]
    split
    · rename_i hij
      exact hij.1 ▸ or_le (ht i) hflags
    · exact ht j

theorem within_foldlM (hf : ∀ i, equations clauses f i = f i) {is : List Nat}
    (his : ∀ i ∈ is, i < clauses.size) {t : Table} (ht : Within clauses f (.ok t)) :
    Within clauses f (is.foldlM (raise clauses) t) := by
  induction is generalizing t with
  | nil => exact ht
  | cons i is ih =>
      obtain ⟨hi, his⟩ := List.forall_mem_cons.mp his
      have hmid := within_raise hf ht hi
      rw [List.foldlM_cons]
      cases hraise : raise clauses t i with
      | error e =>
          rw [hraise] at hmid
          exact hmid
      | ok mid =>
          rw [hraise] at hmid
          exact ih his hmid

theorem within_settle (hf : ∀ i, equations clauses f i = f i) (fuel : Nat) {t : Table}
    (ht : Within clauses f (.ok t)) : Within clauses f (settle clauses fuel t) := by
  induction fuel generalizing t with
  | zero => exact ht
  | succ fuel ih =>
      have hswept : Within clauses f (sweep clauses t) :=
        within_foldlM hf (fun i hi => List.mem_range.mp hi) ht
      rw [settle]
      cases hsweep : sweep clauses t with
      | error e =>
          rw [hsweep] at hswept
          exact hswept
      | ok swept =>
          rw [hsweep] at hswept
          simp only
          split
          · exact ht
          · exact ih hswept

theorem within_table (hf : ∀ i, equations clauses f i = f i) :
    Within clauses f (table clauses) := by
  refine within_settle hf _ fun i => ?_
  have hget : Table.get (Array.replicate clauses.size unset) i = unset := by
    simp only [Table.get, Array.getElem?_replicate]
    split <;> rfl
  rw [hget]
  exact ⟨by simp [unset], by simp [unset]⟩

theorem table_solves {t : Table} (h : table clauses = .ok t) (i : Nat) :
    equations clauses t.get i = t.get i := by
  obtain ⟨hj, hsolved⟩ := table_ok h
  rw [equations]
  split
  · rename_i hi
    exact (hsolved i hi).1.symm
  · rename_i hi
    rw [Table.get_of_size_le (hj.size_eq ▸ Nat.le_of_not_lt hi)]

theorem get_table_eq (hf : LeastSolution clauses f) {t : Table} (h : table clauses = .ok t) :
    t.get = f := by
  have hbelow := within_table hf.solves
  rw [h] at hbelow
  exact funext fun i => (hbelow i).antisymm (hf.least t.get (table_solves h) i)

theorem not_shadowed_of_table (hf : LeastSolution clauses f) {t : Table}
    (h : table clauses = .ok t) (i index : Nat) : ¬Shadowed clauses f i index := by
  rw [← get_table_eq hf h]
  by_cases hi : i < clauses.size
  · exact not_shadowed_of_shadowing? ((table_ok h).2 i hi).2 index
  · rintro ⟨slots, slot, hshape, _⟩
    simp [Linked.clause, hi] at hshape

theorem table_is_least_solution (clauses : Array Linked) :
    ∃ f, LeastSolution clauses f ∧
      Settles clauses (Array.replicate clauses.size unset) (table clauses) ∧
      ((∃ form index, table clauses = .error (.shadowedAlternative form index)) ↔
        ∃ i index, Shadowed clauses f i index) ∧
      (∀ e, table clauses = .error e → ∃ i index, Shadowed clauses f i index ∧
        e = .shadowedAlternative (Linked.clause clauses i).form index) ∧
      ((∀ i index, ¬Shadowed clauses f i index) →
        ∃ t, table clauses = .ok t ∧ t.size = clauses.size ∧ t.get = f) := by
  obtain ⟨f, hf⟩ := exists_leastSolution clauses
  have hwithin := within_table hf.solves
  refine ⟨f, hf, settles_settle _ (justified_unset clauses) (by omega), ?_, ?_, ?_⟩
  · constructor
    · rintro ⟨form, index, herror⟩
      rw [herror] at hwithin
      obtain ⟨i, index, hshadowed, _⟩ := hwithin
      exact ⟨i, index, hshadowed⟩
    · rintro ⟨i, index, hshadowed⟩
      cases htable : table clauses with
      | ok t => exact absurd hshadowed (not_shadowed_of_table hf htable i index)
      | error e =>
          rw [htable] at hwithin
          obtain ⟨i, index, _, rfl⟩ := hwithin
          exact ⟨_, _, rfl⟩
  · intro e herror
    rwa [herror] at hwithin
  · intro hnone
    cases htable : table clauses with
    | ok t => exact ⟨t, rfl, (table_ok htable).1.size_eq, get_table_eq hf htable⟩
    | error e =>
        rw [htable] at hwithin
        obtain ⟨i, index, hshadowed, _⟩ := hwithin
        exact absurd hshadowed (hnone i index)

end BottomUpPeg.Flags
