import BottomUpPeg.Proofs.Emptiness

namespace BottomUpPeg

namespace Flags

def stage (shape : Nat → Shape) : Nat → Nat → Flags
  | 0, _ => unset
  | height + 1, i => (shape i).flags (stage shape height)

theorem stage_le_succ (shape : Nat → Shape) (height i : Nat) :
    (stage shape height i).Le (stage shape (height + 1) i) := by
  induction height generalizing i with
  | zero => exact ⟨by simp [stage, unset], by simp [stage, unset]⟩
  | succ height ih => exact Shape.flags_mono fun j _ => ih j

variable {clauses : Array Linked}

def Reached (clauses : Array Linked) (height : Nat) (t : Table) : Prop :=
  ∀ i, (t.get i).Le (stage (fun i => (Linked.clause clauses i).shape) height i)

theorem Reached.raise {height i : Nat} {t t' : Table} (ht : Reached clauses height t)
    (h : Flags.raise clauses t i = .ok t') : Reached clauses (height + 1) t' := by
  obtain ⟨_, rfl⟩ := raise_ok h
  intro j
  have hstays := (ht j).trans (stage_le_succ _ height j)
  rw [Table.get_set]
  split
  · rename_i hij
    obtain ⟨rfl, _⟩ := hij
    exact or_le hstays (Shape.flags_mono fun c _ => ht c)
  · exact hstays

theorem Reached.foldlM (is : List Nat) {height : Nat} {t t' : Table} (ht : Reached clauses height t)
    (h : is.foldlM (Flags.raise clauses) t = .ok t') : ∃ height', Reached clauses height' t' := by
  induction is generalizing height t with
  | nil =>
      cases h
      exact ⟨height, ht⟩
  | cons i is ih =>
      rw [List.foldlM_cons] at h
      cases hi : Flags.raise clauses t i with
      | error e => rw [hi] at h; cases h
      | ok mid =>
          rw [hi] at h
          exact ih (ht.raise hi) h

theorem Reached.settle (fuel : Nat) {height : Nat} {t t' : Table} (ht : Reached clauses height t)
    (h : Flags.settle clauses fuel t = .ok t') : ∃ height', Reached clauses height' t' := by
  induction fuel generalizing height t with
  | zero =>
      cases h
      exact ⟨height, ht⟩
  | succ fuel ih =>
      rw [Flags.settle] at h
      split at h
      · cases h
      · rename_i swept hswept
        split at h
        · cases h
          exact ⟨height, ht⟩
        · obtain ⟨height', ht'⟩ := ht.foldlM _ hswept
          exact ih ht' h

theorem table_reached {t : Table} (h : table clauses = .ok t) :
    ∃ height, Reached clauses height t := by
  have hstart : Reached clauses 0 (Array.replicate clauses.size unset) := by
    intro i
    have hget : Table.get (Array.replicate clauses.size unset) i = unset := by
      simp only [Table.get, Array.getElem?_replicate]
      split <;> rfl
    rw [hget]
    exact Le.refl _
  exact hstart.settle _ h

end Flags

theorem Source.compile_founded {source : Source} {g : Grammar} (h : source.compile = .ok g) :
    ∃ height, ∀ i, (g.flags i).Le (Flags.stage g.shape height i) := by
  obtain ⟨clauses, flags, _, hassembled, _, _, hflags, _⟩ := compile_assembled h
  obtain ⟨height, hreached⟩ := Flags.table_reached hflags
  refine ⟨height, fun i => ?_⟩
  rw [hassembled.flags_eq (Flags.table_ok hflags).1.size_eq, funext hassembled.shape_eq]
  exact hreached i

namespace Grammar

variable {g : Grammar}

theorem stage_le_flags (hg : g.Lawful) (height : Nat) {i : Nat} (hi : i < g.size) :
    (Flags.stage g.shape height i).Le (g.flags i) := by
  induction height generalizing i with
  | zero => exact ⟨by simp [Flags.stage, Flags.unset], by simp [Flags.stage, Flags.unset]⟩
  | succ height ih =>
      rw [hg.flags_eq i hi]
      exact Shape.flags_mono fun j hj => ih (hg.bounded i j hj)

theorem emptyStep_isSome_of_flags {part : Nat → Option Match} {flags : Nat → Flags} {s : Shape}
    (h : ∀ j ∈ s.children, (flags j).always = true → (part j).isSome = true)
    (hs : (s.flags flags).always = true) (pos c : Nat) : (s.emptyStep pos part c).isSome = true := by
  cases s with
  | terminal t =>
      cases t with
      | nothing => rfl
      | chars set | start => cases hs
      | literal text ignoreCase =>
          change text.toList.isEmpty = true at hs
          simp only [Shape.emptyStep, hs, if_true]
          rfl
  | group kind slots =>
      have hslots : ∀ s ∈ slots, (flags s.clause).always = true → (part s.clause).isSome = true :=
        fun s hs => h s.clause (List.mem_map_of_mem hs)
      cases kind with
      | seq =>
          rw [Shape.emptyStep, Option.isSome_map, mapM_isSome, List.all_eq_true]
          exact fun s hmem => hslots s hmem (List.all_eq_true.mp hs s hmem)
      | first | longest =>
          obtain ⟨s, hmem, halways⟩ := List.any_eq_true.mp hs
          simp only [Shape.emptyStep, Option.isSome_map, Look.first_isSome, List.any_eq_true]
          exact ⟨s, hmem, hslots s hmem halways⟩
  | unary kind slot =>
      cases kind with
      | oneOrMore =>
          rw [Shape.emptyStep, Option.isSome_map]
          exact h slot.clause (List.mem_singleton_self _) hs
      | followedBy => rfl
      | notFollowedBy => cases hs

-- The clauses on the path have no derivation as low as that of the clause looked for, so cutting
-- them off leaves its lowest derivation in place.
theorem emptyMatch_isSome_of_stage (hg : g.Lawful) (pos : Nat) {height fuel c : Nat}
    {path : List Nat} (hc : c < g.size) (halways : (Flags.stage g.shape height c).always = true)
    (hpath : ∀ v ∈ path, v < g.size ∧ (Flags.stage g.shape height v).always = false)
    (hnodup : path.Nodup) (hfuel : g.size ≤ path.length + fuel) :
    (g.emptyMatch pos fuel path c).isSome = true := by
  induction height generalizing fuel c path with
  | zero => cases halways
  | succ height ih =>
      have hlower : ∀ v, (Flags.stage g.shape (height + 1) v).always = false →
          (Flags.stage g.shape height v).always = false := by
        intro v hv
        by_contra hheight
        have hsucc := (Flags.stage_le_succ g.shape height v).1 (by simpa using hheight)
        rw [hv] at hsucc
        cases hsucc
      have hbelow : ∀ v ∈ path, v < g.size ∧ (Flags.stage g.shape height v).always = false :=
        fun v hv => ⟨(hpath v hv).1, hlower v (hpath v hv).2⟩
      cases hheight : (Flags.stage g.shape height c).always with
      | true => exact ih hc hheight hbelow hnodup hfuel
      | false =>
          have hnew : c ∉ path := by
            intro hmem
            rw [(hpath c hmem).2] at halways
            cases halways
          have hnodup' : (c :: path).Nodup := List.nodup_cons.mpr ⟨hnew, hnodup⟩
          have hcount := Graph.length_le_of_nodup hnodup'
            (List.forall_mem_cons.mpr ⟨hc, fun v hv => (hpath v hv).1⟩)
          rw [List.length_cons] at hcount
          obtain ⟨fuel, rfl⟩ := Nat.exists_eq_add_one_of_ne_zero (n := fuel) (by omega)
          have hflag : (g.clause c).always = true := (stage_le_flags hg (height + 1) hc).1 halways
          rw [emptyMatch_succ, hflag, List.contains_eq_mem, decide_eq_false hnew]
          refine emptyStep_isSome_of_flags (fun j hj hstage => ?_) halways pos c
          refine ih (hg.bounded c j hj) hstage (List.forall_mem_cons.mpr ⟨⟨hc, hheight⟩, hbelow⟩)
            hnodup' ?_
          rw [List.length_cons]
          omega

theorem lookup_isSome_of_flag (hg : g.Lawful) {height : Nat}
    (hfounded : ∀ i, (g.flags i).Le (Flags.stage g.shape height i)) {input : Input} {c pos : Nat}
    (hmemoized : (g.shape c).isMemoized = true) (halways : (g.clause c).always = true) (view : View) :
    (g.lookup input view c pos).isSome = true := by
  have hempty : (g.emptyMatch pos g.size [] c).isSome = true :=
    emptyMatch_isSome_of_stage hg pos (lt_size_of_isMemoized hmemoized) ((hfounded c).1 halways)
      (by simp) List.nodup_nil (by simp)
  rw [lookup_of_isMemoized hmemoized, Option.isSome_or, hempty, Bool.or_true]

end Grammar

end BottomUpPeg
