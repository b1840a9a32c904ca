import BottomUpPeg.Clause.Flags
import BottomUpPeg.Proofs.Folding
import Mathlib.Data.Finset.Prod
import Mathlib.Data.Fintype.Card

namespace BottomUpPeg

namespace Flags

def Le (a b : Flags) : Prop := (a.always = true → b.always = true) ∧ (a.zero = true → b.zero = true)

theorem Le.refl (a : Flags) : a.Le a := ⟨id, id⟩

theorem Le.trans {a b c : Flags} (h : a.Le b) (h' : b.Le c) : a.Le c :=
  ⟨fun ha => h'.1 (h.1 ha), fun ha => h'.2 (h.2 ha)⟩

theorem Le.antisymm {a b : Flags} (h : a.Le b) (h' : b.Le a) : a = b := by
  obtain ⟨aa, az⟩ := a
  obtain ⟨ba, bz⟩ := b
  simp only [mk.injEq]
  exact ⟨Bool.eq_iff_iff.mpr ⟨h.1, h'.1⟩, Bool.eq_iff_iff.mpr ⟨h.2, h'.2⟩⟩

theorem le_or_left (a b : Flags) : a.Le (a.or b) := by
  constructor <;> intro h <;> simp [or, h]

theorem le_or_right (a b : Flags) : b.Le (a.or b) := by
  constructor <;> intro h <;> simp [or, h]

theorem or_le {a b c : Flags} (h : a.Le c) (h' : b.Le c) : (a.or b).Le c := by
  constructor <;> intro hor <;> simp only [or, Bool.or_eq_true] at hor
  · exact hor.elim h.1 h'.1
  · exact hor.elim h.2 h'.2

def Coherent (a : Flags) : Prop := a.always = true → a.zero = true

end Flags

namespace Shape

theorem flags_mono {p q : Nat → Flags} {s : Shape} (h : ∀ i ∈ s.children, (p i).Le (q i)) :
    (s.flags p).Le (s.flags q) := by
  cases s with
  | terminal t => cases t <;> exact Flags.Le.refl _
  | group kind slots =>
      have hslots : ∀ s ∈ slots, (p s.clause).Le (q s.clause) := fun s hs =>
        h s.clause (List.mem_map_of_mem hs)
      cases kind <;> simp only [flags, Flags.Le, List.all_eq_true, List.any_eq_true]
      · exact ⟨fun ha s hs => (hslots s hs).1 (ha s hs), fun ha s hs => (hslots s hs).2 (ha s hs)⟩
      all_goals exact ⟨fun ⟨s, hs, ha⟩ => ⟨s, hs, (hslots s hs).1 ha⟩,
        fun ⟨s, hs, ha⟩ => ⟨s, hs, (hslots s hs).2 ha⟩⟩
  | unary kind slot =>
      have hslot := h slot.clause (List.mem_singleton_self _)
      cases kind with
      | oneOrMore => exact hslot
      | followedBy => exact ⟨hslot.1, id⟩
      | notFollowedBy => exact Flags.Le.refl _

theorem flags_coherent {p : Nat → Flags} (h : ∀ i, (p i).Coherent) (s : Shape) :
    (s.flags p).Coherent := by
  cases s with
  | terminal t => cases t <;> simp [flags, Flags.Coherent]
  | group kind slots =>
      cases kind <;> simp only [flags, Flags.Coherent, List.all_eq_true, List.any_eq_true]
      · exact fun ha s hs => h s.clause (ha s hs)
      all_goals exact fun ⟨s, hs, ha⟩ => ⟨s, hs, h s.clause ha⟩
  | unary kind slot =>
      cases kind with
      | oneOrMore => exact h slot.clause
      | followedBy => exact fun _ => rfl
      | notFollowedBy => simp [flags, Flags.Coherent]

end Shape

namespace Flags.Table

theorem get_of_size_le {t : Table} {i : Nat} (h : t.size ≤ i) : t.get i = unset := by
  simp [get, h]

theorem get_set (t : Table) (i j : Nat) (a : Flags) :
    get (t.setIfInBounds i a) j = if i = j ∧ i < t.size then a else t.get j := by
  simp only [get, Array.getElem?_setIfInBounds]
  by_cases hij : i = j
  · subst hij
    by_cases hi : i < t.size <;> simp [hi]
  · simp [hij]

theorem ext_get {t t' : Table} (hsize : t.size = t'.size) (h : ∀ i, t.get i = t'.get i) : t = t' := by
  apply Array.ext hsize
  intro i hi hi'
  have hget := h i
  simpa [get, hi, hi'] using hget

def Le (t t' : Table) : Prop := t.size = t'.size ∧ ∀ i, (t.get i).Le (t'.get i)

theorem Le.refl (t : Table) : t.Le t := ⟨rfl, fun _ => Flags.Le.refl _⟩

theorem Le.trans {t₁ t₂ t₃ : Table} (h : t₁.Le t₂) (h' : t₂.Le t₃) : t₁.Le t₃ :=
  ⟨h.1.trans h'.1, fun i => (h.2 i).trans (h'.2 i)⟩

theorem Le.antisymm {t t' : Table} (h : t.Le t') (h' : t'.Le t) : t = t' :=
  ext_get h.1 fun i => (h.2 i).antisymm (h'.2 i)

def raised (t : Table) : Finset (Nat × Bool) :=
  (Finset.range t.size ×ˢ Finset.univ).filter fun p =>
    (bif p.2 then (t.get p.1).always else (t.get p.1).zero) = true

theorem card_raised_le (t : Table) : t.raised.card ≤ 2 * t.size := by
  refine (Finset.card_filter_le _ _).trans ?_
  simp [Nat.mul_comm]

theorem card_raised_lt {t t' : Table} (h : t.Le t') (hne : t ≠ t') :
    t.raised.card < t'.raised.card := by
  apply Finset.card_lt_card
  refine ⟨?_, fun hsub => hne (h.antisymm ⟨h.1.symm, fun i => ?_⟩)⟩
  · rintro ⟨i, b⟩ hp
    simp only [raised, Finset.mem_filter, Finset.mem_product, Finset.mem_range] at hp ⊢
    refine ⟨⟨h.1 ▸ hp.1.1, hp.1.2⟩, ?_⟩
    cases b
    · exact (h.2 i).2 hp.2
    · exact (h.2 i).1 hp.2
  · by_cases hi : i < t'.size
    · constructor
      · intro ha
        have hmem := @hsub (i, true) (by simp [raised, hi, ha])
        simpa [raised, h.1, hi] using hmem
      · intro hz
        have hmem := @hsub (i, false) (by simp [raised, hi, hz])
        simpa [raised, h.1, hi] using hmem
    · rw [get_of_size_le (Nat.le_of_not_lt hi)]
      exact ⟨by simp [unset], by simp [unset]⟩

end Flags.Table

namespace Flags

variable {clauses : Array Linked}

/-- Every flag that is set has a reason in the flags of the parts, and none that always matches is
said to need characters. -/
structure Justified (clauses : Array Linked) (t : Table) : Prop where
  size_eq : t.size = clauses.size
  le_flags : ∀ i, (t.get i).Le ((Linked.clause clauses i).shape.flags t.get)
  coherent : ∀ i, (t.get i).Coherent

theorem raise_ok {t t' : Table} {i : Nat} (h : raise clauses t i = .ok t') :
    (Linked.clause clauses i).shape.shadowing? t.get = none ∧
      t' = t.setIfInBounds i ((t.get i).or ((Linked.clause clauses i).shape.flags t.get)) := by
  simp only [raise] at h
  split at h
  · cases h
  · rename_i hnone
    cases h
    exact ⟨hnone, rfl⟩

theorem raise_le {t t' : Table} {i : Nat} (h : raise clauses t i = .ok t') : t.Le t' := by
  obtain ⟨_, rfl⟩ := raise_ok h
  refine ⟨by simp, fun j => ?_⟩
  rw [Table.get_set]
  split
  · rename_i hij
    rw [hij.1]
    exact le_or_left _ _
  · exact Le.refl _

theorem Justified.raise {t t' : Table} {i : Nat} (hj : Justified clauses t)
    (h : raise clauses t i = .ok t') : Justified clauses t' := by
  have hle := raise_le h
  obtain ⟨_, rfl⟩ := raise_ok h
  refine ⟨by rw [← hle.1, hj.size_eq], fun j => ?_, fun j => ?_⟩
  · refine Le.trans ?_ (Shape.flags_mono fun i _ => hle.2 i)
    rw [Table.get_set]
    split
    · rename_i hij
      rw [← hij.1]
      exact or_le (hj.le_flags i) (Le.refl _)
    · exact hj.le_flags j
  · rw [Table.get_set]
    split
    · intro ha
      have hflags := Shape.flags_coherent hj.coherent (Linked.clause clauses i).shape
      simp only [or, Bool.or_eq_true] at ha ⊢
      exact ha.imp (hj.coherent i) hflags
    · exact hj.coherent j

theorem foldlM_raise_le (is : List Nat) {t t' : Table}
    (h : is.foldlM (raise clauses) t = .ok t') : t.Le t' :=
  (steps_of_foldlM Table.Le.refl Table.Le.trans (fun _ _ _ _ => raise_le) h).1

theorem Justified.foldlM (is : List Nat) {t t' : Table} (hj : Justified clauses t)
    (h : is.foldlM (Flags.raise clauses) t = .ok t') : Justified clauses t' :=
  foldlM_invariant (fun _ _ _ _ => Justified.raise) hj h

theorem raise_eq_of_foldlM_eq (is : List Nat) {t : Table}
    (h : is.foldlM (raise clauses) t = .ok t) : ∀ i ∈ is, raise clauses t i = .ok t := by
  intro i hi
  obtain ⟨t₁, t₂, hbefore, hraise, hafter⟩ :=
    (steps_of_foldlM Table.Le.refl Table.Le.trans (fun _ _ _ _ => raise_le) h).2 i hi
  obtain rfl : t₁ = t := ((raise_le hraise).trans hafter).antisymm hbefore
  rwa [hafter.antisymm (raise_le hraise)] at hraise

theorem settle_ok (fuel : Nat) {t t' : Table} (hj : Justified clauses t)
    (hfuel : 2 * clauses.size < fuel + t.raised.card) (h : settle clauses fuel t = .ok t') :
    Justified clauses t' ∧ sweep clauses t' = .ok t' := by
  induction fuel generalizing t with
  | zero =>
      have hcard := Table.card_raised_le t
      rw [hj.size_eq] at hcard
      omega
  | succ fuel ih =>
      rw [settle] at h
      split at h
      · cases h
      · rename_i swept hswept
        split at h
        · rename_i heq
          cases h
          exact ⟨hj, heq ▸ hswept⟩
        · rename_i hne
          have hlt := Table.card_raised_lt (foldlM_raise_le _ hswept) (Ne.symm hne)
          exact ih (hj.foldlM _ hswept) (by omega) h

theorem justified_unset (clauses : Array Linked) :
    Justified clauses (Array.replicate clauses.size unset) := by
  have hget : ∀ i, Table.get (Array.replicate clauses.size unset) i = unset := by
    intro i
    simp only [Table.get, Array.getElem?_replicate]
    split <;> rfl
  refine ⟨by simp, fun i => ?_, fun i => ?_⟩
  · rw [hget]
    exact ⟨by simp [unset], by simp [unset]⟩
  · rw [hget]
    simp [Coherent, unset]

theorem table_ok {t : Table} (h : table clauses = .ok t) :
    Justified clauses t ∧ ∀ i < clauses.size,
      t.get i = (Linked.clause clauses i).shape.flags t.get ∧
        (Linked.clause clauses i).shape.shadowing? t.get = none := by
  obtain ⟨hj, hsweep⟩ := settle_ok _ (justified_unset clauses) (by omega) h
  refine ⟨hj, fun i hi => ?_⟩
  have hraise := raise_eq_of_foldlM_eq _ hsweep i (List.mem_range.mpr hi)
  obtain ⟨hshadow, heq⟩ := raise_ok hraise
  refine ⟨(hj.le_flags i).antisymm ?_, hshadow⟩
  have hget := congrArg (fun t : Table => t.get i) heq
  simp only [Table.get_set, hj.size_eq, hi, and_self, if_true] at hget
  rw [hget]
  exact le_or_right _ _

end Flags

end BottomUpPeg
