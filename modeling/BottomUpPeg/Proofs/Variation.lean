import BottomUpPeg.Proofs.Agreement
import BottomUpPeg.Proofs.Choices
import Mathlib.Data.Prod.Lex

namespace BottomUpPeg

section Variation

variable {g : Grammar} {input : Input} {look look' : Look} {start : Nat} {R : Nat → Prop}

theorem Look.chain_eq_or_part (hlook : look'.Sound g input)
    (hsame : ∀ c q, start ≤ q → q ≤ input.size → (q = start → ¬R c) → look c q = look' c q)
    {slots : List Slot} {pos stop : Nat} {parts : List Match} (hstart : start ≤ pos)
    (hpos : pos ≤ input.size) (h : look'.chain slots pos = some (parts, stop)) :
    look.chain slots pos = some (parts, stop) ∨
      ∃ d, R d ∧ ∃ x ∈ parts, look' d start = some x := by
  induction slots generalizing pos parts with
  | nil => exact .inl h
  | cons s slots ih =>
      rw [chain] at h
      split at h
      · cases h
      rename_i x hx
      split at h
      · cases h
      rename_i rest last hrest
      cases h
      obtain ⟨hstop, hle⟩ := Look.stop_mem hlook hpos hx
      by_cases hvaries : pos = start ∧ R s.clause
      · obtain ⟨rfl, hvaries⟩ := hvaries
        exact .inr ⟨s.clause, hvaries, x, List.mem_cons_self .., hx⟩
      · have hhead : look s.clause pos = some x := by
          rw [hsame s.clause pos hstart hpos fun heq hvary => hvaries ⟨heq, hvary⟩, hx]
        rcases ih (by omega) hle hrest with hchain | ⟨d, hd, y, hy, hfound⟩
        · left
          rw [chain, hhead]
          simp only [hchain]
        · exact .inr ⟨d, hd, y, List.mem_cons_of_mem _ hy, hfound⟩

theorem Look.head_mem_parts {tail : Nat → Option Match} {c pos : Nat} {slot : Slot} {m : Match}
    (h : look.repeated tail c slot pos = some m) :
    ∃ x ∈ m.parts, look slot.clause pos = some x := by
  rw [repeated] at h
  split at h
  · cases h
  rename_i head hhead
  refine ⟨head, ?_, hhead⟩
  split at h
  · cases h
    exact List.mem_singleton_self _
  split at h
  · cases h
    exact List.mem_singleton_self _
  split at h
  · cases h
    exact List.mem_singleton_self _
  · cases h
    exact List.mem_cons_self ..

theorem Shape.step_eq_or_part (hlook : look'.Sound g input)
    (hsame : ∀ c q, start ≤ q → q ≤ input.size → (q = start → ¬R c) → look c q = look' c q)
    {tail tail' : Nat → Option Match} (htail : ∀ q, start < q → q ≤ input.size → tail q = tail' q)
    {s : Shape} {c : Nat} (hpos : start ≤ input.size) {m m' : Match}
    (h : s.step input look tail c start = some m)
    (h' : s.step input look' tail' c start = some m') (hindex : m.index = m'.index) :
    m = m' ∨ ∃ d, R d ∧ ∃ x ∈ m'.parts, look' d start = some x := by
  have hhere : ∀ d, ¬R d → look d start = look' d start := fun d hd =>
    hsame d start (Nat.le_refl _) hpos fun _ => hd
  have hchoice : ∀ kind slots, s = .group kind slots → kind ≠ .seq →
      m = m' ∨ ∃ d, R d ∧ ∃ x ∈ m'.parts, look' d start = some x := by
    rintro kind slots rfl hkind
    obtain ⟨slot, part, hslot, hpart, hm⟩ := step_choice hkind h
    obtain ⟨slot', part', hslot', hpart', hm'⟩ := step_choice hkind h'
    rw [hindex, hslot', Option.some.injEq] at hslot
    subst hslot
    by_cases hvaries : R slot'.clause
    · refine .inr ⟨slot'.clause, hvaries, part', ?_, hpart'⟩
      rw [hm']
      exact List.mem_singleton_self _
    · left
      rw [hhere _ hvaries, hpart', Option.some.injEq] at hpart
      rw [hm, hm', hindex, hpart]
  cases s with
  | terminal t => exact .inl (Option.some.inj (h.symm.trans h'))
  | group kind slots =>
      cases kind with
      | seq =>
          obtain ⟨⟨parts, stop⟩, hchain, rfl⟩ := Option.map_eq_some_iff.mp h'
          rcases Look.chain_eq_or_part hlook hsame (Nat.le_refl _) hpos hchain with heq | hpart
          · rw [step, heq] at h
            exact .inl (Option.some.inj h).symm
          · exact .inr hpart
      | first => exact hchoice _ _ rfl (by simp)
      | longest => exact hchoice _ _ rfl (by simp)
  | unary kind slot =>
      cases kind with
      | oneOrMore =>
          by_cases hvaries : R slot.clause
          · exact .inr ⟨slot.clause, hvaries, Look.head_mem_parts h'⟩
          · left
            have hrepeated : look.repeated tail c slot start = look'.repeated tail' c slot start := by
              refine Look.repeated_congr (hhere _ hvaries) (fun head hhead hlength => ?_) c
              obtain ⟨hstop, hle⟩ := Look.stop_mem hlook hpos hhead
              exact htail head.stop (by omega) hle
            rw [step, hrepeated] at h
            exact Option.some.inj (h.symm.trans h')
      | followedBy =>
          obtain ⟨_, _, rfl⟩ := Option.map_eq_some_iff.mp h
          obtain ⟨_, _, rfl⟩ := Option.map_eq_some_iff.mp h'
          exact .inl rfl
      | notFollowedBy =>
          rw [step] at h h'
          split at h
          · cases h
          split at h'
          · cases h'
          · exact .inl (Option.some.inj (h.symm.trans h'))

end Variation

namespace Grammar

variable {g : Grammar} {input : Input}

theorem lookupWithin_congr_of_stored {view view' : View}
    (h : ∀ k, view k = none ↔ view' k = none) (fuel c pos : Nat) :
    (g.lookupWithin input view fuel c pos = none ↔ g.lookupWithin input view' fuel c pos = none) ∧
      (view ⟨c, pos⟩ = view' ⟨c, pos⟩ →
        g.lookupWithin input view fuel c pos = g.lookupWithin input view' fuel c pos) := by
  induction fuel generalizing c with
  | zero => exact ⟨Iff.rfl, fun _ => rfl⟩
  | succ fuel ih =>
      rw [lookupWithin, lookupWithin]
      split
      · exact ⟨Iff.rfl, fun _ => rfl⟩
      · -- A negative lookahead only asks whether there is a match.
        rename_i slot hshape
        have hinner := (ih slot.clause).1
        suffices hsame : _ from ⟨Eq.congr_left hsame, fun _ => hsame⟩
        cases hacyclic : (g.clause slot.clause).acyclic with
        | true => rfl
        | false =>
            simp only [Bool.false_eq_true, if_false]
            cases hx : g.lookupWithin input view fuel slot.clause pos with
            | none => rw [hinner.mp hx]
            | some x =>
                obtain ⟨y, hy⟩ := Option.ne_none_iff_exists'.mp
                  (mt hinner.mpr (hx ▸ Option.some_ne_none x))
                rw [hy]
      · refine ⟨?_, fun heq => by rw [heq]⟩
        cases hx : view ⟨c, pos⟩ with
        | none => rw [(h ⟨c, pos⟩).mp hx]
        | some x =>
            obtain ⟨y, hy⟩ := Option.ne_none_iff_exists'.mp
              (mt (h ⟨c, pos⟩).mpr (hx ▸ Option.some_ne_none x))
            simp [hy]

end Grammar

/-- What a match lacks for its clause to prefer no other: a longest choice wants length first, and
every choice an early alternative. -/
def Shape.lag (size : Nat) (m : Match) : Shape → ℕ ×ₗ ℕ
  | .group .longest _ => toLex (size - m.length, m.index)
  | _ => toLex (0, m.index)

theorem Shape.index_eq_of_lag {size : Nat} {s : Shape} {m m' : Match}
    (h : s.lag size m = s.lag size m') : m.index = m'.index := by
  unfold lag at h
  split at h
  · exact (Prod.ext_iff.mp (toLex.injective h)).2
  · exact (Prod.ext_iff.mp (toLex.injective h)).2

theorem Match.Fits.index_eq_zero {g : Grammar} {input : Input} {k : Key} {m : Match}
    (h : m.Fits g input k) (hfirst : ∀ slots, g.shape k.clause ≠ .group .first slots)
    (hlongest : ∀ slots, g.shape k.clause ≠ .group .longest slots) : m.index = 0 := by
  have hcomposed := h.wellFormed.composed_of_shape h.clause_eq rfl
  cases hshape : g.shape k.clause with
  | terminal t =>
      rw [hshape] at hcomposed
      exact hcomposed.2.1
  | group kind slots =>
      rw [hshape] at hcomposed
      cases kind with
      | seq => exact hcomposed.1
      | first => exact absurd hshape (hfirst slots)
      | longest => exact absurd hshape (hlongest slots)
  | unary kind slot =>
      rw [hshape] at hcomposed
      cases kind with
      | oneOrMore =>
          obtain ⟨_, _, hindex, _⟩ := hcomposed
          exact hindex
      | followedBy | notFollowedBy => exact hcomposed.2.1

theorem Match.lag_le_of_isBetter {g : Grammar} {input : Input} {k : Key} {m old : Match}
    (hm : m.Fits g input k) (hold : old.Fits g input k) (h : m.isBetter g old = true) :
    (g.shape k.clause).lag input.size m ≤ (g.shape k.clause).lag input.size old := by
  have hpreference : (g.shape k.clause).preference m.length m.index old.length old.index ≠ .lt := by
    intro hlt
    rw [isBetter, compareIn_eq, hm.clause_eq, hlt] at h
    cases h
  have hstop := hm.wellFormed.stop_le
  rw [Match.stop] at hstop
  have hplain : (∀ slots, g.shape k.clause ≠ .group .first slots) →
      (∀ slots, g.shape k.clause ≠ .group .longest slots) →
      toLex (0, m.index) ≤ toLex (0, old.index) := by
    intro hfirst hlongest
    rw [hm.index_eq_zero hfirst hlongest, hold.index_eq_zero hfirst hlongest]
  cases hshape : g.shape k.clause with
  | terminal t => exact hplain (by simp [hshape]) (by simp [hshape])
  | unary kind slot => exact hplain (by simp [hshape]) (by simp [hshape])
  | group kind slots =>
      rw [hshape] at hpreference
      cases kind with
      | seq => exact hplain (by simp [hshape]) (by simp [hshape])
      | first =>
          have hle : m.index ≤ old.index := Nat.compare_ne_lt.mp hpreference
          exact Prod.Lex.toLex_le_toLex.mpr (.inr ⟨rfl, hle⟩)
      | longest =>
          rw [Shape.preference] at hpreference
          apply Prod.Lex.toLex_le_toLex.mpr
          rcases Nat.lt_trichotomy m.length old.length with hlt | heq | hlt
          · rw [Nat.compare_eq_lt.mpr hlt] at hpreference
            exact absurd rfl hpreference
          · rw [heq, Nat.compare_eq_eq.mpr rfl] at hpreference
            exact .inr ⟨by rw [heq], Nat.compare_ne_lt.mp hpreference⟩
          · exact .inl (by simp only; omega)

end BottomUpPeg
