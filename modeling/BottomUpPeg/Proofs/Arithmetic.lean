import BottomUpPeg.Proofs.Canonicity
import BottomUpPeg.Proofs.Emptiness
import BottomUpPeg.Proofs.Growth
import BottomUpPeg.Sample.Grammars

namespace BottomUpPeg

theorem CharSet.contains_range {a b : Char} (h : rank a ≤ rank b) (c : Char) :
    (CharSet.range a b).contains c = true ↔ rank a ≤ rank c ∧ rank c ≤ rank b := by
  simp only [range, contains_ofPairs, List.mem_singleton, exists_eq_left, ← rank_le_rank]
  omega

theorem rank_le_iff {c : Char} {n : Nat} (hn : n < 0xD000) : rank c ≤ n ↔ c.toNat ≤ n := by
  rw [rank]
  split <;> omega

theorem le_rank_iff {c : Char} {n : Nat} (hn : n < 0xD000) : n ≤ rank c ↔ n ≤ c.toNat := by
  rw [rank]
  split <;> omega

def Input.digitAt (input : Input) (pos : Nat) : Bool := input[pos]?.any Char.isDigit

def Input.plusAt (input : Input) (pos : Nat) : Bool := input[pos]? == some '+'

namespace Input

variable {input : Input} {pos : Nat}

theorem not_digitAt_of_plusAt (h : input.plusAt pos = true) : input.digitAt pos = false := by
  rw [plusAt, beq_iff_eq] at h
  rw [digitAt, h]
  rfl

theorem takes_digit_iff {length : Nat} :
    (Terminal.chars (CharSet.range '0' '9')).Takes input pos length ↔
      length = 1 ∧ input.digitAt pos = true := by
  have hdigit : ∀ c : Char, (CharSet.range '0' '9').contains c = true ↔ c.isDigit = true := by
    intro c
    rw [CharSet.contains_range (by decide), show rank '0' = 48 from rfl, show rank '9' = 57 from rfl,
      le_rank_iff (by decide), rank_le_iff (by decide), Char.isDigit, Bool.and_eq_true,
      decide_eq_true_eq, decide_eq_true_eq]
    exact Iff.rfl
  rw [Terminal.Takes, digitAt]
  cases hc : input[pos]? with
  | none => simp
  | some c => simp [hdigit c]

theorem takes_plus_iff {length : Nat} :
    (Terminal.chars (CharSet.singleton '+')).Takes input pos length ↔
      length = 1 ∧ input.plusAt pos = true := by
  have hplus : ∀ c : Char, (CharSet.singleton '+').contains c = true ↔ c = '+' := by
    intro c
    rw [CharSet.singleton, CharSet.contains_range (Nat.le_refl _), show rank '+' = 43 from rfl,
      le_rank_iff (by decide), rank_le_iff (by decide)]
    constructor
    · rintro ⟨hle, hge⟩
      exact Char.toNat_inj.mp (Nat.le_antisymm hge hle)
    · rintro rfl
      decide
  rw [Terminal.Takes, plusAt]
  cases hc : input[pos]? with
  | none => simp
  | some c => simp [hplus c]

end Input

structure Grammar.IsArithmetic (g : Grammar) : Prop where
  lawful : g.Lawful
  plus : g.shape 0 = .terminal (.chars (CharSet.singleton '+'))
  digit : g.shape 1 = .terminal (.chars (CharSet.range '0' '9'))
  num : g.shape 2 = .unary .oneOrMore ⟨1, none⟩
  add : g.shape 3 = .group .seq [⟨4, none⟩, ⟨0, none⟩, ⟨2, none⟩]
  sum : g.shape 4 = .group .first [⟨3, some "add"⟩, ⟨2, none⟩]
  size : g.size = 5
  lexical : g.lexical = none
  stratum : ∀ c, (g.clause c).stratum = 0
  always : ∀ c, (g.clause c).always = false
  label : ∀ c, (g.clause c).label = if c = 2 then some "num" else none
  rule : (g.rule? "Sum").map (·.clause) = some 4

theorem Sample.arithmetic_compile {g : Grammar} (h : Sample.arithmetic.compile = .ok g) :
    g.IsArithmetic := by
  have hfacts : (Sample.arithmetic.compile.toOption.all fun g =>
      decide (g.shape 0 = .terminal (.chars (CharSet.singleton '+'))) &&
      decide (g.shape 1 = .terminal (.chars (CharSet.range '0' '9'))) &&
      decide (g.shape 2 = .unary .oneOrMore ⟨1, none⟩) &&
      decide (g.shape 3 = .group .seq [⟨4, none⟩, ⟨0, none⟩, ⟨2, none⟩]) &&
      decide (g.shape 4 = .group .first [⟨3, some "add"⟩, ⟨2, none⟩]) &&
      decide (g.size = 5) && g.lexical.isNone &&
      ((List.range 5).all fun c => decide ((g.clause c).stratum = 0) && !(g.clause c).always &&
        decide ((g.clause c).label = if c = 2 then some "num" else none)) &&
      decide ((g.rule? "Sum").map (·.clause) = some 4)) = true := by decide +kernel
  simp only [h, Except.toOption, Option.all_some, Bool.and_eq_true, decide_eq_true_eq,
    Option.isNone_iff_eq_none, List.all_eq_true, List.mem_range, Bool.not_eq_true', and_assoc]
    at hfacts
  obtain ⟨hplus, hdigit, hnum, hadd, hsum, hsize, hlexical, hclauses, hrule⟩ := hfacts
  have hall : ∀ c, (g.clause c).stratum = 0 ∧ (g.clause c).always = false ∧
      (g.clause c).label = if c = 2 then some "num" else none := by
    intro c
    by_cases hc : c < 5
    · exact hclauses c hc
    · rw [Grammar.clause_of_size_le (hsize ▸ Nat.le_of_not_lt hc), if_neg (by omega)]
      exact ⟨rfl, rfl, rfl⟩
  exact
    { lawful := Source.compile_lawful h
      plus := hplus, digit := hdigit, num := hnum, add := hadd, sum := hsum, size := hsize
      lexical := hlexical
      stratum := fun c => (hall c).1
      always := fun c => (hall c).2.1
      label := fun c => (hall c).2.2
      rule := hrule }

theorem Match.isBetter_of_lengths {g : Grammar} {a b : Match}
    (hpreference : (g.shape a.clause).preference a.length a.index b.length b.index = .eq)
    (hcount : a.parts.length = b.parts.length)
    (hlengths : compareLengths a.parts b.parts = .gt) : a.isBetter g b = true := by
  rw [isBetter, compareIn_eq, hpreference, if_pos hcount, hlengths]
  rfl

theorem Match.isBetter_of_length {g : Grammar} {a b : Match}
    (hpreference : (g.shape a.clause).preference a.length a.index b.length b.index = .eq)
    (hcount : a.parts.length ≠ b.parts.length) (hlength : b.length < a.length) :
    a.isBetter g b = true := by
  rw [isBetter, compareIn_eq, hpreference, if_neg hcount, Nat.compare_eq_gt.mpr hlength]
  rfl

namespace Grammar.IsArithmetic

variable {g : Grammar} {input : Input}

def number (pos : Nat) : Nat → Match
  | 0 => Match.leaf 2 pos 0
  | 1 => ⟨2, pos, 1, 0, [Match.leaf 1 pos 1]⟩
  | length + 2 => ⟨2, pos, length + 2, 0, [Match.leaf 1 pos 1, number (pos + 1) (length + 1)]⟩

theorem length_number (pos length : Nat) : (number pos length).length = length := by
  cases length with
  | zero => rfl
  | succ length => cases length <;> rfl

def addition (pos : Nat) (s t : Match) : Match :=
  ⟨3, pos, s.length + 1 + t.length, 0, [s, Match.leaf 0 (pos + s.length) 1, t]⟩

theorem fits_digit (h : g.IsArithmetic) {pos : Nat} {m : Match} (hm : m.Fits g input ⟨1, pos⟩) :
    m = Match.leaf 1 pos 1 ∧ input.digitAt pos = true := by
  obtain ⟨hclause, hstart, hwf⟩ := hm
  obtain ⟨htakes, hindex, hparts⟩ := hwf.composed_of_shape hclause h.digit
  obtain ⟨hlength, hdigit⟩ := Input.takes_digit_iff.mp htakes
  rw [hstart] at hdigit
  exact ⟨Match.ext_fields hclause.symm hstart.symm hlength hindex hparts, hdigit⟩

theorem fits_plus (h : g.IsArithmetic) {pos : Nat} {m : Match} (hm : m.Fits g input ⟨0, pos⟩) :
    m = Match.leaf 0 pos 1 ∧ input.plusAt pos = true := by
  obtain ⟨hclause, hstart, hwf⟩ := hm
  obtain ⟨htakes, hindex, hparts⟩ := hwf.composed_of_shape hclause h.plus
  obtain ⟨hlength, hplus⟩ := Input.takes_plus_iff.mp htakes
  rw [hstart] at hplus
  exact ⟨Match.ext_fields hclause.symm hstart.symm hlength hindex hparts, hplus⟩

theorem fits_num (h : g.IsArithmetic) {pos : Nat} {m : Match} (hm : m.Fits g input ⟨2, pos⟩) :
    m = number pos m.length ∧ 0 < m.length ∧ ∀ j < m.length, input.digitAt (pos + j) = true := by
  induction hlength : m.length using Nat.strong_induction_on generalizing m pos with
  | _ length ih =>
      obtain ⟨hclause, hstart, hwf⟩ := hm
      obtain ⟨head, hhead, hindex, hcases⟩ := hwf.composed_of_shape hclause h.num
      obtain ⟨rfl, hdigit⟩ := h.fits_digit (hstart ▸ hhead)
      rcases hcases with ⟨hone, hparts⟩ | ⟨rest, hrest, hmore, hparts⟩
      · rw [hlength] at hone
        subst hone
        refine ⟨Match.ext_fields hclause.symm hstart.symm hlength hindex hparts, Nat.one_pos,
          fun j hj => ?_⟩
        rw [show j = 0 from Nat.lt_one_iff.mp hj]
        exact hdigit
      · change m.length = 1 + rest.length at hmore
        have hfits : rest.Fits g input ⟨2, pos + 1⟩ := by
          rw [hclause] at hrest
          exact hrest
        obtain ⟨hnumber, hpos, hdigits⟩ := ih rest.length (by omega) hfits rfl
        obtain ⟨l, hl⟩ := Nat.exists_eq_add_one_of_ne_zero (Nat.ne_of_gt hpos)
        rw [hl] at hnumber hmore
        have htotal : length = l + 2 := by omega
        subst htotal
        rw [hnumber] at hparts
        refine ⟨Match.ext_fields hclause.symm hstart.symm hlength hindex hparts, by omega,
          fun j hj => ?_⟩
        cases j with
        | zero => exact hdigit
        | succ j =>
            rw [show pos + (j + 1) = pos + 1 + j by omega]
            exact hdigits j (by omega)

theorem graded_num (h : g.IsArithmetic) (input : Input) : g.Graded input 2 := by
  intro pos m m' hm hm'
  obtain ⟨hnumber, hpos, _⟩ := h.fits_num hm
  obtain ⟨hnumber', hpos', _⟩ := h.fits_num hm'
  refine ⟨hpos, fun hlt => ?_, fun heq => by rw [hnumber, hnumber', heq]⟩
  rw [hnumber, hnumber']
  have hpreference : ∀ a b : Match, (g.shape 2).preference a.length a.index b.length b.index = .eq := by
    intro a b
    rw [h.num]
    rfl
  obtain ⟨l', hl'⟩ : ∃ l', m'.length = l' + 2 := ⟨m'.length - 2, by omega⟩
  rw [hl'] at hlt ⊢
  cases hl : m.length with
  | zero => omega
  | succ l =>
      cases l with
      | zero =>
          exact Match.isBetter_of_length (hpreference _ _) (by simp [number])
            (by rw [length_number, length_number]; omega)
      | succ l =>
          refine Match.isBetter_of_lengths (hpreference _ _) rfl ?_
          have hgt : compare (l' + 1) (l + 1) = .gt := Nat.compare_eq_gt.mpr (by omega)
          simp [number, Match.compareLengths, length_number, hgt]

theorem fits_add (h : g.IsArithmetic) {pos : Nat} {m : Match} (hm : m.Fits g input ⟨3, pos⟩) :
    ∃ s t, s.Fits g input ⟨4, pos⟩ ∧ input.plusAt (pos + s.length) = true ∧
      t.Fits g input ⟨2, pos + s.length + 1⟩ ∧ m = addition pos s t := by
  obtain ⟨hclause, hstart, hwf⟩ := hm
  obtain ⟨hindex, hlength, hclauses, hends, hall⟩ := hwf.composed_of_shape hclause h.add
  obtain ⟨s, plus, t, hparts⟩ : ∃ s plus t, m.parts = [s, plus, t] :=
    List.length_eq_three.mp (by simpa using congrArg List.length hclauses)
  rw [hparts] at hclauses hends hall hlength
  simp only [List.map_cons, List.map_nil, List.cons.injEq, and_true] at hclauses
  obtain ⟨hs, hplus, ht⟩ := hclauses
  obtain ⟨hsstart, hpstart, htstart, _⟩ := hends
  have hsfits : s.Fits g input ⟨4, pos⟩ := ⟨hs, hsstart.trans hstart, hall s (by simp)⟩
  have hstop : s.stop = pos + s.length := by rw [Match.stop, hsfits.start_eq]
  have hpfits : plus.Fits g input ⟨0, pos + s.length⟩ :=
    ⟨hplus, hpstart.trans hstop, hall plus (by simp)⟩
  obtain ⟨rfl, hplusAt⟩ := h.fits_plus hpfits
  have htfits : t.Fits g input ⟨2, pos + s.length + 1⟩ := ⟨ht, htstart, hall t (by simp)⟩
  refine ⟨s, t, hsfits, hplusAt, htfits, Match.ext_fields hclause.symm hstart.symm ?_ hindex hparts⟩
  rw [hlength]
  simp [Match.totalLength, addition, Match.leaf, Nat.add_assoc]

theorem fits_sum (h : g.IsArithmetic) {pos : Nat} {m : Match} (hm : m.Fits g input ⟨4, pos⟩) :
    (∃ t, t.Fits g input ⟨2, pos⟩ ∧ m = Match.choose 4 pos (1, t)) ∨
      ∃ q, q.Fits g input ⟨3, pos⟩ ∧ m = Match.choose 4 pos (0, q) := by
  obtain ⟨hclause, hstart, hwf⟩ := hm
  obtain ⟨slot, p, hslot, hfits, hlength, hparts⟩ := hwf.composed_of_shape hclause h.sum
  rw [hstart] at hfits
  cases hindex : m.index with
  | zero =>
      rw [hindex] at hslot
      cases hslot
      exact .inr ⟨p, hfits, Match.ext_fields hclause.symm hstart.symm hlength hindex hparts⟩
  | succ i =>
      cases i with
      | zero =>
          rw [hindex] at hslot
          cases hslot
          exact .inl ⟨p, hfits, Match.ext_fields hclause.symm hstart.symm hlength hindex hparts⟩
      | succ i =>
          rw [hindex] at hslot
          cases hslot

theorem le_of_plusAt (h : g.IsArithmetic) {pos : Nat} (length : Nat) {t : Match}
    (ht : t.Fits g input ⟨2, pos⟩) (hplus : input.plusAt (pos + length) = true) :
    t.length ≤ length := by
  by_contra hlt
  have hdigit := (h.fits_num ht).2.2 length (Nat.lt_of_not_le hlt)
  rw [Input.not_digitAt_of_plusAt hplus] at hdigit
  cases hdigit

theorem addition_le_of_lt (h : g.IsArithmetic) {pos length : Nat} {s t : Match}
    (ht : t.Fits g input ⟨2, pos + s.length + 1⟩) (hlt : s.length < length)
    (hplus : input.plusAt (pos + length) = true) : s.length + 1 + t.length ≤ length := by
  have hle := h.le_of_plusAt (length - s.length - 1) ht
    (by rw [show pos + s.length + 1 + (length - s.length - 1) = pos + length by omega]; exact hplus)
  omega

theorem addition_lengths (h : g.IsArithmetic) {pos : Nat} {s t s' t' : Match}
    (hplus : input.plusAt (pos + s.length) = true) (ht : t.Fits g input ⟨2, pos + s.length + 1⟩)
    (hplus' : input.plusAt (pos + s'.length) = true)
    (ht' : t'.Fits g input ⟨2, pos + s'.length + 1⟩) :
    s.length < s'.length ∧ (addition pos s t).length < (addition pos s' t').length ∨
      s'.length < s.length ∧ (addition pos s' t').length < (addition pos s t).length ∨
      s.length = s'.length := by
  have hpos := (h.fits_num ht).2.1
  have hpos' := (h.fits_num ht').2.1
  simp only [addition]
  rcases Nat.lt_trichotomy s.length s'.length with hlt | heq | hlt
  · have hle := h.addition_le_of_lt ht hlt hplus'
    exact .inl ⟨hlt, by omega⟩
  · exact .inr (.inr heq)
  · have hle := h.addition_le_of_lt ht' hlt hplus
    exact .inr (.inl ⟨hlt, by omega⟩)

theorem number_lt_add (h : g.IsArithmetic) {pos : Nat} {t q : Match} (ht : t.Fits g input ⟨2, pos⟩)
    (hq : q.Fits g input ⟨3, pos⟩) : t.length < q.length := by
  obtain ⟨s, t', _, hplus, _, rfl⟩ := h.fits_add hq
  have hle := h.le_of_plusAt _ ht hplus
  simp only [addition]
  omega

theorem addition_unique (h : g.IsArithmetic) {pos : Nat} {s t s' t' : Match}
    (hplus : input.plusAt (pos + s.length) = true) (ht : t.Fits g input ⟨2, pos + s.length + 1⟩)
    (hplus' : input.plusAt (pos + s'.length) = true)
    (ht' : t'.Fits g input ⟨2, pos + s'.length + 1⟩)
    (heq : (addition pos s t).length = (addition pos s' t').length)
    (hsum : s.length = s'.length → s = s') : addition pos s t = addition pos s' t' := by
  rcases h.addition_lengths hplus ht hplus' ht' with ⟨_, hlt⟩ | ⟨_, hlt⟩ | hsame
  · omega
  · omega
  · obtain rfl := hsum hsame
    simp only [addition] at heq
    rw [(h.graded_num input _ t t' ht ht').2.2 (by omega)]

theorem sum_unique (h : g.IsArithmetic) {pos : Nat} {m m' : Match} (hm : m.Fits g input ⟨4, pos⟩)
    (hm' : m'.Fits g input ⟨4, pos⟩) (heq : m.length = m'.length) : m = m' := by
  induction hlength : m.length using Nat.strong_induction_on generalizing m m' with
  | _ length ih =>
      rcases h.fits_sum hm with ⟨t, ht, rfl⟩ | ⟨q, hq, rfl⟩ <;>
        rcases h.fits_sum hm' with ⟨t', ht', rfl⟩ | ⟨q', hq', rfl⟩ <;>
          simp only [Match.choose] at heq hlength
      · rw [(h.graded_num input pos t t' ht ht').2.2 heq]
      · exact absurd (h.number_lt_add ht hq') (by omega)
      · exact absurd (h.number_lt_add ht' hq) (by omega)
      · obtain ⟨s, t, hs, hplus, ht, rfl⟩ := h.fits_add hq
        obtain ⟨s', t', hs', hplus', ht', rfl⟩ := h.fits_add hq'
        have hshorter : s.length < length := by
          simp only [addition] at hlength
          omega
        rw [h.addition_unique hplus ht hplus' ht' heq fun hsame => ih _ hshorter hs hs' hsame rfl]

theorem graded_add (h : g.IsArithmetic) (input : Input) : g.Graded input 3 := by
  intro pos m m' hm hm'
  obtain ⟨s, t, hs, hplus, ht, rfl⟩ := h.fits_add hm
  obtain ⟨s', t', hs', hplus', ht', rfl⟩ := h.fits_add hm'
  refine ⟨by simp only [addition]; omega, fun hlt => ?_, fun heq =>
    h.addition_unique hplus ht hplus' ht' heq (h.sum_unique hs hs')⟩
  refine Match.isBetter_of_lengths (by simp only [addition, h.add]; rfl) rfl ?_
  rcases h.addition_lengths hplus ht hplus' ht' with ⟨hless, _⟩ | ⟨_, hless⟩ | hsame
  · simp [addition, Match.compareLengths, Nat.compare_eq_gt.mpr hless]
  · omega
  · have hless : t.length < t'.length := by
      simp only [addition] at hlt
      omega
    simp [addition, Match.compareLengths, hsame, Match.leaf, Nat.compare_eq_gt.mpr hless]

theorem graded_sum (h : g.IsArithmetic) (input : Input) : g.Graded input 4 := by
  intro pos m m' hm hm'
  have hpreference : ∀ length i length' i', (g.shape 4).preference length i length' i' =
      compare i' i := by
    intro length i length' i'
    rw [h.sum]
    rfl
  refine ⟨?_, fun hlt => ?_, fun heq => h.sum_unique hm hm' heq⟩
  · rcases h.fits_sum hm with ⟨t, ht, rfl⟩ | ⟨q, hq, rfl⟩
    · exact (h.fits_num ht).2.1
    · exact (h.graded_add input pos q q hq hq).1
  · rcases h.fits_sum hm with ⟨t, ht, rfl⟩ | ⟨q, hq, rfl⟩ <;>
      rcases h.fits_sum hm' with ⟨t', ht', rfl⟩ | ⟨q', hq', rfl⟩ <;>
        simp only [Match.choose] at hlt ⊢
    · refine Match.isBetter_of_lengths (by rw [hpreference]; rfl) rfl ?_
      simp [Match.compareLengths, Nat.compare_eq_gt.mpr hlt]
    · rw [Match.isBetter, Match.compareIn_eq, hpreference]
      rfl
    · exact absurd (h.number_lt_add ht' hq) (by omega)
    · refine Match.isBetter_of_lengths (by rw [hpreference]; rfl) rfl ?_
      simp [Match.compareLengths, Nat.compare_eq_gt.mpr hlt]

theorem isMemoized_iff (h : g.IsArithmetic) (c : Nat) :
    (g.shape c).isMemoized = true ↔ c = 2 ∨ c = 3 ∨ c = 4 := by
  constructor
  · intro hmemoized
    have hlt := Grammar.lt_size_of_isMemoized hmemoized
    rw [h.size] at hlt
    have hplus : c ≠ 0 := by
      rintro rfl
      rw [h.plus] at hmemoized
      cases hmemoized
    have hdigit : c ≠ 1 := by
      rintro rfl
      rw [h.digit] at hmemoized
      cases hmemoized
    omega
  · rintro (rfl | rfl | rfl)
    · rw [h.num]
      rfl
    · rw [h.add]
      rfl
    · rw [h.sum]
      rfl

theorem graded (h : g.IsArithmetic) (input : Input) (c : Nat) (hc : (g.shape c).isMemoized = true) :
    g.Graded input c := by
  rcases (h.isMemoized_iff c).mp hc with rfl | rfl | rfl
  · exact h.graded_num input
  · exact h.graded_add input
  · exact h.graded_sum input

theorem lookup_kept (h : g.IsArithmetic) {c : Nat} (hc : (g.shape c).isMemoized = true)
    (view : View) (pos : Nat) : g.lookup input view c pos = view ⟨c, pos⟩ :=
  Grammar.lookup_of_not_always hc (h.always c) view pos

theorem lookup_digit (h : g.IsArithmetic) (view : View) (pos : Nat) :
    g.lookup input view 1 pos = if input.digitAt pos then some (Match.leaf 1 pos 1) else none := by
  rw [Grammar.lookup_terminal (by rw [h.size]; decide) h.digit]
  have hlength : (Terminal.chars (CharSet.range '0' '9')).length? input pos =
      if input.digitAt pos then some 1 else none := by
    apply Option.ext
    intro length
    rw [Terminal.length?_eq_some_iff, Input.takes_digit_iff]
    cases input.digitAt pos <;> simp [eq_comm]
  rw [hlength]
  cases input.digitAt pos <;> rfl

theorem lookup_plus (h : g.IsArithmetic) (view : View) (pos : Nat) :
    g.lookup input view 0 pos = if input.plusAt pos then some (Match.leaf 0 pos 1) else none := by
  rw [Grammar.lookup_terminal (by rw [h.size]; decide) h.plus]
  have hlength : (Terminal.chars (CharSet.singleton '+')).length? input pos =
      if input.plusAt pos then some 1 else none := by
    apply Option.ext
    intro length
    rw [Terminal.length?_eq_some_iff, Input.takes_plus_iff]
    cases input.plusAt pos <;> simp [eq_comm]
  rw [hlength]
  cases input.plusAt pos <;> rfl

theorem isMemoized_num (h : g.IsArithmetic) : (g.shape 2).isMemoized = true :=
  (h.isMemoized_iff 2).mpr (.inl rfl)

theorem isMemoized_add (h : g.IsArithmetic) : (g.shape 3).isMemoized = true :=
  (h.isMemoized_iff 3).mpr (.inr (.inl rfl))

theorem isMemoized_sum (h : g.IsArithmetic) : (g.shape 4).isMemoized = true :=
  (h.isMemoized_iff 4).mpr (.inr (.inr rfl))

theorem lengthOf_evaluate_num (h : g.IsArithmetic) (view : View) (pos : Nat) :
    Match.lengthOf (g.evaluate input view ⟨2, pos⟩) =
      if input.digitAt pos then 1 + Match.lengthOf (view ⟨2, pos + 1⟩) else 0 := by
  rw [Grammar.evaluate, h.num, Shape.step, Look.repeated, h.lookup_digit]
  cases input.digitAt pos with
  | false => rfl
  | true =>
      simp only [if_true, Match.leaf, Nat.one_ne_zero, if_false, Match.stop,
        h.lookup_kept h.isMemoized_num]
      cases view ⟨2, pos + 1⟩ with
      | none => rfl
      | some rest =>
          simp only
          split
          · rename_i hzero
            simp [Match.lengthOf, hzero]
          · rfl

theorem lengthOf_evaluate_sum (h : g.IsArithmetic) {view : View} (hview : g.SoundView input view)
    (pos : Nat) :
    Match.lengthOf (g.evaluate input view ⟨4, pos⟩) =
      if 0 < Match.lengthOf (view ⟨3, pos⟩) then Match.lengthOf (view ⟨3, pos⟩)
      else Match.lengthOf (view ⟨2, pos⟩) := by
  rw [Grammar.evaluate, h.sum, Shape.step, Look.first, h.lookup_kept h.isMemoized_add, Look.first,
    h.lookup_kept h.isMemoized_num, Look.first]
  cases hq : view ⟨3, pos⟩ with
  | some q =>
      have hpos : 0 < q.length := (h.graded_add input).lengthOf_pos (hview _ q hq)
      simp [Match.lengthOf, Match.choose, hpos]
  | none =>
      cases view ⟨2, pos⟩ with
      | none => rfl
      | some t => rfl

theorem lengthOf_evaluate_add (h : g.IsArithmetic) {view : View} (hview : g.SoundView input view)
    (pos : Nat) :
    Match.lengthOf (g.evaluate input view ⟨3, pos⟩) =
      let s := Match.lengthOf (view ⟨4, pos⟩)
      let t := Match.lengthOf (view ⟨2, pos + s + 1⟩)
      if 0 < s ∧ input.plusAt (pos + s) = true ∧ 0 < t then s + 1 + t else 0 := by
  rw [Grammar.evaluate, h.add, Shape.step, Look.chain, h.lookup_kept h.isMemoized_sum]
  cases hs : view ⟨4, pos⟩ with
  | none => rfl
  | some s =>
      have hfits := hview _ s hs
      have hpos : 0 < s.length := (h.graded_sum input).lengthOf_pos hfits
      have hstop : s.stop = pos + s.length := by rw [Match.stop, hfits.start_eq]
      simp only [Look.chain, hstop, h.lookup_plus]
      cases hplus : input.plusAt (pos + s.length) with
      | false => simp [Match.lengthOf, hplus]
      | true =>
          simp only [if_true, Match.leaf, Match.stop, h.lookup_kept h.isMemoized_num]
          cases ht : view ⟨2, pos + s.length + 1⟩ with
          | none => simp [Match.lengthOf, ht]
          | some t =>
              have htfits := hview _ t ht
              have htpos : 0 < t.length := (h.graded_num input).lengthOf_pos htfits
              have htstart := htfits.start_eq
              simp only at htstart
              simp only [Match.lengthOf, ht, hplus, hpos, htpos, and_self, if_true, Option.map_some,
                htstart]
              omega

end Grammar.IsArithmetic

end BottomUpPeg
