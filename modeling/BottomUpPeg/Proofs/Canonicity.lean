import BottomUpPeg.CharSet.Basic

namespace BottomUpPeg

theorem rank_le_rank {a b : Char} : rank a ≤ rank b ↔ a ≤ b := by
  have ha := toNat_cases a
  have hb := toNat_cases b
  rw [Char.le_def, UInt32.le_iff_toNat_le]
  change rank a ≤ rank b ↔ a.toNat ≤ b.toNat
  unfold rank
  split <;> split <;> omega

theorem rank_lt_rank {a b : Char} : rank a < rank b ↔ a < b := by
  rw [← Nat.not_le, rank_le_rank, Char.not_le]

theorem exists_rank {n : Nat} {d : Char} (h : n ≤ rank d) : ∃ c, rank c = n := by
  have hd := toNat_cases d
  have hbound : rank d < 0x110000 - 0x800 := by
    unfold rank
    split <;> omega
  by_cases hlow : n < 0xD800
  · have hnat := toNat_ofNat_of_isValidChar (n := n) (.inl hlow)
    exact ⟨Char.ofNat n, by rw [rank, hnat, if_pos hlow]⟩
  · have hnat := toNat_ofNat_of_isValidChar (n := n + 0x800) (.inr (by omega))
    exact ⟨Char.ofNat (n + 0x800), by rw [rank, hnat, if_neg (by omega)]; omega⟩

namespace CharRange

variable {r s : CharRange} {ranges : List CharRange} {c : Char}

theorem contains_iff : r.contains c = true ↔ rank r.first ≤ rank c ∧ rank c ≤ rank r.last := by
  rw [contains, Bool.and_eq_true, decide_eq_true_eq, decide_eq_true_eq]

theorem contains_between {a b : Char} :
    (between a b).contains c = true ↔ a ≤ c ∧ c ≤ b ∨ b ≤ c ∧ c ≤ a := by
  simp only [← rank_le_rank]
  rw [contains_iff, between]
  split <;> dsimp only <;> omega

theorem position_spec (r : CharRange) (c : Char) :
    match r.position c with
    | .lt => rank r.last < rank c
    | .eq => r.contains c = true
    | .gt => rank c < rank r.first := by
  by_cases hlt : rank r.last < rank c
  · simpa only [position, if_pos hlt]
  · by_cases hgt : rank c < rank r.first
    · simpa only [position, if_neg hlt, if_pos hgt]
    · simpa only [position, if_neg hlt, if_neg hgt, contains_iff] using by omega

theorem not_contains_of_before (h : r.Before s) (hc : rank s.first ≤ rank c) :
    r.contains c = false := by
  rw [Before] at h
  rw [← Bool.not_eq_true, contains_iff]
  omega

theorem not_contains_of_after (h : r.Before s) (hc : rank c ≤ rank r.last) :
    s.contains c = false := by
  rw [Before] at h
  rw [← Bool.not_eq_true, contains_iff]
  omega

theorem seek_eq_any (h : Normal ranges) {fuel : Nat} (hfuel : ranges.length ≤ fuel) (c : Char) :
    seek c fuel ranges = ranges.any (·.contains c) := by
  induction fuel generalizing ranges with
  | zero =>
      rw [List.eq_nil_of_length_eq_zero (Nat.le_zero.mp hfuel)]
      rfl
  | succ fuel ih =>
      have hsplit := (List.take_append_drop (ranges.length / 2) ranges).symm
      have hleft : (ranges.take (ranges.length / 2)).length = ranges.length / 2 :=
        List.length_take_of_le (Nat.div_le_self ..)
      rw [seek]
      generalize hhalf : ranges.length / 2 = half at hsplit hleft ⊢
      generalize ranges.take half = left at hsplit hleft ⊢
      cases hright : ranges.drop half with
      | nil =>
          have hnil : ranges = [] := by
            have hlength := List.length_drop (i := half) (l := ranges)
            rw [hright, List.length_nil] at hlength
            exact List.eq_nil_of_length_eq_zero (by omega)
          rw [hnil]
          rfl
      | cons r right =>
          rw [hright] at hsplit
          rw [hsplit] at h hfuel ⊢
          obtain ⟨hnormal, hr, hbetween⟩ := List.pairwise_append.mp h
          obtain ⟨hafter, hnormal'⟩ := List.pairwise_cons.mp hr
          rw [List.length_append, List.length_cons] at hfuel
          have hbefore : ∀ t ∈ left, t.Before r :=
            fun t ht => hbetween t ht r (List.mem_cons_self ..)
          have hspec := position_spec r c
          have hr := r.ordered
          rw [List.any_append, List.any_cons]
          cases hposition : r.position c with
          | eq =>
              rw [hposition] at hspec
              simp only [hposition, hspec, Bool.true_or, Bool.or_true]
          | lt =>
              rw [hposition] at hspec
              have hnone : left.any (·.contains c) = false := List.any_eq_false.mpr fun t ht => by
                simp [not_contains_of_before (hbefore t ht) (by omega : rank r.first ≤ rank c)]
              have hnot : r.contains c = false := by
                rw [← Bool.not_eq_true, contains_iff]
                omega
              simp only [hposition, hnone, hnot, Bool.false_or]
              exact ih hnormal' (by omega)
          | gt =>
              rw [hposition] at hspec
              have hnone : right.any (·.contains c) = false := List.any_eq_false.mpr fun t ht => by
                simp [not_contains_of_after (hafter t ht) (by omega : rank c ≤ rank r.last)]
              have hnot : r.contains c = false := by
                rw [← Bool.not_eq_true, contains_iff]
                omega
              simp only [hposition, hnone, hnot, Bool.or_false]
              exact ih hnormal (by omega)

theorem contains_extend (hfirst : rank r.first ≤ rank s.first) (htouches : r.Touches s) :
    (r.extend s).contains c = (r.contains c || s.contains c) := by
  have hr := r.ordered
  have hs := s.ordered
  have hlast := rank_last_extend r s
  rw [Touches, successor?_eq_some_iff] at htouches
  rw [Bool.eq_iff_iff, Bool.or_eq_true, contains_iff, contains_iff, contains_iff, hlast]
  change rank r.first ≤ rank c ∧ _ ↔ _
  omega

theorem any_joinOnto (h : Ascending (r :: ranges)) :
    (joinOnto r ranges).any (·.contains c) = (r :: ranges).any (·.contains c) := by
  induction ranges generalizing r with
  | nil => rfl
  | cons s rest ih =>
      obtain ⟨hr, hs⟩ := List.pairwise_cons.mp h
      obtain ⟨hrs, hrest⟩ := List.forall_mem_cons.mp hr
      rw [joinOnto]
      split
      · rename_i htouches
        have hascending : Ascending (r.extend s :: rest) :=
          List.pairwise_cons.mpr ⟨hrest, (List.pairwise_cons.mp hs).2⟩
        rw [ih hascending, List.any_cons, contains_extend hrs htouches, Bool.or_assoc]
        rfl
      · rw [List.any_cons, ih hs]
        rfl

theorem any_collect (ranges : List CharRange) (c : Char) :
    (collect ranges).any (·.contains c) = ranges.any (·.contains c) := by
  have hsorted : (sort ranges).any (·.contains c) = ranges.any (·.contains c) := by
    rw [Bool.eq_iff_iff, List.any_eq_true, List.any_eq_true]
    simp only [mem_sort]
  have hascending := sort_ascending ranges
  rw [← hsorted, collect]
  cases hsort : sort ranges with
  | nil => rfl
  | cons r rest => exact any_joinOnto (hsort ▸ hascending)

theorem first_le_of_contains (h : Normal (r :: ranges))
    (hc : (r :: ranges).any (·.contains c) = true) : rank r.first ≤ rank c := by
  have hr := r.ordered
  obtain ⟨t, ht, hc⟩ := List.any_eq_true.mp hc
  have hle := (contains_iff.mp hc).1
  rcases List.mem_cons.mp ht with rfl | ht
  · exact hle
  · have hbefore := (List.pairwise_cons.mp h).1 t ht
    rw [Before] at hbefore
    omega

theorem contains_first (r : CharRange) (ranges : List CharRange) :
    (r :: ranges).any (·.contains r.first) = true := by
  rw [List.any_cons, contains_iff.mpr ⟨Nat.le_refl _, r.ordered⟩, Bool.true_or]

theorem contains_tail (hc : rank r.last < rank c) :
    (r :: ranges).any (·.contains c) = ranges.any (·.contains c) := by
  have hnot : r.contains c = false := by
    rw [← Bool.not_eq_true, contains_iff]
    omega
  rw [List.any_cons, hnot, Bool.false_or]

theorem not_contains_tail (h : Normal (r :: ranges)) (hc : rank c ≤ rank r.last + 1) :
    ranges.any (·.contains c) = false := by
  refine List.any_eq_false.mpr fun t ht => ?_
  have hbefore := (List.pairwise_cons.mp h).1 t ht
  rw [Before] at hbefore
  rw [contains_iff]
  omega

-- If the second interval went on, the character right behind the first would tell them apart.
theorem last_le_of_same {ranges' : List CharRange} (h : Normal (r :: ranges))
    (hfirst : rank r.first = rank s.first)
    (hsame : ∀ c, (r :: ranges).any (·.contains c) = (s :: ranges').any (·.contains c)) :
    rank s.last ≤ rank r.last := by
  refine Nat.le_of_not_lt fun hlt => ?_
  have hr := r.ordered
  obtain ⟨c, hc⟩ := exists_rank (n := rank r.last + 1) (d := s.last) (by omega)
  have hin : (s :: ranges').any (·.contains c) = true := by
    rw [List.any_cons, contains_iff.mpr (by omega), Bool.true_or]
  rw [← hsame, contains_tail (by omega), not_contains_tail h (by omega)] at hin
  cases hin

theorem eq_of_same {ranges ranges' : List CharRange} (h : Normal ranges) (h' : Normal ranges')
    (hsame : ∀ c, ranges.any (·.contains c) = ranges'.any (·.contains c)) : ranges = ranges' := by
  induction ranges generalizing ranges' with
  | nil =>
      cases ranges' with
      | nil => rfl
      | cons s rest => exact absurd ((hsame s.first).trans (contains_first s rest)) (by simp)
  | cons r ranges ih =>
      cases ranges' with
      | nil => exact absurd ((hsame r.first).symm.trans (contains_first r ranges)) (by simp)
      | cons s ranges' =>
          have hfirst : rank r.first = rank s.first := Nat.le_antisymm
            (first_le_of_contains h ((hsame s.first).trans (contains_first s ranges')))
            (first_le_of_contains h' ((hsame r.first).symm.trans (contains_first r ranges)))
          have hlast : rank r.last = rank s.last := Nat.le_antisymm
            (last_le_of_same h' hfirst.symm fun c => (hsame c).symm)
            (last_le_of_same h hfirst hsame)
          have hrs : r = s := by
            cases r
            cases s
            cases rank_inj.mp hfirst
            cases rank_inj.mp hlast
            rfl
          subst hrs
          have htails : ∀ c, ranges.any (·.contains c) = ranges'.any (·.contains c) := by
            intro c
            rcases Nat.lt_or_ge (rank r.last) (rank c) with hafter | hbefore
            · exact (contains_tail hafter).symm.trans ((hsame c).trans (contains_tail hafter))
            · rw [not_contains_tail h (by omega), not_contains_tail h' (by omega)]
          rw [ih (List.pairwise_cons.mp h).2 (List.pairwise_cons.mp h').2 htails]

end CharRange

namespace CharSet

theorem contains_eq (s : CharSet) (c : Char) :
    s.contains c = (s.ranges.any (·.contains c) != s.inverted) := by
  rw [contains, CharRange.seek_eq_any s.normal (Nat.le_refl _)]

theorem contains_ofPairs {pairs : List (Char × Char)} {c : Char} :
    (ofPairs pairs).contains c = true ↔
      ∃ p ∈ pairs, p.1 ≤ c ∧ c ≤ p.2 ∨ p.2 ≤ c ∧ c ≤ p.1 := by
  have hranges : (ofPairs pairs).ranges =
      CharRange.collect (pairs.map fun p => CharRange.between p.1 p.2) := rfl
  have hinverted : (ofPairs pairs).inverted = false := rfl
  rw [contains_eq, hranges, CharRange.any_collect, hinverted]
  simp [CharRange.contains_between]

theorem eq_iff {s t : CharSet} :
    s = t ↔ s.inverted = t.inverted ∧ ∀ c, s.contains c = t.contains c := by
  refine ⟨fun h => h ▸ ⟨rfl, fun _ => rfl⟩, fun ⟨hinverted, hsame⟩ => ?_⟩
  have hranges : s.ranges = t.ranges := CharRange.eq_of_same s.normal t.normal fun c => by
    simpa [contains_eq, hinverted] using hsame c
  cases s
  cases t
  cases hranges
  cases hinverted
  rfl

/-- The ways to come by a set of characters. -/
inductive Built : CharSet → Prop
  | pairs (pairs : List (Char × Char)) : Built (ofPairs pairs)
  | chars (text : String) : Built (ofString text)
  | singleton (c : Char) : Built (singleton c)
  | range (a b : Char) : Built (range a b)
  | digits : Built digits
  | whitespace : Built whitespace
  | any : Built any
  | union {s t : CharSet} : Built s → Built t → Built (s.union t)
  | invert {s : CharSet} : Built s → Built s.invert

theorem ofPairs_ends {s : CharSet} (h : s.inverted = false) :
    ofPairs (s.ranges.map fun r => (r.first, r.last)) = s := by
  refine eq_iff.mpr ⟨h.symm, fun c => ?_⟩
  have hends : ∀ r ∈ s.ranges, CharRange.between r.first r.last = r := fun r _ => by
    rw [CharRange.between, dif_pos r.ordered]
  have hranges : (ofPairs (s.ranges.map fun r => (r.first, r.last))).ranges =
      CharRange.collect s.ranges := by
    have hmap : (s.ranges.map fun r => (r.first, r.last)).map
        (fun p => CharRange.between p.1 p.2) = s.ranges := by
      rw [List.map_map]
      exact (List.map_congr_left hends).trans (List.map_id _)
    rw [ofPairs, hmap]
    rfl
  rw [contains_eq, hranges, CharRange.any_collect, contains_eq, h]
  rfl

theorem built (s : CharSet) : s.Built := by
  cases hinverted : s.inverted with
  | false => exact ofPairs_ends hinverted ▸ .pairs _
  | true =>
      have hinvert : s.invert.inverted = false := by simp [invert, hinverted]
      have htwice : s.invert.invert = s := by simp [invert]
      exact htwice ▸ .invert (ofPairs_ends hinvert ▸ .pairs _)

theorem sets_are_canonical :
    (∀ pairs : List (Char × Char),
      let s := ofPairs pairs
      s.inverted = false ∧ (∀ r ∈ s.ranges, r.first ≤ r.last) ∧
        (s.ranges.Pairwise fun r t => r.last < t.first ∧ successor? r.last ≠ some t.first) ∧
        ∀ c, s.contains c = true ↔ ∃ p ∈ pairs, p.1 ≤ c ∧ c ≤ p.2 ∨ p.2 ≤ c ∧ c ≤ p.1) ∧
      (∀ s : CharSet, s.Built) ∧
      ∀ s t : CharSet, s = t ↔ s.inverted = t.inverted ∧ ∀ c, s.contains c = t.contains c := by
  refine ⟨fun pairs => ⟨rfl, fun r _ => rank_le_rank.mp r.ordered, ?_, fun c => contains_ofPairs⟩,
    built, fun s t => eq_iff⟩
  refine (ofPairs pairs).normal.imp fun {r t} hbefore => ⟨?_, ?_⟩
  · rw [CharRange.Before] at hbefore
    exact rank_lt_rank.mp (by omega)
  · exact fun hnext => CharRange.not_touches_iff.mpr hbefore (.inr hnext)

/-- Pairs that overlap, stand the wrong way round and touch, once across the surrogates. -/
def scattered : List (Char × Char) :=
  [('x', 'z'), ('\ue000', '\ue005'), ('f', 'b'), ('a', 'c'), ('g', 'g'), ('\ud7ff', '\ud7ff')]

theorem scattered_pairs_are_joined :
    (ofPairs scattered).ranges.map (fun r => (r.first, r.last)) =
        [('a', 'g'), ('x', 'z'), ('\ud7ff', '\ue005')] ∧
      (ofPairs scattered).contains 'e' = true ∧ (ofPairs scattered).contains 'h' = false ∧
      ∀ c, (ofString "cba").contains c = (range 'a' 'c').contains c := by
  obtain ⟨hpairs, _, hequal⟩ := sets_are_canonical
  obtain ⟨_, _, _, hcontains⟩ := hpairs scattered
  refine ⟨by decide, (hcontains 'e').mpr (by decide), ?_, ((hequal _ _).mp (by decide)).2⟩
  rw [← Bool.not_eq_true, hcontains]
  decide

end CharSet

end BottomUpPeg
