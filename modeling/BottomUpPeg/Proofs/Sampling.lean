import BottomUpPeg.CharSet.Sample
import BottomUpPeg.Proofs.Canonicity

namespace BottomUpPeg

theorem le_iff_toNat_le {a b : Char} : a ≤ b ↔ a.toNat ≤ b.toNat := by
  rw [Char.le_def, UInt32.le_iff_toNat_le]
  rfl

namespace CharSet

variable {s : CharSet} {n : UInt64} {c : Char} {e : Overflow}

theorem pick_code_le (r : CharRange) (n : UInt64) :
    r.first.toNat + n.toNat / 7 % (r.last.toNat - r.first.toNat + 1) ≤ r.last.toNat := by
  have hends : r.first.toNat ≤ r.last.toNat := le_iff_toNat_le.mp (rank_le_rank.mp r.ordered)
  have hrest : n.toNat / 7 % (r.last.toNat - r.first.toNat + 1) <
      r.last.toNat - r.first.toNat + 1 :=
    Nat.mod_lt _ (Nat.succ_pos _)
  omega

theorem contains_pick (r : CharRange) (n : UInt64) : r.contains (pick r n) = true := by
  have hcode := pick_code_le r n
  rw [CharRange.contains_iff, pick]
  split
  · rename_i hvalid
    rw [rank_le_rank, rank_le_rank, le_iff_toNat_le, le_iff_toNat_le,
      toNat_ofNat_of_isValidChar hvalid]
    exact ⟨Nat.le_add_right .., hcode⟩
  · exact ⟨Nat.le_refl _, r.ordered⟩

theorem exists_of_searchPrintable {ks : List Nat} (h : s.searchPrintable n ks = .ok (some c)) :
    ∃ k ∈ ks, n.toNat + k < UInt64.size ∧ printable (n.toNat + k) = c ∧ s.contains c = true := by
  induction ks with
  | nil => cases h
  | cons k ks ih =>
      rw [searchPrintable] at h
      split at h
      · rename_i hsize
        split at h
        · rename_i hcontains
          cases h
          exact ⟨k, List.mem_cons_self .., hsize, rfl, hcontains⟩
        · obtain ⟨j, hj, hfound⟩ := ih h
          exact ⟨j, List.mem_cons_of_mem _ hj, hfound⟩
      · cases h

theorem searchPrintable_eq_none_iff {ks : List Nat} :
    s.searchPrintable n ks = .ok none ↔
      ∀ k ∈ ks, n.toNat + k < UInt64.size ∧ s.contains (printable (n.toNat + k)) = false := by
  induction ks with
  | nil => simp [searchPrintable]
  | cons k ks ih =>
      rw [searchPrintable, List.forall_mem_cons, ← ih]
      split
      · rename_i hsize
        cases s.contains (printable (n.toNat + k)) <;> simp [hsize]
      · rename_i hsize
        simp [hsize]

theorem contains_of_sample (h : s.sample n = .ok (some c)) : s.contains c = true := by
  rw [sample] at h
  split at h
  · obtain ⟨_, _, _, _, hcontains⟩ := exists_of_searchPrintable h
    exact hcontains
  · rename_i hinverted
    obtain ⟨r, hr, rfl⟩ := Option.map_eq_some_iff.mp (Except.ok.inj h)
    rw [contains_eq, Bool.eq_false_iff.mpr hinverted, Bool.bne_false, List.any_eq_true]
    exact ⟨r, List.mem_of_getElem? hr, contains_pick r n⟩

theorem searchPrintable_error {first : Nat} {count : Nat}
    (h : s.searchPrintable n (List.range' first count) = .error e) :
    e.augend = n.toNat ∧ e.addend < first + count ∧ UInt64.size ≤ n.toNat + e.addend ∧
      ∀ k, first ≤ k → k < e.addend →
        n.toNat + k < UInt64.size ∧ s.contains (printable (n.toNat + k)) = false := by
  induction count generalizing first with
  | zero => cases h
  | succ count ih =>
      rw [List.range'_succ, searchPrintable] at h
      split at h
      · rename_i hsize
        split at h
        · cases h
        · rename_i hmissed
          obtain ⟨haugend, hlt, hover, hrest⟩ := ih h
          refine ⟨haugend, by omega, hover, fun k hfirst hk => ?_⟩
          rcases Nat.eq_or_lt_of_le hfirst with rfl | hfirst
          · exact ⟨hsize, Bool.eq_false_iff.mpr hmissed⟩
          · exact hrest k hfirst hk
      · rename_i hsize
        cases h
        exact ⟨rfl, Nat.lt_add_of_pos_right (Nat.succ_pos count), Nat.le_of_not_lt hsize,
          fun k hfirst hk => absurd hk (Nat.not_lt.mpr hfirst)⟩

structure RunsOut (s : CharSet) (n : UInt64) : Prop where
  inverted : s.inverted = true
  size_lt : UInt64.size < n.toNat + printableCount
  missed : ∀ k, n.toNat + k < UInt64.size → s.contains (printable (n.toNat + k)) = false

theorem runsOut_of_error (h : s.sample n = .error e) :
    s.RunsOut n ∧ e = ⟨n.toNat, UInt64.size - n.toNat⟩ := by
  have hlt : n.toNat < UInt64.size := n.toNat_lt
  rw [sample] at h
  split at h
  · rename_i hinverted
    rw [List.range_eq_range'] at h
    obtain ⟨haugend, haddend, hover, hbefore⟩ := searchPrintable_error h
    -- The first sum that does not fit is the one right behind the last word.
    have hfirst : e.addend = UInt64.size - n.toNat := by
      refine Nat.le_antisymm (Nat.le_of_not_lt fun hafter => ?_) (by omega)
      have hfits := (hbefore _ (Nat.zero_le _) hafter).1
      omega
    refine ⟨⟨hinverted, by omega, fun k hk => (hbefore k (Nat.zero_le k) (by omega)).2⟩, ?_⟩
    cases e
    simp only at haugend hfirst
    rw [haugend, hfirst]
  · cases h

structure Overflows (s : CharSet) (n : UInt64) (e : Overflow) : Prop where
  inverted : s.inverted = true
  augend_eq : e.augend = n.toNat
  addend_lt : e.addend < printableCount
  size_le : UInt64.size ≤ n.toNat + e.addend
  missed : ∀ k < e.addend, s.contains (printable (n.toNat + k)) = false

theorem overflows_of_sample (h : s.sample n = .error e) : s.Overflows n e := by
  obtain ⟨hout, rfl⟩ := runsOut_of_error h
  have hlt : n.toNat < UInt64.size := n.toNat_lt
  have hsize := hout.size_lt
  have hreach : n.toNat + (UInt64.size - n.toNat) = UInt64.size :=
    Nat.add_sub_cancel' (Nat.le_of_lt hlt)
  exact {
    inverted := hout.inverted
    augend_eq := rfl
    addend_lt := Nat.sub_lt_left_of_lt_add (Nat.le_of_lt hlt) hsize
    size_le := Nat.le_of_eq hreach.symm
    missed := fun k hk => hout.missed k (Nat.add_lt_of_lt_sub' hk) }

-- The last word leads to 'C', and every search that would go past it has asked for it.
theorem Overflows.not_contains (h : s.Overflows n e) : s.contains 'C' = false := by
  have hlt : n.toNat < UInt64.size := n.toNat_lt
  have hsize := h.size_le
  have hlast : n.toNat + (UInt64.size - 1 - n.toNat) = UInt64.size - 1 :=
    Nat.add_sub_cancel' (Nat.le_sub_one_of_lt hlt)
  have hmissed := h.missed (UInt64.size - 1 - n.toNat) (by rw [UInt64.size] at *; omega)
  have hprintable : printable (UInt64.size - 1) = 'C' := by decide
  rwa [hlast, hprintable] at hmissed

theorem sample_of_inverted (h : s.inverted = true) :
    s.sample n = s.searchPrintable n (List.range printableCount) := if_pos h

theorem sample_eq_error_iff :
    s.sample n = .error e ↔ s.RunsOut n ∧ e = ⟨n.toNat, UInt64.size - n.toNat⟩ := by
  refine ⟨runsOut_of_error, fun ⟨hout, he⟩ => ?_⟩
  have hlt : n.toNat < UInt64.size := n.toNat_lt
  have hsize := hout.size_lt
  cases hsample : s.sample n with
  | error e' => rw [he, (runsOut_of_error hsample).2]
  | ok found =>
      rw [sample_of_inverted hout.inverted] at hsample
      cases found with
      | none =>
          have hmem : UInt64.size - n.toNat ∈ List.range printableCount :=
            List.mem_range.mpr (by omega)
          have hfits := (searchPrintable_eq_none_iff.mp hsample _ hmem).1
          omega
      | some c =>
          obtain ⟨k, _, hfits, rfl, hcontains⟩ := exists_of_searchPrintable hsample
          rw [hout.missed k hfits] at hcontains
          cases hcontains

theorem toNat_printable (i : Nat) : (printable i).toNat = 32 + i % 95 := by
  have hvalid : (32 + i % 95).isValidChar := .inl (by omega)
  exact toNat_ofNat_of_isValidChar hvalid

theorem printable_bounds (i : Nat) : ' ' ≤ printable i ∧ printable i ≤ '~' := by
  have hlt : i % 95 < 95 := Nat.mod_lt i (by decide)
  rw [le_iff_toNat_le, le_iff_toNat_le, toNat_printable]
  exact ⟨Nat.le_add_right 32 _, Nat.add_le_add_left (Nat.le_of_lt_succ hlt) 32⟩

theorem exists_printable (n : Nat) (hspace : ' ' ≤ c) (htilde : c ≤ '~') :
    ∃ k < printableCount, printable (n + k) = c := by
  rw [le_iff_toNat_le] at hspace htilde
  change 32 ≤ c.toNat at hspace
  change c.toNat ≤ 126 at htilde
  refine ⟨(c.toNat - 32 + 95 - n % 95) % 95, Nat.mod_lt _ (by decide), Char.toNat_inj.mp ?_⟩
  rw [toNat_printable]
  omega

theorem forall_printable_iff {P : Char → Prop} (n : Nat) :
    (∀ k < printableCount, P (printable (n + k))) ↔ ∀ c, ' ' ≤ c → c ≤ '~' → P c := by
  refine ⟨fun h c hspace htilde => ?_, fun h k _ => ?_⟩
  · obtain ⟨k, hk, rfl⟩ := exists_printable n hspace htilde
    exact h k hk
  · exact h _ (printable_bounds _).1 (printable_bounds _).2

theorem forall_not_contains_iff (h : s.inverted = false) :
    (∀ c, s.contains c = false) ↔ s.ranges = [] := by
  constructor
  · intro hnone
    cases hranges : s.ranges with
    | nil => rfl
    | cons r rest =>
        have hfirst := hnone r.first
        rw [contains_eq, h, hranges, CharRange.contains_first] at hfirst
        cases hfirst
  · intro hranges c
    rw [contains_eq, h, hranges]
    rfl

theorem sample_eq_none_iff : s.sample n = .ok none ↔
    ¬s.RunsOut n ∧
      ((s.inverted = true ∧ ∀ c, ' ' ≤ c → c ≤ '~' → s.contains c = false) ∨
        (s.inverted = false ∧ ∀ c, s.contains c = false)) := by
  cases hinverted : s.inverted with
  | true =>
      rw [sample_of_inverted hinverted, searchPrintable_eq_none_iff,
        ← forall_printable_iff n.toNat]
      simp only [List.mem_range, true_and, Bool.true_eq_false, false_and, or_false]
      constructor
      · intro h
        refine ⟨fun hout => ?_, fun k hk => (h k hk).2⟩
        have hlast := (h (printableCount - 1) (by decide)).1
        have hsize := hout.size_lt
        simp only [printableCount] at hlast hsize
        omega
      · rintro ⟨hin, hmissed⟩ k hk
        refine ⟨Nat.lt_of_not_le fun hover => hin ⟨hinverted, by omega, fun j hj => ?_⟩,
          hmissed k hk⟩
        exact hmissed j (by omega)
  | false =>
      have hin : ¬s.RunsOut n := fun hout => by
        have h := hout.inverted
        rw [hinverted] at h
        cases h
      rw [forall_not_contains_iff hinverted, sample, if_neg (by simp [hinverted])]
      simp only [hin, not_false_eq_true, Bool.false_eq_true, false_and, false_or, true_and,
        Except.ok.injEq, Option.map_eq_none_iff, List.getElem?_eq_none_iff]
      refine ⟨fun h => List.eq_nil_of_length_eq_zero ?_, fun h => by simp [h]⟩
      have hlt : n.toNat % max s.ranges.length 1 < max s.ranges.length 1 :=
        Nat.mod_lt _ (Nat.lt_of_lt_of_le Nat.one_pos (Nat.le_max_right ..))
      omega

theorem printable_of_sample (h : s.sample n = .ok (some c)) (hinverted : s.inverted = true) :
    ' ' ≤ c ∧ c ≤ '~' := by
  rw [sample_of_inverted hinverted] at h
  obtain ⟨k, _, _, rfl, _⟩ := exists_of_searchPrintable h
  exact printable_bounds _

-- The only sum that can leave its word is that of the word and an offset of the search.
theorem samples_stay_in_set (s : CharSet) (n : UInt64) :
    (∀ e, s.sample n = .error e ↔ s.RunsOut n ∧ e = ⟨n.toNat, UInt64.size - n.toNat⟩) ∧
      (∀ r ∈ s.ranges, r.first.toNat ≤ r.last.toNat ∧ r.last.toNat < UInt32.size ∧
        r.first.toNat + n.toNat / 7 % (r.last.toNat - r.first.toNat + 1) ≤ r.last.toNat) ∧
      (∀ c, s.sample n = .ok (some c) →
        s.contains c = true ∧ (s.inverted = true → ' ' ≤ c ∧ c ≤ '~')) ∧
      (s.sample n = .ok none ↔
        ¬s.RunsOut n ∧
          ((s.inverted = true ∧ ∀ c, ' ' ≤ c → c ≤ '~' → s.contains c = false) ∨
            (s.inverted = false ∧ ∀ c, s.contains c = false))) := by
  refine ⟨fun e => sample_eq_error_iff, fun r _ => ⟨?_, r.last.val.toNat_lt, pick_code_le r n⟩,
    fun c hc => ⟨contains_of_sample hc, printable_of_sample hc⟩, sample_eq_none_iff⟩
  exact le_iff_toNat_le.mp (rank_le_rank.mp r.ordered)

theorem last_word_leads_to_letter :
    digits.invert.sample 18446744073709551615 = .ok (some 'C') ∧
      digits.invert.contains 'C' = true ∧ ¬digits.invert.RunsOut 18446744073709551615 := by
  obtain ⟨herror, _, hfound, _⟩ := samples_stay_in_set digits.invert 18446744073709551615
  have hsample : digits.invert.sample 18446744073709551615 = .ok (some 'C') := rfl
  refine ⟨hsample, (hfound 'C' hsample).1, fun hout => ?_⟩
  have hfails := (herror _).mpr ⟨hout, rfl⟩
  rw [hsample] at hfails
  cases hfails

def onlyLetter : CharSet := (ofPairs [(' ', 'C'), ('E', '~')]).invert

theorem last_word_misses_only_letter :
    onlyLetter.contains 'D' = true ∧ onlyLetter.sample 0 = .ok (some 'D') ∧
      onlyLetter.sample 18446744073709551615 = .error ⟨18446744073709551615, 1⟩ :=
  ⟨rfl, rfl, rfl⟩

end CharSet

end BottomUpPeg
