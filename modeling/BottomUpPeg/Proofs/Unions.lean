import BottomUpPeg.Proofs.Canonicity

namespace BottomUpPeg.CharSet

variable {s t : CharSet}

def covers (s : CharSet) (c : Char) : Bool := s.ranges.any (·.contains c)

theorem contains_eq_covers (s : CharSet) (c : Char) :
    s.contains c = (s.covers c != s.inverted) := contains_eq s c

theorem covers_union (s t : CharSet) (c : Char) :
    (s.union t).covers c = (s.covers c || t.covers c) := by
  have hranges : (s.union t).ranges = CharRange.collect (s.ranges ++ t.ranges) := rfl
  rw [covers, hranges, CharRange.any_collect, List.any_append]
  rfl

theorem inverted_union (s t : CharSet) : (s.union t).inverted = s.inverted := rfl

theorem union_invert (s t : CharSet) : s.union t.invert = s.union t := rfl

theorem invert_union (s t : CharSet) : s.invert.union t = (s.union t).invert := rfl

/-- Whether the union contains a character, by what the two sets say of it. The second set counts by
its ranges alone, and the inversion of the first turns the whole round. -/
def joins (s t : CharSet) (c : Char) : Bool :=
  match s.inverted, t.inverted with
  | false, false => s.contains c || t.contains c
  | false, true => s.contains c || !t.contains c
  | true, false => s.contains c && !t.contains c
  | true, true => s.contains c && t.contains c

theorem contains_union (s t : CharSet) (c : Char) : (s.union t).contains c = s.joins t c := by
  rw [joins, contains_eq_covers, covers_union, inverted_union, contains_eq_covers s,
    contains_eq_covers t]
  cases s.inverted <;> cases t.inverted <;> simp

def Unites (s t : CharSet) : Prop :=
  match s.inverted, t.inverted with
  | false, false => True
  | false, true => ∀ c, s.contains c = true
  | true, false => ∀ c, t.contains c = false
  | true, true => s = t

theorem joins_eq_or_iff (s t : CharSet) :
    (∀ c, s.joins t c = (s.contains c || t.contains c)) ↔ s.Unites t := by
  simp only [joins, Unites]
  cases hs : s.inverted <;> cases ht : t.inverted <;> dsimp only
  · exact iff_of_true (fun _ => rfl) trivial
  · refine forall_congr' fun c => ?_
    cases s.contains c <;> cases t.contains c <;> decide
  · refine forall_congr' fun c => ?_
    cases s.contains c <;> cases t.contains c <;> decide
  · have hsame : s = t ↔ ∀ c, s.contains c = t.contains c :=
      eq_iff.trans (and_iff_right (hs.trans ht.symm))
    rw [hsame]
    refine forall_congr' fun c => ?_
    cases s.contains c <;> cases t.contains c <;> decide

theorem unions_join_ranges (s t : CharSet) :
    (s.union t).inverted = s.inverted ∧
      s.union t.invert = s.union t ∧ s.invert.union t = (s.union t).invert ∧
      (∀ c, (s.union t).contains c = s.joins t c) ∧
      ((∀ c, (s.union t).contains c = true ↔ s.contains c = true ∨ t.contains c = true) ↔
        s.Unites t) := by
  refine ⟨inverted_union s t, union_invert s t, invert_union s t, contains_union s t, ?_⟩
  rw [← joins_eq_or_iff]
  refine forall_congr' fun c => ?_
  rw [contains_union, ← Bool.or_eq_true, ← Bool.eq_iff_iff]

theorem inverted_union_loses_letter :
    ¬(((singleton 'a').invert.union (singleton 'b')).contains 'b' = true ↔
      (singleton 'a').invert.contains 'b' = true ∨ (singleton 'b').contains 'b' = true) := by
  decide

end BottomUpPeg.CharSet
