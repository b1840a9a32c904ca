namespace BottomUpPeg

/-- The place of a character in the order of all characters. Surrogates are no characters, so
U+D7FF and U+E000 are neighbours. -/
def rank (c : Char) : Nat :=
  if c.toNat < 0xD800 then c.toNat else c.toNat - 0x800

/-- The gap of the surrogates is stepped over, and nothing comes after U+10FFFF. -/
def successor? (c : Char) : Option Char :=
  if c.toNat = 0xD7FF then some (Char.ofNat 0xE000)
  else if (c.toNat + 1).isValidChar then some (Char.ofNat (c.toNat + 1))
  else none

theorem toNat_cases (c : Char) : c.toNat < 0xD800 ∨ 0xDFFF < c.toNat ∧ c.toNat < 0x110000 := c.valid

theorem toNat_ofNat_of_isValidChar {n : Nat} (h : n.isValidChar) : (Char.ofNat n).toNat = n := by
  rw [Char.ofNat, dif_pos h]
  rfl

theorem rank_inj {a b : Char} : rank a = rank b ↔ a = b := by
  refine ⟨fun h => Char.toNat_inj.mp ?_, fun h => h ▸ rfl⟩
  have ha := toNat_cases a
  have hb := toNat_cases b
  unfold rank at h
  split at h <;> split at h <;> omega

theorem successor?_eq_some_iff {c d : Char} : successor? c = some d ↔ rank d = rank c + 1 := by
  have hc := toNat_cases c
  have hd := toNat_cases d
  have hnat : ∀ n : Nat, n.isValidChar → (Char.ofNat n = d ↔ n = d.toNat) := fun n hn => by
    rw [← Char.toNat_inj, toNat_ofNat_of_isValidChar hn]
  rw [successor?]
  split
  · rw [Option.some.injEq, hnat _ (by decide)]
    unfold rank
    split <;> split <;> omega
  · split
    · rename_i hvalid
      rw [Option.some.injEq, hnat _ hvalid]
      simp only [Nat.isValidChar] at hvalid
      unfold rank
      split <;> split <;> omega
    · rename_i hinvalid
      simp only [Nat.isValidChar] at hinvalid
      refine iff_of_false (by simp) ?_
      unfold rank
      split <;> split <;> omega

structure CharRange where
  first : Char
  last : Char
  ordered : rank first ≤ rank last
  deriving DecidableEq

namespace CharRange

def between (a b : Char) : CharRange :=
  if h : rank a ≤ rank b then ⟨a, b, h⟩ else ⟨b, a, by omega⟩

def contains (r : CharRange) (c : Char) : Bool :=
  rank r.first ≤ rank c && rank c ≤ rank r.last

def position (r : CharRange) (c : Char) : Ordering :=
  if rank r.last < rank c then .lt
  else if rank c < rank r.first then .gt
  else .eq

def Before (r s : CharRange) : Prop := rank r.last + 1 < rank s.first

instance (r s : CharRange) : Decidable (r.Before s) :=
  inferInstanceAs (Decidable (rank r.last + 1 < rank s.first))

def Precedes (r s : CharRange) : Prop :=
  rank r.first < rank s.first ∨ rank r.first = rank s.first ∧ rank r.last ≤ rank s.last

instance (r s : CharRange) : Decidable (r.Precedes s) :=
  inferInstanceAs (Decidable (_ ∨ _))

def insert (r : CharRange) : List CharRange → List CharRange
  | [] => [r]
  | s :: rest => if r.Precedes s then r :: s :: rest else s :: insert r rest

def sort (ranges : List CharRange) : List CharRange := ranges.foldr insert []

def Touches (r s : CharRange) : Prop :=
  rank s.first ≤ rank r.last ∨ successor? r.last = some s.first

instance (r s : CharRange) : Decidable (r.Touches s) := inferInstanceAs (Decidable (_ ∨ _))

def extend (r s : CharRange) : CharRange :=
  ⟨r.first, if rank r.last ≤ rank s.last then s.last else r.last, by
    have hr := r.ordered
    split <;> omega⟩

/-- One pass over the intervals behind one that is still open: it grows by those that it touches,
and the first that it does not touch is the next to be open. -/
def joinOnto (r : CharRange) : List CharRange → List CharRange
  | [] => [r]
  | s :: rest => if r.Touches s then joinOnto (r.extend s) rest else r :: joinOnto s rest

def join : List CharRange → List CharRange
  | [] => []
  | r :: rest => joinOnto r rest

def collect (ranges : List CharRange) : List CharRange := join (sort ranges)

/-- Ascending, disjoint and nowhere adjacent. -/
abbrev Normal (ranges : List CharRange) : Prop := ranges.Pairwise Before

/-- The intervals have to be ascending, and the fuel has to be at least their number. -/
def seek (c : Char) : Nat → List CharRange → Bool
  | 0, _ => false
  | fuel + 1, ranges =>
      match ranges.drop (ranges.length / 2) with
      | [] => false
      | r :: right =>
          match r.position c with
          | .eq => true
          | .lt => seek c fuel right
          | .gt => seek c fuel (ranges.take (ranges.length / 2))

theorem not_touches_iff {r s : CharRange} : ¬r.Touches s ↔ r.Before s := by
  rw [Touches, successor?_eq_some_iff, Before]
  omega

theorem rank_last_extend (r s : CharRange) :
    rank (r.extend s).last = max (rank r.last) (rank s.last) := by
  simp only [extend]
  split <;> omega

def Ascending (ranges : List CharRange) : Prop :=
  ranges.Pairwise fun r s => rank r.first ≤ rank s.first

theorem mem_insert {r t : CharRange} {ranges : List CharRange} :
    t ∈ insert r ranges ↔ t = r ∨ t ∈ ranges := by
  induction ranges with
  | nil => simp [insert]
  | cons s rest ih =>
      rw [insert]
      split
      · exact List.mem_cons
      · rw [List.mem_cons, ih, List.mem_cons, or_left_comm]

theorem mem_sort {t : CharRange} {ranges : List CharRange} : t ∈ sort ranges ↔ t ∈ ranges := by
  induction ranges with
  | nil => exact Iff.rfl
  | cons r rest ih => exact mem_insert.trans ((or_congr_right ih).trans List.mem_cons.symm)

theorem insert_ascending (r : CharRange) {ranges : List CharRange} (h : Ascending ranges) :
    Ascending (insert r ranges) := by
  induction ranges with
  | nil => exact List.pairwise_singleton ..
  | cons s rest ih =>
      obtain ⟨hs, hrest⟩ := List.pairwise_cons.mp h
      rw [insert]
      split
      · rename_i hprecedes
        have hrs : rank r.first ≤ rank s.first := by
          rcases hprecedes with hlt | ⟨heq, _⟩
          · exact Nat.le_of_lt hlt
          · exact Nat.le_of_eq heq
        exact List.pairwise_cons.mpr
          ⟨List.forall_mem_cons.mpr ⟨hrs, fun t ht => Nat.le_trans hrs (hs t ht)⟩, h⟩
      · rename_i hprecedes
        have hsr : rank s.first ≤ rank r.first := by
          rw [Precedes] at hprecedes
          omega
        refine List.pairwise_cons.mpr ⟨fun t ht => ?_, ih hrest⟩
        rcases mem_insert.mp ht with rfl | ht
        · exact hsr
        · exact hs t ht

theorem sort_ascending (ranges : List CharRange) : Ascending (sort ranges) := by
  induction ranges with
  | nil => exact .nil
  | cons r rest ih => exact insert_ascending r ih

theorem joinOnto_normal {r : CharRange} {ranges : List CharRange} (h : Ascending (r :: ranges)) :
    Normal (joinOnto r ranges) ∧ ∀ t ∈ joinOnto r ranges, rank r.first ≤ rank t.first := by
  induction ranges generalizing r with
  | nil => simp [joinOnto]
  | cons s rest ih =>
      obtain ⟨hr, hs⟩ := List.pairwise_cons.mp h
      obtain ⟨hrs, hrest⟩ := List.forall_mem_cons.mp hr
      rw [joinOnto]
      split
      · exact ih (r := r.extend s) (List.pairwise_cons.mpr ⟨hrest, (List.pairwise_cons.mp hs).2⟩)
      · rename_i htouches
        have hbefore := not_touches_iff.mp htouches
        obtain ⟨hnormal, hle⟩ := ih hs
        refine ⟨List.pairwise_cons.mpr ⟨fun t ht => Nat.lt_of_lt_of_le hbefore (hle t ht), hnormal⟩,
          List.forall_mem_cons.mpr ⟨Nat.le_refl _, fun t ht => Nat.le_trans hrs (hle t ht)⟩⟩

theorem normal_collect (ranges : List CharRange) : Normal (collect ranges) := by
  have hascending := sort_ascending ranges
  rw [collect]
  cases hsort : sort ranges with
  | nil => exact .nil
  | cons r rest => exact (joinOnto_normal (hsort ▸ hascending)).1

end CharRange

/-- A set of characters: the members of its ranges or, inverted, all others. The ranges are
normal, so two lists of ranges with the same members are equal. -/
structure CharSet where
  ranges : List CharRange
  inverted : Bool
  normal : CharRange.Normal ranges
  deriving DecidableEq

namespace CharSet

def ofRanges (ranges : List CharRange) : CharSet :=
  ⟨CharRange.collect ranges, false, CharRange.normal_collect ranges⟩

def ofPairs (pairs : List (Char × Char)) : CharSet :=
  ofRanges (pairs.map fun p => CharRange.between p.1 p.2)

def range (a b : Char) : CharSet := ofPairs [(a, b)]

def singleton (c : Char) : CharSet := range c c

def ofString (s : String) : CharSet := ofPairs (s.toList.map fun c => (c, c))

def digits : CharSet := range '0' '9'

def whitespace : CharSet := ofString " \t\r\n"

def invert (s : CharSet) : CharSet := { s with inverted := !s.inverted }

def any : CharSet := (ofRanges []).invert

def union (s t : CharSet) : CharSet :=
  { ofRanges (s.ranges ++ t.ranges) with inverted := s.inverted }

def contains (s : CharSet) (c : Char) : Bool :=
  CharRange.seek c s.ranges.length s.ranges != s.inverted

def single? (s : CharSet) : Option Char :=
  match s.ranges, s.inverted with
  | [r], false => if r.first = r.last then some r.first else none
  | _, _ => none

end CharSet

end BottomUpPeg
