import BottomUpPeg.Proofs.Arithmetic

namespace BottomUpPeg

namespace Input

def Digits (input : Input) (pos length : Nat) : Prop :=
  (∀ j < length, input.digitAt (pos + j) = true) ∧ input.digitAt (pos + length) = false

def Summands (input : Input) : Nat → List Nat → Prop
  | pos, [] => pos = input.size
  | pos, d :: rest =>
      input.plusAt pos = true ∧ 0 < d ∧ input.Digits (pos + 1) d ∧ Summands input (pos + 1 + d) rest

theorem lt_size_of_digitAt {input : Input} {pos : Nat} (h : input.digitAt pos = true) :
    pos < input.size := by
  rw [digitAt] at h
  cases hc : input[pos]? with
  | none =>
      rw [hc] at h
      cases h
  | some c => exact (Array.getElem?_eq_some_iff.mp hc).1

theorem Summands.le_size {input : Input} {rest : List Nat} {pos : Nat}
    (h : input.Summands pos rest) : pos ≤ input.size := by
  induction rest generalizing pos with
  | nil => exact h.le
  | cons d rest ih =>
      have hle := ih h.2.2.2
      omega

theorem Digits.not_plusAt {input : Input} {pos length j : Nat} (h : input.Digits pos length)
    (hj : j < length) : input.plusAt (pos + j) = false := by
  cases hplus : input.plusAt (pos + j) with
  | false => rfl
  | true =>
      have hdigit := not_digitAt_of_plusAt hplus
      rw [h.1 j hj] at hdigit
      cases hdigit

end Input

/-- Whether all numbers of a sum are complete when they are added. After so many rounds the sum up
to here is complete; the next number has to be by the round after, and is added two rounds later, or
three if it only just was. -/
def paced : Nat → List Nat → Bool
  | _, [] => true
  | n, d :: rest => decide (d ≤ n + 1) && paced (if d ≤ n then n + 2 else n + 3) rest

namespace Parse

variable {g : Grammar} {input : Input}

def lengthAt (g : Grammar) (input : Input) (n c pos : Nat) : Nat :=
  Match.lengthOf ((run g input n).table.view ⟨c, pos⟩)

theorem evaluate_eq_none_of_never (h : g.IsArithmetic) {n c pos : Nat}
    (hc : (g.shape c).isMemoized = true) (hpos : pos ≤ input.size)
    (hnever : ¬EverActive g input n ⟨c, pos⟩) :
    g.evaluate input (run g input n).table.view ⟨c, pos⟩ = none := by
  have hnone : ∀ j ∈ (g.shape c).seedChildren g.zero, (∀ slot, g.shape j ≠ .unary .notFollowedBy slot) →
      g.lookup input (run g input n).table.view j pos = none := fun j hj hpositive =>
    lookup_eq_none_of_never h.lawful h.lexical hc hj hpos hnever (h.always j) hpositive
  rcases (h.isMemoized_iff c).mp hc with rfl | rfl | rfl
  · have hdigit := hnone 1 (by simp [h.num, Shape.seedChildren]) (by simp [h.digit])
    rw [Grammar.evaluate, h.num, Shape.step, Look.repeated, hdigit]
  · have hsum := hnone 4 (by rw [h.add, Shape.seedChildren, Shape.leading]; split <;> simp)
      (by simp [h.sum])
    rw [Grammar.evaluate, h.add, Shape.step, Look.chain, hsum]
    rfl
  · have hadd := hnone 3 (by simp [h.sum, Shape.seedChildren]) (by simp [h.add])
    have hnum := hnone 2 (by simp [h.sum, Shape.seedChildren]) (by simp [h.num])
    rw [Grammar.evaluate, h.sum, Shape.step, Look.first, hadd, Look.first, hnum, Look.first]
    rfl

theorem lengthAt_zero (h : g.IsArithmetic) (c pos : Nat) : lengthAt g input 0 c pos = 0 := by
  rw [lengthAt]
  cases hm : (run g input 0).table.view ⟨c, pos⟩ with
  | none => rfl
  | some m =>
      have hlexeme := (State.view_initial hm).1
      rw [Grammar.lex, h.lexical] at hlexeme
      cases hlexeme

theorem lengthAt_succ (h : g.IsArithmetic) {n c pos : Nat} (hc : (g.shape c).isMemoized = true)
    (hpos : pos ≤ input.size) :
    lengthAt g input (n + 1) c pos =
      max (lengthAt g input n c pos)
        (Match.lengthOf (g.evaluate input (run g input n).table.view ⟨c, pos⟩)) := by
  have hvalid := run_valid h.lawful input n
  rw [lengthAt, view_succ h.stratum (evaluate_eq_none_of_never h hc hpos)]
  exact (h.graded input c hc).lengthOf_improved (hvalid.best ⟨c, pos⟩) fun m hm =>
    Grammar.evaluate_fits hvalid.best hpos hm

theorem num_succ (h : g.IsArithmetic) {n pos : Nat} (hpos : pos ≤ input.size) :
    lengthAt g input (n + 1) 2 pos =
      max (lengthAt g input n 2 pos)
        (if input.digitAt pos then 1 + lengthAt g input n 2 (pos + 1) else 0) := by
  rw [lengthAt_succ h h.isMemoized_num hpos, h.lengthOf_evaluate_num]
  rfl

theorem add_succ (h : g.IsArithmetic) (n : Nat) :
    lengthAt g input (n + 1) 3 0 =
      let s := lengthAt g input n 4 0
      let t := lengthAt g input n 2 (s + 1)
      max (lengthAt g input n 3 0)
        (if 0 < s ∧ input.plusAt s = true ∧ 0 < t then s + 1 + t else 0) := by
  rw [lengthAt_succ h h.isMemoized_add (Nat.zero_le _),
    h.lengthOf_evaluate_add (view_sound h.lawful input n)]
  simp only [Nat.zero_add]
  rfl

theorem sum_succ (h : g.IsArithmetic) (n : Nat) :
    lengthAt g input (n + 1) 4 0 =
      max (lengthAt g input n 4 0)
        (if 0 < lengthAt g input n 3 0 then lengthAt g input n 3 0 else lengthAt g input n 2 0) := by
  rw [lengthAt_succ h h.isMemoized_sum (Nat.zero_le _),
    h.lengthOf_evaluate_sum (view_sound h.lawful input n)]
  rfl

theorem lengthAt_num (h : g.IsArithmetic) {pos d : Nat} (hpos : pos ≤ input.size)
    (hdigits : input.Digits pos d) (n : Nat) : lengthAt g input n 2 pos = min n d := by
  induction n generalizing pos d with
  | zero => rw [lengthAt_zero h, Nat.zero_min]
  | succ n ih =>
      rw [num_succ h hpos, ih hpos hdigits]
      cases d with
      | zero =>
          have hnone : input.digitAt pos = false := hdigits.2
          simp [hnone]
      | succ d =>
          have hdigit : input.digitAt pos = true := hdigits.1 0 (Nat.succ_pos d)
          have hrest : input.Digits (pos + 1) d := by
            refine ⟨fun j hj => ?_, ?_⟩
            · rw [show pos + 1 + j = pos + (j + 1) by omega]
              exact hdigits.1 (j + 1) (by omega)
            · rw [show pos + 1 + d = pos + (d + 1) by omega]
              exact hdigits.2
          rw [if_pos hdigit, ih (Input.lt_size_of_digitAt hdigit) hrest]
          omega

section Sum

variable (h : g.IsArithmetic) {d : Nat} (hfirst : input.Digits 0 d)

include h hfirst

theorem first_rounds (n : Nat) (hn : n ≤ d + 1) :
    lengthAt g input n 3 0 = 0 ∧ lengthAt g input n 4 0 = n - 1 := by
  induction n with
  | zero => exact ⟨lengthAt_zero h 3 0, lengthAt_zero h 4 0⟩
  | succ n ih =>
      obtain ⟨hadd, hsum⟩ := ih (by omega)
      have hnum := lengthAt_num h (Nat.zero_le _) hfirst n
      have hnot : 0 < n - 1 → input.plusAt (n - 1) = false := by
        intro hpos
        have hplus := hfirst.not_plusAt (j := n - 1) (by omega)
        rwa [Nat.zero_add] at hplus
      rw [add_succ h, sum_succ h, hadd, hsum, hnum]
      constructor
      · by_cases hpos : 0 < n - 1
        · simp [hnot hpos]
        · simp [hpos]
      · simp only [Nat.lt_irrefl, if_false]
        omega

structure Reached (g : Grammar) (input : Input) (n pos : Nat) : Prop where
  sum_eq : lengthAt g input n 4 0 = pos
  add_le : lengthAt g input n 3 0 ≤ pos

theorem reached_first : Reached g input (d + 1) d := by
  obtain ⟨hadd, hsum⟩ := first_rounds h hfirst (d + 1) (Nat.le_refl _)
  exact ⟨hsum, hadd.le.trans (Nat.zero_le _)⟩

variable {n pos e : Nat} (hreached : Reached g input n pos) (hle : d ≤ pos) (hn : 0 < n)
  (hpos : 0 < pos) (hplus : input.plusAt pos = true) (he : 0 < e)
  (hdigits : input.Digits (pos + 1) e) (hsize : pos + 1 + e ≤ input.size)

include hreached hle hn hpos hplus he hdigits hsize

theorem next_rounds :
    lengthAt g input (n + 2) 4 0 = pos + 1 + min n e ∧
      lengthAt g input (n + 2) 3 0 = pos + 1 + min (n + 1) e := by
  have hnum := lengthAt_num h (Nat.zero_le _) hfirst n
  have hnext := fun r => lengthAt_num h (by omega) hdigits r
  have hsum : lengthAt g input (n + 1) 4 0 = pos := by
    have hbefore := hreached.add_le
    rw [sum_succ h, hreached.sum_eq, hnum]
    split <;> omega
  have hadd : lengthAt g input (n + 1) 3 0 = pos + 1 + min n e := by
    have hbefore := hreached.add_le
    rw [add_succ h, hreached.sum_eq]
    simp only [hnext n, hplus, true_and]
    rw [if_pos (by omega)]
    omega
  constructor
  · rw [sum_succ h, hsum, hadd, if_pos (by omega)]
    omega
  · rw [add_succ h, hsum, hadd]
    simp only [hnext (n + 1), hplus, true_and]
    rw [if_pos (by omega)]
    omega

theorem third_round (hlt : n < e) :
    lengthAt g input (n + 3) 4 0 = pos + 1 + min (n + 1) e ∧
      lengthAt g input (n + 3) 3 0 = pos + 1 + min (n + 1) e := by
  obtain ⟨hsum, hadd⟩ := next_rounds h hfirst hreached hle hn hpos hplus he hdigits hsize
  have hnot : input.plusAt (pos + 1 + min n e) = false := by
    rw [Nat.min_eq_left hlt.le]
    exact hdigits.not_plusAt hlt
  constructor
  · rw [sum_succ h, hsum, hadd, if_pos (by omega)]
    omega
  · rw [add_succ h, hsum, hadd]
    simp [hnot]

theorem reached_next (hpace : e ≤ n + 1) :
    Reached g input (if e ≤ n then n + 2 else n + 3) (pos + 1 + e) := by
  split
  · rename_i hready
    obtain ⟨hsum, hadd⟩ := next_rounds h hfirst hreached hle hn hpos hplus he hdigits hsize
    rw [Nat.min_eq_right hready] at hsum
    rw [Nat.min_eq_right hpace] at hadd
    exact ⟨hsum, hadd.le⟩
  · rename_i hlate
    obtain ⟨hsum, hadd⟩ := third_round h hfirst hreached hle hn hpos hplus he hdigits hsize
      (Nat.lt_of_not_le hlate)
    rw [Nat.min_eq_right hpace] at hsum hadd
    exact ⟨hsum, hadd.le⟩

theorem lengthAt_of_late (hlate : n + 1 < e) (r : Nat) :
    lengthAt g input (n + 3 + r) 4 0 = pos + n + 2 ∧
      lengthAt g input (n + 3 + r) 3 0 = pos + n + 2 := by
  induction r with
  | zero =>
      obtain ⟨hsum, hadd⟩ := third_round h hfirst hreached hle hn hpos hplus he hdigits hsize
        (by omega)
      rw [Nat.min_eq_left hlate.le] at hsum hadd
      exact ⟨by rw [Nat.add_zero, hsum]; omega, by rw [Nat.add_zero, hadd]; omega⟩
  | succ r ih =>
      -- The sum ends before a digit, so that no addition from it is found any more.
      have hnot : input.plusAt (pos + n + 2) = false := by
        rw [show pos + n + 2 = pos + 1 + (n + 1) by omega]
        exact hdigits.not_plusAt hlate
      rw [← Nat.add_assoc, sum_succ h, add_succ h, ih.1, ih.2]
      simp [hnot]

end Sum

theorem lengthAt_mono (h : g.IsArithmetic) (input : Input) {n n' : Nat} (hle : n ≤ n') (c pos : Nat) :
    lengthAt g input n c pos ≤ lengthAt g input n' c pos :=
  lengthOf_mono h.lawful (h.graded input) hle ⟨c, pos⟩

theorem exists_whole_iff (h : g.IsArithmetic) {d : Nat} (hfirst : input.Digits 0 d) {rest : List Nat}
    {n pos : Nat} (hreached : Reached g input n pos) (hle : d ≤ pos) (hn : 0 < n) (hpos : 0 < pos)
    (hrest : input.Summands pos rest) :
    (∃ r, lengthAt g input r 4 0 = input.size) ↔ paced n rest = true := by
  induction rest generalizing n pos with
  | nil => simpa [paced] using ⟨n, hreached.sum_eq.trans hrest⟩
  | cons e rest ih =>
      obtain ⟨hplus, he, hdigits, hrest⟩ := hrest
      have hsize := hrest.le_size
      by_cases hpace : e ≤ n + 1
      · have hnext := reached_next h hfirst hreached hle hn hpos hplus he hdigits hsize hpace
        rw [paced, decide_eq_true hpace, Bool.true_and]
        exact ih hnext (by omega) (by split <;> omega) (by omega) hrest
      · have hlate := lengthAt_of_late h hfirst hreached hle hn hpos hplus he hdigits hsize
          (Nat.lt_of_not_le hpace)
        rw [paced, decide_eq_false hpace, Bool.false_and]
        refine ⟨fun ⟨r, hr⟩ => ?_, fun hfalse => by cases hfalse⟩
        have hbound := lengthAt_mono h input (Nat.le_add_left r (n + 3)) 4 0
        rw [hr, (hlate r).1] at hbound
        omega

end Parse

end BottomUpPeg
