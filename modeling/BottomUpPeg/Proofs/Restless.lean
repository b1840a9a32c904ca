import BottomUpPeg.Proofs.Nesting
import BottomUpPeg.Proofs.Variation
import Mathlib.Data.Set.Finite.Lemmas
import Mathlib.Order.Filter.AtTopBot.Basic
import Mathlib.Order.Filter.Finite
import Mathlib.Order.OrderIsoNat

open Filter

namespace BottomUpPeg

variable {g : Grammar} {input : Input}

def Grammar.keys (g : Grammar) (input : Input) : Finset Key :=
  (Finset.range g.size ×ˢ Finset.range (input.size + 1)).image fun (c, pos) => ⟨c, pos⟩

theorem Key.Proper.mem_keys {k : Key} (h : k.Proper g input) : k ∈ g.keys input :=
  Finset.mem_image.mpr ⟨(k.clause, k.start), Finset.mem_product.mpr
    ⟨Finset.mem_range.mpr (Grammar.lt_size_of_isMemoized h.memoized),
      Finset.mem_range.mpr (Nat.lt_succ_of_le h.start_le)⟩, rfl⟩

namespace Parse

theorem view_succ_cases (g : Grammar) (input : Input) (n : Nat) (k : Key) :
    (run g input (n + 1)).table.view k = (run g input n).table.view k ∨
      k ∈ (run g input n).state.active ∧
        ∃ m, g.evaluate input (run g input n).table.view k = some m ∧
          (run g input n).table.improvedBy g k m = true ∧
          (run g input (n + 1)).table.view k = some m := by
  rcases state_run_succ g input n with heq | heq
  · left
    rw [table, heq]
    rfl
  have htable : (run g input (n + 1)).table = ((run g input n).state.round g input).table :=
    congrArg State.table heq
  by_cases hdue : k ∈ (run g input n).state.due g
  · rw [htable, State.view_round_of_mem hdue]
    cases hm : g.evaluate input (run g input n).state.table.view k with
    | none => exact .inl rfl
    | some m =>
        rw [State.improved]
        split
        · rename_i himproved
          exact .inr ⟨(State.mem_due.mp hdue).1, m, hm, himproved, rfl⟩
        · exact .inl rfl
  · left
    rw [htable]
    exact State.view_round_of_not_mem hdue

theorem view_eq_of_still {N : Nat} {k : Key}
    (h : ∀ n ≥ N, (run g input (n + 1)).table.view k = (run g input n).table.view k) :
    ∀ n ≥ N, (run g input n).table.view k = (run g input N).table.view k := by
  intro n hn
  induction n, hn using Nat.le_induction with
  | base => rfl
  | succ n hn ih => rw [h n hn, ih]

theorem proper_of_view (hg : g.Lawful) {n : Nat} {k : Key}
    (h : (run g input n).table.view k ≠ none) : k.Proper g input := by
  obtain ⟨m, hm⟩ := Option.ne_none_iff_exists'.mp h
  exact (run_valid hg input n).keys k (Table.mem_of_view hm)

def Restless (g : Grammar) (input : Input) (k : Key) : Prop :=
  ∃ᶠ n in atTop, (run g input (n + 1)).table.view k ≠ (run g input n).table.view k

theorem Restless.stored {k : Key} (h : Restless g input k) :
    ∃ n, (run g input n).table.view k ≠ none := by
  obtain ⟨n, _, hchange⟩ := frequently_atTop.mp h 0
  refine ⟨n + 1, ?_⟩
  rcases view_succ_cases g input n k with hsame | ⟨_, m, _, _, hm⟩
  · exact absurd hsame hchange
  · rw [hm]
    exact Option.some_ne_none m

theorem Restless.proper (hg : g.Lawful) {k : Key} (h : Restless g input k) : k.Proper g input := by
  obtain ⟨n, hn⟩ := h.stored
  exact proper_of_view hg hn

structure Calm (g : Grammar) (input : Input) (N : Nat) : Prop where
  still : ∀ k, ¬Restless g input k → ∀ n ≥ N,
    (run g input n).table.view k = (run g input N).table.view k
  stored : ∀ k, Restless g input k → ∀ n ≥ N, (run g input n).table.view k ≠ none

theorem exists_calm (hg : g.Lawful) (input : Input) : ∃ N, Calm g input N := by
  have hkeys : ∀ k ∈ g.keys input, ∀ᶠ N in atTop,
      (¬Restless g input k → ∀ n ≥ N,
        (run g input n).table.view k = (run g input N).table.view k) ∧
      (Restless g input k → ∀ n ≥ N, (run g input n).table.view k ≠ none) := by
    intro k _
    by_cases hk : Restless g input k
    · obtain ⟨N, hN⟩ := hk.stored
      refine eventually_atTop.mpr ⟨N, fun N' hN' => ⟨fun hnot => absurd hk hnot, fun _ n hn => ?_⟩⟩
      exact view_ne_none_mono (hN'.trans hn) hN
    · have hstill := not_frequently.mp hk
      simp only [ne_eq, not_not] at hstill
      obtain ⟨N, hN⟩ := eventually_atTop.mp hstill
      refine eventually_atTop.mpr ⟨N, fun N' hN' => ⟨fun _ => ?_, fun h => absurd h hk⟩⟩
      exact view_eq_of_still fun n hn => hN n (hN'.trans hn)
  obtain ⟨N, hN⟩ := ((eventually_all_finset _).mpr hkeys).exists
  refine ⟨N, fun k hk n hn => ?_, fun k hk => (hN k (hk.proper hg).mem_keys).2 hk⟩
  by_cases hproper : k.Proper g input
  · exact (hN k hproper.mem_keys).1 hk n hn
  · have hnone : ∀ i, (run g input i).table.view k = none := by
      intro i
      by_contra hview
      exact hproper (proper_of_view hg hview)
    rw [hnone, hnone]

def pending (g : Grammar) (input : Input) (n : Nat) : Finset Key :=
  (g.keys input).filter (· ∈ (run g input n).state.active)

theorem mem_pending (hg : g.Lawful) {n : Nat} {k : Key} :
    k ∈ pending g input n ↔ k ∈ (run g input n).state.active := by
  rw [pending, Finset.mem_filter]
  exact ⟨And.right, fun hk => ⟨((run_valid hg input n).active k hk).mem_keys, hk⟩⟩

theorem mem_pending_succ (hg : g.Lawful) {n : Nat}
    (hrunning : (run g input n).state.converged = false)
    (hstill : ∀ k, (run g input (n + 1)).table.view k = (run g input n).table.view k) {k : Key} :
    k ∈ pending g input (n + 1) ↔ k ∈ pending g input n ∧ k ∉ (run g input n).state.due g := by
  have hround := state_run_succ_of_running hrunning
  have hactive : (run g input (n + 1)).state.active = ((run g input n).state.waiting g).active := by
    rw [hround]
    refine State.active_round_of_stationary fun k _ => ?_
    rw [← hround]
    exact hstill k
  rw [mem_pending hg, mem_pending hg, hactive, State.mem_waiting]

theorem exists_restless (hg : g.Lawful) (hrunning : ∀ n, (run g input n).state.converged = false) :
    ∃ k, Restless g input k := by
  by_contra hnone
  push Not at hnone
  obtain ⟨N, hcalm⟩ := exists_calm hg input
  have hsucc : ∀ i k, k ∈ pending g input (N + i + 1) ↔
      k ∈ pending g input (N + i) ∧ k ∉ (run g input (N + i)).state.due g := by
    intro i k
    refine mem_pending_succ hg (hrunning _) fun k => ?_
    rw [hcalm.still k (hnone k) (N + i + 1) (by omega), hcalm.still k (hnone k) (N + i) (by omega)]
  -- Where nothing changes, the keys that are due leave and none comes back.
  have hanti : Antitone fun i => pending g input (N + i) :=
    antitone_nat_of_succ_le fun i k hk => ((hsucc i k).mp hk).1
  obtain ⟨i, hi⟩ := WellFoundedLT.antitone_chain_condition hanti
  obtain ⟨k, hk, hstratum⟩ := State.exists_stratum_eq (g := g) (hrunning (N + i))
  have hmem : k ∈ pending g input (N + i + 1) := by
    rw [← show _ = pending g input (N + i + 1) from hi (i + 1) (Nat.le_succ i)]
    exact (mem_pending hg).mpr hk
  exact ((hsucc i k).mp hmem).2 (State.mem_due.mpr ⟨hk, hstratum⟩)

namespace Calm

variable {N : Nat} (hcalm : Calm g input N)

include hcalm

theorem view_eq_none_iff {n n' : Nat} (hn : N ≤ n) (hn' : N ≤ n') (k : Key) :
    (run g input n).table.view k = none ↔ (run g input n').table.view k = none := by
  by_cases hk : Restless g input k
  · exact iff_of_false (hcalm.stored k hk n hn) (hcalm.stored k hk n' hn')
  · rw [hcalm.still k hk n hn, hcalm.still k hk n' hn']

theorem lookup_eq {n n' : Nat} (hn : N ≤ n) (hn' : N ≤ n') {c pos : Nat}
    (hk : ¬Restless g input ⟨c, pos⟩) :
    g.lookup input (run g input n).table.view c pos =
      g.lookup input (run g input n').table.view c pos := by
  refine (Grammar.lookupWithin_congr_of_stored (hcalm.view_eq_none_iff hn hn') g.size c pos).2 ?_
  rw [hcalm.still _ hk n hn, hcalm.still _ hk n' hn']

theorem lookup_of_restless (hg : g.Lawful) {n : Nat} (hn : N ≤ n) {c pos : Nat}
    (hk : Restless g input ⟨c, pos⟩) :
    g.lookup input (run g input n).table.view c pos = (run g input n).table.view ⟨c, pos⟩ := by
  obtain ⟨m, hm⟩ := Option.ne_none_iff_exists'.mp (hcalm.stored _ hk n hn)
  rw [Grammar.lookup_of_isMemoized (hk.proper hg).memoized, hm, Option.some_or]

theorem evaluate_eq_or_part (hg : g.Lawful) {k : Key} (hk : k.Proper g input)
    (hlast : ∀ r, Restless g input r → r.start ≤ k.start) {n n' : Nat} (hn : N ≤ n) (hn' : N ≤ n')
    {m m' : Match} (hm : g.evaluate input (run g input n).table.view k = some m)
    (hm' : g.evaluate input (run g input n').table.view k = some m') (hindex : m.index = m'.index) :
    m = m' ∨ ∃ d, Restless g input ⟨d, k.start⟩ ∧
      ∃ x ∈ m'.parts, (run g input n').table.view ⟨d, k.start⟩ = some x := by
  have hsound : Look.Sound g input (g.lookup input (run g input n').table.view) :=
    Grammar.lookup_sound (view_sound hg input n')
  have hlater : ∀ c q, k.start < q → ¬Restless g input ⟨c, q⟩ := fun c q hq hrestless =>
    Nat.not_lt.mpr (hlast _ hrestless) hq
  have hsame : ∀ c q, k.start ≤ q → q ≤ input.size →
      (q = k.start → ¬Restless g input ⟨c, k.start⟩) →
      g.lookup input (run g input n).table.view c q =
        g.lookup input (run g input n').table.view c q := by
    intro c q hq _ hnot
    apply hcalm.lookup_eq hn hn'
    rcases Nat.eq_or_lt_of_le hq with rfl | hlt
    · exact hnot rfl
    · exact hlater c q hlt
  rcases Shape.step_eq_or_part hsound hsame
    (fun q hq _ => hcalm.lookup_eq hn hn' (hlater k.clause q hq)) hk.start_le hm hm' hindex with
    heq | ⟨d, hd, x, hx, hfound⟩
  · exact .inl heq
  · rw [hcalm.lookup_of_restless hg hn' hd] at hfound
    exact .inr ⟨d, hd, x, hx, hfound⟩

end Calm

def lagAt (g : Grammar) (input : Input) (k : Key) (n : Nat) : WithTop (ℕ ×ₗ ℕ) :=
  match (run g input n).table.view k with
  | none => ⊤
  | some m => (g.shape k.clause).lag input.size m

theorem lagAt_of_view {k : Key} {n : Nat} {m : Match} (h : (run g input n).table.view k = some m) :
    lagAt g input k n = (g.shape k.clause).lag input.size m := by
  rw [lagAt, h]

theorem lagAt_antitone (hg : g.Lawful) (input : Input) (k : Key) : Antitone (lagAt g input k) := by
  refine antitone_nat_of_succ_le fun n => ?_
  rcases view_succ_cases g input n k with hsame | ⟨_, m, _, himproved, hm⟩
  · rw [lagAt, lagAt, hsame]
  · cases hold : (run g input n).table.view k with
    | none =>
        rw [show lagAt g input k n = ⊤ by rw [lagAt, hold]]
        exact le_top
    | some old =>
        rw [Table.improvedBy_of_view hold] at himproved
        rw [lagAt_of_view hm, lagAt_of_view hold, WithTop.coe_le_coe]
        exact Match.lag_le_of_isBetter (view_sound hg input _ k m hm)
          (view_sound hg input n k old hold) himproved

theorem exists_index_settled (hg : g.Lawful) (input : Input) (k : Key) :
    ∃ N, ∀ n ≥ N, ∀ n' ≥ N, ∀ m m', (run g input n).table.view k = some m →
      (run g input n').table.view k = some m' → m.index = m'.index := by
  obtain ⟨N, hN⟩ := WellFoundedLT.antitone_chain_condition (lagAt_antitone hg input k)
  refine ⟨N, fun n hn n' hn' m m' hm hm' => ?_⟩
  have hlag : lagAt g input k n = lagAt g input k n' := (hN n hn).symm.trans (hN n' hn')
  rw [lagAt_of_view hm, lagAt_of_view hm', WithTop.coe_inj] at hlag
  exact Shape.index_eq_of_lag hlag

-- A match without a restless part would be found again by every later evaluation of its alternative,
-- and so it would stay.
theorem Restless.eventually_part (hg : g.Lawful) {k : Key} (hk : Restless g input k)
    (hlast : ∀ r, Restless g input r → r.start ≤ k.start) :
    ∀ᶠ n in atTop, ∀ m, (run g input (n + 1)).table.view k ≠ (run g input n).table.view k →
      (run g input (n + 1)).table.view k = some m →
      ∃ d, Restless g input ⟨d, k.start⟩ ∧
        ∃ x ∈ m.parts, (run g input n).table.view ⟨d, k.start⟩ = some x := by
  obtain ⟨N, hcalm⟩ := exists_calm hg input
  obtain ⟨N', hsettled⟩ := exists_index_settled hg input k
  refine eventually_atTop.mpr ⟨max N N', fun n hn m hchange hm => ?_⟩
  rcases view_succ_cases g input n k with hsame | ⟨_, m', hfound, _, hm'⟩
  · exact absurd hsame hchange
  obtain rfl : m' = m := Option.some.inj (hm'.symm.trans hm)
  by_contra hnone
  have hkept : ∀ i ≥ n + 1, (run g input i).table.view k = some m' := by
    intro i hi
    induction i, hi using Nat.le_induction with
    | base => exact hm
    | succ i hi ih =>
        rcases view_succ_cases g input i k with hsame | ⟨_, m, hagain, himproved, hstored⟩
        · rw [hsame, ih]
        · have hindex := hsettled (i + 1) (by omega) (n + 1) (by omega) m m' hstored hm
          rcases hcalm.evaluate_eq_or_part hg (hk.proper hg) hlast (by omega) (by omega) hagain hfound
            hindex with rfl | hpart
          · exact hstored
          · exact absurd hpart hnone
  obtain ⟨i, hi, hlater⟩ := frequently_atTop.mp hk (n + 1)
  exact hlater ((hkept (i + 1) (by omega)).trans (hkept i hi).symm)

-- At the last restless position every new match holds one that was restless there before it, so all
-- of them rise together.
theorem eventually_height (hg : g.Lawful) {start : Nat}
    (hlast : ∀ r, Restless g input r → r.start ≤ start) (height : Nat) :
    ∀ᶠ n in atTop, ∀ k, Restless g input k → k.start = start →
      ∀ m, (run g input n).table.view k = some m → height ≤ m.height := by
  induction height with
  | zero => exact Eventually.of_forall fun _ _ _ _ _ _ => Nat.zero_le _
  | succ height ih =>
      have hkeys : ∀ k ∈ g.keys input, ∀ᶠ n in atTop, Restless g input k → k.start = start →
          ∀ m, (run g input n).table.view k = some m → height + 1 ≤ m.height := by
        intro k _
        by_cases hk : Restless g input k ∧ k.start = start
        · obtain ⟨hk, rfl⟩ := hk
          obtain ⟨N, hN⟩ := eventually_atTop.mp (ih.and (hk.eventually_part hg hlast))
          have hchanged : ∀ n ≥ N,
              (run g input (n + 1)).table.view k ≠ (run g input n).table.view k →
              ∀ m, (run g input (n + 1)).table.view k = some m → height + 1 ≤ m.height := by
            intro n hn hchange m hm
            obtain ⟨hhigh, hpart⟩ := hN n hn
            obtain ⟨d, hd, x, hx, hview⟩ := hpart m hchange hm
            exact (hhigh _ hd rfl x hview).trans_lt (Match.height_lt_of_mem hx)
          obtain ⟨first, hfirst, hchange⟩ := frequently_atTop.mp hk N
          refine eventually_atTop.mpr ⟨first + 1, fun n hn _ _ => ?_⟩
          induction n, hn using Nat.le_induction with
          | base => exact hchanged first hfirst hchange
          | succ n hn ih =>
              by_cases hsame : (run g input (n + 1)).table.view k = (run g input n).table.view k
              · rw [hsame]
                exact ih
              · exact hchanged n (by omega) hsame
        · exact Eventually.of_forall fun _ hrestless hstart => absurd ⟨hrestless, hstart⟩ hk
      refine ((eventually_all_finset _).mpr hkeys).mono fun n hn k hk => ?_
      exact hn k (hk.proper hg).mem_keys hk

theorem exists_converged_of_bounded (hg : g.Lawful) {bound : Nat}
    (h : ∀ n k m, (run g input n).table.view k = some m → m.height ≤ bound) :
    ∃ n, (run g input n).state.converged = true := by
  by_contra hnever
  have hrunning : ∀ n, (run g input n).state.converged = false := by simpa using hnever
  have hfinite : {k | Restless g input k}.Finite :=
    (g.keys input).finite_toSet.subset fun k hk => (hk.proper hg).mem_keys
  obtain ⟨k, hk, hlast⟩ := Set.exists_max_image _ Key.start hfinite (exists_restless hg hrunning)
  obtain ⟨N, hcalm⟩ := exists_calm hg input
  obtain ⟨n, hhigh, hn⟩ := ((eventually_height hg hlast (bound + 1)).and (eventually_ge_atTop N)).exists
  obtain ⟨m, hm⟩ := Option.ne_none_iff_exists'.mp (hcalm.stored k hk n hn)
  have hlow := h n k m hm
  have hheight := hhigh k hk rfl m hm
  omega

end Parse

end BottomUpPeg
