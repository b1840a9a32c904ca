import BottomUpPeg.Proofs.Termination

namespace BottomUpPeg.Parse

/-- The state in which a run stands after so many rounds. A round begins while keys are active and
the limit, if there is one, is not reached. -/
inductive After (g : Grammar) (input : Input) (limit : Option Nat) : Nat → State → Prop
  | start : After g input limit 0 (State.initial g input)
  | round {n : Nat} {s : State} : After g input limit n s → s.converged = false →
      (∀ max ∈ limit, s.rounds < max) → After g input limit (n + 1) (s.round g input)

structure Ends (g : Grammar) (input : Input) (limit : Option Nat) (s : State) : Prop where
  after : After g input limit s.rounds s
  stops : s.converged = true ∨ ∃ max ∈ limit, max ≤ s.rounds

variable {g : Grammar} {input : Input} {limit : Option Nat} {n : Nat} {s : State}

theorem rounds_of_running (h : ∀ j < n, (run g input j).state.converged = false) :
    (run g input n).state.rounds = n := by
  induction n with
  | zero => exact State.rounds_initial g input
  | succ n ih =>
      have hbefore := fun j (hj : j < n) => h j (Nat.lt_succ_of_lt hj)
      rw [state_run_succ_of_running (h n (Nat.lt_succ_self n)), State.rounds_round, ih hbefore]

theorem after_iff : After g input limit n s ↔
    s = (run g input n).state ∧ (∀ max ∈ limit, n ≤ max) ∧
      ∀ j < n, (run g input j).state.converged = false := by
  constructor
  · intro h
    induction h with
    | start => exact ⟨rfl, fun max _ => Nat.zero_le max, fun j hj => absurd hj (Nat.not_lt_zero j)⟩
    | @round n s _ hrunning hlimit ih =>
        obtain ⟨rfl, _, hbefore⟩ := ih
        rw [rounds_of_running hbefore] at hlimit
        refine ⟨(state_run_succ_of_running hrunning).symm, hlimit, fun j hj => ?_⟩
        rcases Nat.lt_succ_iff_lt_or_eq.mp hj with hj | rfl
        · exact hbefore j hj
        · exact hrunning
  · rintro ⟨rfl, hlimit, hbefore⟩
    induction n with
    | zero => exact .start
    | succ n ih =>
        have hrunning := hbefore n (Nat.lt_succ_self n)
        have hearlier := fun j (hj : j < n) => hbefore j (Nat.lt_succ_of_lt hj)
        rw [state_run_succ_of_running hrunning]
        refine .round (ih (fun max hmax => Nat.le_of_succ_le (hlimit max hmax)) hearlier) hrunning ?_
        rw [rounds_of_running hearlier]
        exact hlimit

theorem running_of_running (h : (run g input n).state.converged = false) {j : Nat} (hj : j ≤ n) :
    (run g input j).state.converged = false := by
  by_contra hstopped
  rw [Bool.not_eq_false] at hstopped
  rw [state_run_of_converged hstopped hj, hstopped] at h
  cases h

theorem rounds_run_of_running (h : (run g input n).state.converged = false) :
    (run g input n).state.rounds = n :=
  rounds_of_running fun _ hj => running_of_running h (Nat.le_of_lt hj)

theorem ends_run (g : Grammar) (input : Input) (n : Nat) :
    Ends g input (some n) (run g input n).state := by
  obtain ⟨heq, hbefore⟩ := state_run g input n
  cases hc : (run g input n).state.converged with
  | false =>
      have hrounds := rounds_run_of_running hc
      refine ⟨after_iff.mpr ⟨heq, by simp [hrounds], hbefore⟩, .inr ⟨n, rfl, hrounds.ge⟩⟩
  | true =>
      have hle : (run g input n).state.rounds ≤ n := by
        by_contra hlt
        rw [hbefore n (Nat.lt_of_not_le hlt)] at hc
        cases hc
      exact ⟨after_iff.mpr ⟨heq, by simpa using hle, hbefore⟩, .inl hc⟩

theorem Ends.ofString_eq {input : String} (h : Ends g (Input.ofString input) limit s) :
    ofString g input limit = ⟨g, Input.ofString input, s⟩ := by
  obtain ⟨heq, hlimit, _⟩ := after_iff.mp h.after
  cases limit with
  | none =>
      have hc : s.converged = true := h.stops.resolve_right (by simp)
      rw [heq] at hc
      rw [ofString_eq_run_of_converged hc]
      exact congrArg (Parse.mk g (Input.ofString input)) heq.symm
  | some max =>
      have hle : s.rounds ≤ max := hlimit max rfl
      have hstate : (run g (Input.ofString input) max).state = s := by
        rcases h.stops with hc | ⟨max', hmax, hge⟩
        · rw [heq] at hc
          exact (state_run_of_converged hc hle).trans heq.symm
        · cases hmax
          rw [Nat.le_antisymm hge hle]
          exact heq.symm
      rw [← hstate]
      rfl

theorem limit_only_cuts_short (g : Grammar) (input : String) (k : Nat) :
    let text := Input.ofString input
    let p := ofString g input (some k)
    Ends g text (some k) p.state ∧
      (∀ limit s, Ends g text limit s → ofString g input limit = ⟨g, text, s⟩) ∧
      (p.converged = true → ∀ limit, (∀ max ∈ limit, k ≤ max) →
        Ends g text limit p.state ∧ ofString g input limit = p) ∧
      (p.converged = false → p.state.rounds = k ∧ ∀ limit, (∀ max ∈ limit, k < max) →
        (∀ s, After g text limit k s ↔ s = p.state) ∧
        (∀ s, After g text limit (k + 1) s ↔ s = p.state.round g text) ∧
        ∀ s, Ends g text limit s → k < s.rounds) := by
  intro text p
  have hends : Ends g text (some k) p.state := ends_run g text k
  refine ⟨hends, fun limit s => Ends.ofString_eq, fun hc limit hlimit => ?_, fun hc => ?_⟩
  · obtain ⟨heq, hle, hbefore⟩ := after_iff.mp hends.after
    have hwithin : ∀ max ∈ limit, p.state.rounds ≤ max := fun max hmax =>
      (hle k rfl).trans (hlimit max hmax)
    have hlonger : Ends g text limit p.state := ⟨after_iff.mpr ⟨heq, hwithin, hbefore⟩, .inl hc⟩
    exact ⟨hlonger, hlonger.ofString_eq⟩
  · have hbefore : ∀ j ≤ k, (run g text j).state.converged = false := fun j hj =>
      running_of_running hc hj
    refine ⟨rounds_run_of_running hc, fun limit hlimit => ⟨fun s => ?_, fun s => ?_, fun s hs => ?_⟩⟩
    · rw [after_iff]
      refine and_iff_left ⟨fun max hmax => Nat.le_of_lt (hlimit max hmax), fun j hj => ?_⟩
      exact hbefore j (Nat.le_of_lt hj)
    · rw [after_iff, state_run_succ_of_running hc]
      exact and_iff_left ⟨hlimit, fun j hj => hbefore j (Nat.le_of_lt_succ hj)⟩
    · by_contra hle
      rw [Nat.not_lt] at hle
      have hrunning := hbefore s.rounds hle
      rw [← (after_iff.mp hs.after).1] at hrunning
      obtain ⟨max, hmax, hreached⟩ := hs.stops.resolve_left (by simp [hrunning])
      exact absurd (hlimit max hmax) (Nat.not_lt_of_le (hreached.trans hle))

/-- The second bound is met in the very round that leaves nothing active. The lexemes have put
matches into the table before the first round. -/
theorem cut_words_go_on :
    ∃ g, Sample.wordList.compile = .ok g ∧ 0 < (ofString g "ab cd" (some 0)).state.installed ∧
      (ofString g "ab cd" (some 3)).converged = false ∧
      (ofString g "ab cd" (some 4)).converged = true ∧
      After g (Input.ofString "ab cd") none 3 (ofString g "ab cd" (some 3)).state ∧
      (∀ s, Ends g (Input.ofString "ab cd") none s → 3 < s.rounds) ∧
      ofString g "ab cd" none = ofString g "ab cd" (some 4) := by
  have hfacts : (Sample.wordList.compile.toOption.any fun g =>
      decide (0 < (ofString g "ab cd" (some 0)).state.installed) &&
        !(ofString g "ab cd" (some 3)).converged && (ofString g "ab cd" (some 4)).converged) = true := by
    decide +kernel
  obtain ⟨g, hg, hfacts⟩ := Source.exists_of_compile_any hfacts
  simp only [Bool.and_eq_true, Bool.not_eq_true', decide_eq_true_eq] at hfacts
  obtain ⟨⟨hinstalled, hcut⟩, hwhole⟩ := hfacts
  obtain ⟨_, _, _, hcutShort⟩ := limit_only_cuts_short g "ab cd" 3
  obtain ⟨_, _, hdone, _⟩ := limit_only_cuts_short g "ab cd" 4
  obtain ⟨hpasses, _, hmore⟩ := (hcutShort hcut).2 none (by simp)
  exact ⟨g, hg, hinstalled, hcut, hwhole, (hpasses _).mpr rfl, hmore, (hdone hwhole none (by simp)).2⟩

end BottomUpPeg.Parse
