import BottomUpPeg.Proofs.Emptiness
import BottomUpPeg.Proofs.Settling
import BottomUpPeg.Proofs.Validity
import Mathlib.Algebra.Order.BigOperators.Group.Finset

namespace BottomUpPeg

namespace State

variable {g : Grammar} {input : Input}

theorem foldl_offer_eq {ps : List Proposal} {s : State}
    (h : ∀ p ∈ ps, ∀ m, p.found = some m → s.table.improvedBy g p.key m = false) :
    ps.foldl (offer g) s = s := by
  induction ps with
  | nil => rfl
  | cons p ps ih =>
      have hoffer : offer g s p = s := by
        rcases offer_cases g s p with ⟨heq, _⟩ | ⟨m, hfound, himproved, _⟩
        · exact heq
        · rw [h p (List.mem_cons_self ..) m hfound] at himproved
          cases himproved
      rw [List.foldl_cons, hoffer]
      exact ih fun q hq => h q (List.mem_cons_of_mem _ hq)

theorem active_round_of_stationary {s : State}
    (h : ∀ k ∈ s.due g, (s.round g input).table.view k = s.table.view k) :
    (s.round g input).active = (s.waiting g).active := by
  have hnot : ∀ p ∈ s.proposals g input, ∀ m, p.found = some m →
      ((s.waiting g).noted (s.proposals g input)).table.improvedBy g p.key m = false := by
    intro p hp m hm
    obtain ⟨k, hk, rfl⟩ := mem_proposals.mp hp
    change g.evaluate input s.table.view k = some m at hm
    have hsame : ((s.waiting g).noted (s.proposals g input)).table.view k = s.table.view k :=
      congrFun (view_noted _ _) k
    change Table.improvedBy _ g k m = false
    rw [Table.improvedBy_congr hsame, Table.improvedBy_congr (h k hk).symm]
    exact improvedBy_round_of_mem hk hm
  have hround : s.round g input = (s.waiting g).noted (s.proposals g input) := by
    rw [round_eq_foldl_offer]
    exact foldl_offer_eq hnot
  rw [hround]
  rfl

theorem mem_due_of_flat (hflat : ∀ c, (g.clause c).stratum = 0) {s : State} {k : Key}
    (hk : k ∈ s.active) : k ∈ s.due g := by
  refine mem_due.mpr ⟨hk, ?_⟩
  have hle := stratum_le (g := g) hk
  rw [stratumOf, hflat] at hle ⊢
  omega

theorem converged_round_of_stationary (hflat : ∀ c, (g.clause c).stratum = 0) {s : State}
    (h : ∀ k ∈ s.due g, (s.round g input).table.view k = s.table.view k) :
    (s.round g input).converged = true := by
  apply converged_of_forall
  intro k hk
  rw [active_round_of_stationary h] at hk
  obtain ⟨hactive, hdue⟩ := mem_waiting.mp hk
  exact hdue (mem_due_of_flat hflat hactive)

theorem improved_of_settled {s : State} {k : Key} (h : s.Settled g input k) :
    improved g s.table k (g.evaluate input s.table.view k) = s.table.view k := by
  cases hm : g.evaluate input s.table.view k with
  | none => rfl
  | some m => simp [improved, h.best m hm]

end State

namespace Parse

variable {g : Grammar} {input : Input}

theorem view_succ_of_not_mem {n : Nat} {k : Key} (hk : k ∉ (run g input n).state.active) :
    (run g input (n + 1)).table.view k = (run g input n).table.view k := by
  rcases state_run_succ g input n with heq | heq
  · rw [table, heq]
    rfl
  · rw [table, heq]
    exact State.view_round_of_not_mem fun hdue => hk (State.mem_due.mp hdue).1

theorem view_succ (hflat : ∀ c, (g.clause c).stratum = 0) {n : Nat} {k : Key}
    (hnever : ¬EverActive g input n k → g.evaluate input (run g input n).table.view k = none) :
    (run g input (n + 1)).table.view k =
      State.improved g (run g input n).table k
        (g.evaluate input (run g input n).table.view k) := by
  by_cases hk : k ∈ (run g input n).state.active
  · have hc : (run g input n).state.converged = false := by
      by_contra hc
      exact State.not_mem_active_of_converged (by simpa using hc) k hk
    rw [table, state_run_succ_of_running hc]
    exact State.view_round_of_mem (State.mem_due_of_flat hflat hk)
  · -- A key that waits for nothing would find nothing better, or was never in reach of a match.
    rw [view_succ_of_not_mem hk]
    by_cases hactive : EverActive g input n k
    · exact (State.improved_of_settled (hactive.settled.resolve_left hk)).symm
    · rw [hnever hactive]
      rfl

theorem isSeed_of_seedParents {j c : Nat} (hmemoized : (g.shape j).isMemoized = false)
    (hnothing : g.shape j ≠ .terminal .nothing) (hc : c ∈ (g.clause j).seedParents) :
    Grammar.isSeed (g.clause j) = true := by
  have hparents : (!(g.clause j).seedParents.isEmpty) = true := by
    rw [Bool.not_eq_true', List.isEmpty_eq_false_iff]
    exact List.ne_nil_of_mem hc
  rw [Grammar.shape] at hmemoized hnothing
  rw [Grammar.isSeed]
  split
  · rename_i hshape
    exact absurd hshape hnothing
  · exact hparents
  · exact hparents
  · rename_i hterminal hnegative
    have hkept := Shape.not_isMemoized_cases (fun t ht => hterminal t ht) hnegative
    rw [hkept] at hmemoized
    cases hmemoized

theorem lookup_eq_none_of_never (hg : g.Lawful) (hlexical : g.lexical = none) {n c j pos : Nat}
    (hmemoized : (g.shape c).isMemoized = true) (hj : j ∈ (g.shape c).seedChildren g.zero)
    (hpos : pos ≤ input.size) (hnever : ¬EverActive g input n ⟨c, pos⟩)
    (halways : (g.clause j).always = false)
    (hpositive : ∀ slot, g.shape j ≠ .unary .notFollowedBy slot) :
    g.lookup input (run g input n).table.view j pos = none := by
  have hparent : c ∈ (g.clause j).seedParents := (hg.mem_seedParents j c).mpr ⟨hmemoized, hj⟩
  have hlt : j < g.size := hg.bounded c j (Shape.seedChildren_subset _ _ j hj)
  cases hshape : g.shape j with
  | terminal t =>
      have hnothing : g.shape j ≠ .terminal .nothing := by
        intro hnothing
        have hflags := congrArg Flags.always (hg.flags_eq j hlt)
        rw [hnothing] at hflags
        change (g.clause j).always = true at hflags
        rw [halways] at hflags
        cases hflags
      have hkept : (g.shape j).isMemoized = false := by rw [hshape]; rfl
      have hcut : pos ∈ (g.lex input).cuts := by
        rw [Grammar.lex, hlexical]
        exact List.mem_range.mpr (Nat.lt_succ_of_le hpos)
      by_contra hfound
      refine hnever (everActive_of_seed (isSeed_of_seedParents hkept hnothing hparent) hlt hcut ?_
        hparent)
      rwa [Grammar.lookup_terminal hlt hshape] at hfound ⊢
  | group kind slots =>
      rw [Grammar.lookup_of_not_always (by rw [hshape]; rfl) halways]
      by_contra hview
      exact hnever (everActive_of_seedParent hview hparent)
  | unary kind slot =>
      have hkept : (g.shape j).isMemoized = true := by
        rw [hshape]
        cases kind with
        | notFollowedBy => exact absurd hshape (hpositive slot)
        | oneOrMore | followedBy => rfl
      rw [Grammar.lookup_of_not_always hkept halways]
      by_contra hview
      exact hnever (everActive_of_seedParent hview hparent)

end Parse

def Match.lengthOf : Option Match → Nat
  | none => 0
  | some m => m.length

def Grammar.Greedy (g : Grammar) (input : Input) (k : Key) : Prop :=
  ∀ m m' : Match, m.Fits g input k → m'.Fits g input k → m.length < m'.length →
    m'.isBetter g m = true

namespace Grammar.Greedy

variable {g : Grammar} {input : Input} {k : Key}

theorem length_le_of_isBetter (h : g.Greedy input k) {m m' : Match} (hm : m.Fits g input k)
    (hm' : m'.Fits g input k) (hbetter : m'.isBetter g m = true) : m.length ≤ m'.length := by
  by_contra hlt
  have hworse := h m' m hm' hm (Nat.lt_of_not_le hlt)
  have hranked := hm.wellFormed.ranked hm'.wellFormed (hm'.clause_eq.trans hm.clause_eq.symm)
    (hm'.start_eq.trans hm.start_eq.symm)
  rw [Match.isBetter, hranked.swap] at hbetter
  rw [Match.isBetter, beq_iff_eq] at hworse
  rw [hworse] at hbetter
  cases hbetter

theorem lengthOf_improved (h : g.Greedy input k) {t : Table} {found : Option Match}
    (ht : ∀ m, t.view k = some m → m.Fits g input k)
    (hfound : ∀ m, found = some m → m.Fits g input k) :
    Match.lengthOf (State.improved g t k found) =
      max (Match.lengthOf (t.view k)) (Match.lengthOf found) := by
  cases found with
  | none => simp [State.improved, Match.lengthOf]
  | some m =>
      have hm := hfound m rfl
      cases hold : t.view k with
      | none => simp [State.improved, Table.improvedBy_of_view_none hold, Match.lengthOf]
      | some old =>
          have hfits := ht old hold
          rw [State.improved, Table.improvedBy_of_view hold, hold]
          cases hbetter : m.isBetter g old with
          | true =>
              have hle := h.length_le_of_isBetter hfits hm hbetter
              simp only [Match.lengthOf, if_true]
              omega
          | false =>
              have hle : m.length ≤ old.length := by
                by_contra hlt
                rw [h old m hfits hm (Nat.lt_of_not_le hlt)] at hbetter
                cases hbetter
              simp only [Match.lengthOf, Bool.false_eq_true, if_false]
              omega

end Grammar.Greedy

def Grammar.Graded (g : Grammar) (input : Input) (c : Nat) : Prop :=
  ∀ (pos : Nat) (m m' : Match), m.Fits g input ⟨c, pos⟩ → m'.Fits g input ⟨c, pos⟩ →
    0 < m.length ∧ (m.length < m'.length → m'.isBetter g m = true) ∧
      (m.length = m'.length → m = m')

namespace Grammar.Graded

variable {g : Grammar} {input : Input} {k : Key}

theorem lengthOf_pos (h : g.Graded input k.clause) {m : Match} (hm : m.Fits g input k) :
    0 < Match.lengthOf (some m) :=
  (h k.start m m hm hm).1

theorem eq_of_lengthOf (h : g.Graded input k.clause) {a b : Option Match}
    (ha : ∀ m, a = some m → m.Fits g input k) (hb : ∀ m, b = some m → m.Fits g input k)
    (heq : Match.lengthOf a = Match.lengthOf b) : a = b := by
  cases a with
  | none =>
      cases b with
      | none => rfl
      | some m =>
          have hpos := h.lengthOf_pos (hb m rfl)
          rw [← heq] at hpos
          cases hpos
  | some m =>
      cases b with
      | none =>
          have hpos := h.lengthOf_pos (ha m rfl)
          rw [heq] at hpos
          cases hpos
      | some m' => rw [(h k.start m m' (ha m rfl) (hb m' rfl)).2.2 heq]

theorem greedy (h : g.Graded input k.clause) : g.Greedy input k :=
  fun m m' hm hm' => (h k.start m m' hm hm').2.1

theorem lengthOf_improved (h : g.Graded input k.clause) {t : Table} {found : Option Match}
    (ht : ∀ m, t.view k = some m → m.Fits g input k)
    (hfound : ∀ m, found = some m → m.Fits g input k) :
    Match.lengthOf (State.improved g t k found) =
      max (Match.lengthOf (t.view k)) (Match.lengthOf found) :=
  h.greedy.lengthOf_improved ht hfound

end Grammar.Graded

namespace Parse

variable {g : Grammar} {input : Input}

theorem run_valid (hg : g.Lawful) (input : Input) (n : Nat) : (run g input n).state.Valid g input :=
  State.advance_valid hg n

theorem view_sound (hg : g.Lawful) (input : Input) (n : Nat) :
    g.SoundView input (run g input n).table.view := (run_valid hg input n).best

theorem lengthOf_le (hg : g.Lawful) (input : Input) (n : Nat) (k : Key) :
    Match.lengthOf ((run g input n).table.view k) ≤ input.size := by
  cases hm : (run g input n).table.view k with
  | none => exact Nat.zero_le _
  | some m =>
      have hstop := ((run_valid hg input n).best k m hm).wellFormed.stop_le
      rw [Match.stop] at hstop
      exact (Nat.le_add_left ..).trans hstop

theorem lengthOf_mono_succ_of_greedy (hg : g.Lawful) {k : Key} (hk : g.Greedy input k) (n : Nat) :
    Match.lengthOf ((run g input n).table.view k) ≤
      Match.lengthOf ((run g input (n + 1)).table.view k) := by
  have hvalid := run_valid hg input n
  rcases state_run_succ g input n with heq | heq
  · rw [table, table, heq]
  · rw [table, table, heq]
    by_cases hdue : k ∈ (run g input n).state.due g
    · have hproper := hvalid.active k (State.mem_due.mp hdue).1
      rw [State.view_round_of_mem hdue, hk.lengthOf_improved (hvalid.best k)
        fun m hm => Grammar.evaluate_fits hvalid.best hproper.start_le hm]
      exact Nat.le_max_left ..
    · rw [State.view_round_of_not_mem hdue]

theorem lengthOf_mono_of_greedy (hg : g.Lawful) {k : Key} (hk : g.Greedy input k) {n n' : Nat}
    (hle : n ≤ n') :
    Match.lengthOf ((run g input n).table.view k) ≤
      Match.lengthOf ((run g input n').table.view k) := by
  induction n', hle using Nat.le_induction with
  | base => exact Nat.le_refl _
  | succ n' _ ih => exact ih.trans (lengthOf_mono_succ_of_greedy hg hk n')

def coverage (g : Grammar) (input : Input) (n : Nat) : Nat :=
  ∑ c ∈ Finset.range g.size, ∑ pos ∈ Finset.range (input.size + 1),
    Match.lengthOf ((run g input n).table.view ⟨c, pos⟩)

theorem coverage_le (hg : g.Lawful) (input : Input) (n : Nat) :
    coverage g input n ≤ g.size * ((input.size + 1) * input.size) := by
  calc coverage g input n
      ≤ ∑ c ∈ Finset.range g.size, ∑ pos ∈ Finset.range (input.size + 1), input.size :=
        Finset.sum_le_sum fun c _ => Finset.sum_le_sum fun pos _ => lengthOf_le hg input n _
    _ = g.size * ((input.size + 1) * input.size) := by simp

variable (hg : g.Lawful) (hgraded : ∀ c, (g.shape c).isMemoized = true → g.Graded input c)

include hg hgraded

theorem lengthOf_mono_succ (n : Nat) (k : Key) :
    Match.lengthOf ((run g input n).table.view k) ≤
      Match.lengthOf ((run g input (n + 1)).table.view k) := by
  cases hm : (run g input n).table.view k with
  | none => exact Nat.zero_le _
  | some m =>
      have hproper := (run_valid hg input n).keys k (Table.mem_of_view hm)
      rw [← hm]
      exact lengthOf_mono_succ_of_greedy hg (hgraded _ hproper.memoized).greedy n

theorem lengthOf_mono {n n' : Nat} (hle : n ≤ n') (k : Key) :
    Match.lengthOf ((run g input n).table.view k) ≤
      Match.lengthOf ((run g input n').table.view k) := by
  induction n', hle using Nat.le_induction with
  | base => exact Nat.le_refl _
  | succ n' _ ih => exact ih.trans (lengthOf_mono_succ hg hgraded n' k)

theorem coverage_mono_succ (n : Nat) : coverage g input n ≤ coverage g input (n + 1) :=
  Finset.sum_le_sum fun _ _ => Finset.sum_le_sum fun _ _ => lengthOf_mono_succ hg hgraded n _

theorem view_eq_of_coverage {n : Nat} (h : coverage g input n = coverage g input (n + 1)) {k : Key}
    (hk : k.Proper g input) :
    (run g input (n + 1)).table.view k = (run g input n).table.view k := by
  have hmono := lengthOf_mono_succ hg hgraded n
  have hclause := (Finset.sum_eq_sum_iff_of_le fun c _ =>
    Finset.sum_le_sum fun pos _ => hmono ⟨c, pos⟩).mp h k.clause
      (Finset.mem_range.mpr (Grammar.lt_size_of_isMemoized hk.memoized))
  have hkey := (Finset.sum_eq_sum_iff_of_le fun pos _ => hmono ⟨k.clause, pos⟩).mp hclause
    k.start (Finset.mem_range.mpr (Nat.lt_succ_of_le hk.start_le))
  exact (hgraded _ hk.memoized).eq_of_lengthOf ((run_valid hg input (n + 1)).best k)
    ((run_valid hg input n).best k) hkey.symm

theorem coverage_lt_succ (hflat : ∀ c, (g.clause c).stratum = 0)
    (hrunning : ∀ n, (run g input n).state.converged = false) (n : Nat) :
    coverage g input n < coverage g input (n + 1) := by
  apply lt_of_le_of_ne (coverage_mono_succ hg hgraded n)
  intro heq
  have hround := state_run_succ_of_running (hrunning n)
  have hstationary : ∀ k ∈ (run g input n).state.due g,
      ((run g input n).state.round g input).table.view k = (run g input n).state.table.view k := by
    intro k hk
    have hproper := (run_valid hg input n).active k (State.mem_due.mp hk).1
    rw [← hround]
    exact view_eq_of_coverage hg hgraded heq hproper
  have hconverged := State.converged_round_of_stationary hflat hstationary
  rw [← hround, hrunning] at hconverged
  cases hconverged

theorem exists_converged (hflat : ∀ c, (g.clause c).stratum = 0) :
    ∃ n, (run g input n).state.converged = true := by
  by_contra hnever
  have hrunning : ∀ n, (run g input n).state.converged = false := by simpa using hnever
  have hle : ∀ n, n ≤ coverage g input n := by
    intro n
    induction n with
    | zero => exact Nat.zero_le _
    | succ n ih =>
        exact Nat.succ_le_of_lt (ih.trans_lt (coverage_lt_succ hg hgraded hflat hrunning n))
  have hlast := hle (g.size * ((input.size + 1) * input.size) + 1)
  have hbounded := coverage_le hg input (g.size * ((input.size + 1) * input.size) + 1)
  omega

end Parse

end BottomUpPeg
