import BottomUpPeg.Proofs.Choices
import BottomUpPeg.Proofs.Cutting

namespace BottomUpPeg

def Lexing.kept (g : Grammar) (l : Lexing) : List Match :=
  (Match.descendantsAll l.lexemes).filter fun m => (g.shape m.clause).isMemoized

theorem Lexing.mem_kept {g : Grammar} {l : Lexing} {m : Match} :
    m ∈ l.kept g ↔
      m ∈ Match.descendantsAll l.lexemes ∧ (g.shape m.clause).isMemoized = true := List.mem_filter

namespace Grammar

variable {g : Grammar}

theorem topDown_of_mem_lexemes (hg : g.Lawful) {input : Input} {m : Match}
    (hm : m ∈ (g.lex input).lexemes) :
    (g.clause m.clause).acyclic = true ∧ g.topDown input m.clause m.start = some m := by
  cases hrule : g.lexical with
  | none =>
      rw [lex, hrule] at hm
      cases hm
  | some rule =>
      have hc := hg.lexical rule hrule
      obtain ⟨rest, hscans, hlex⟩ := exists_scans hg hrule input
      rw [hlex, hscans.lexemes_eq hg hc] at hm
      obtain ⟨pos, _, hfound⟩ := List.mem_filterMap.mp hm
      obtain ⟨hfound, _⟩ := Option.filter_eq_some_iff.mp hfound
      obtain ⟨hclause, hstart⟩ := Key.mk.inj (topDown_key hfound)
      rw [hclause, hstart]
      exact ⟨hc, hfound⟩

theorem topDown_of_mem_kept (hg : g.Lawful) {input : Input} {m : Match}
    (hm : m ∈ (g.lex input).kept g) : g.topDown input m.clause m.start = some m := by
  obtain ⟨x, hx, hmem⟩ := Match.mem_descendantsAll.mp (Lexing.mem_kept.mp hm).1
  obtain ⟨hc, hfound⟩ := topDown_of_mem_lexemes hg hx
  exact (topDown_of_mem_descendants hg x hc hfound hmem).2

end Grammar

namespace State

variable {g : Grammar}

section Drain

def outstanding (queues : Queues) (touched : List Key) : Finset Key :=
  (touched.filter fun k => !(queues.pending k).isEmpty).toFinset

theorem outstanding_insert (queues : Queues) (k : Key) (touched : List Key) :
    outstanding (queues.insert k []) touched = (outstanding queues touched).erase k := by
  ext k'
  by_cases heq : k = k'
  · simp [outstanding, Queues.pending_insert, heq]
  · simp [outstanding, Queues.pending_insert, heq, Ne.symm heq]

theorem installed_install_of_view_none {s : State} {k : Key} (h : s.table.view k = none)
    (m : Match) : (s.install g k m).installed = s.installed + 1 := by
  simp only [install, Table.improvedBy_of_view_none h, if_true]

theorem installed_drain {touched : List Key} {queues : Queues} {s : State}
    (h : ∀ k ∈ touched, queues.pending k ≠ [] → s.table.view k = none) :
    (drain g touched queues s).installed = s.installed + (outstanding queues touched).card := by
  induction touched generalizing queues s with
  | nil => rfl
  | cons k touched ih =>
      obtain ⟨hk, htouched⟩ := List.forall_mem_cons.mp h
      cases hqueue : queues.pending k with
      | nil =>
          have hcons : outstanding queues (k :: touched) = outstanding queues touched := by
            simp [outstanding, hqueue]
          simp only [drain, hqueue, hcons]
          exact ih htouched
      | cons m queue =>
          have hne : queues.pending k ≠ [] := hqueue ▸ List.cons_ne_nil m queue
          have hcons : outstanding queues (k :: touched) =
              insert k (outstanding queues touched) := by
            simp [outstanding, hqueue]
          have hcard := Finset.card_erase_add_one (Finset.mem_insert_self k
            (outstanding queues touched))
          rw [Finset.erase_insert_eq_erase, ← outstanding_insert] at hcard
          simp only [drain, hqueue]
          rw [ih, installed_install_of_view_none (hk hne), hcons, ← hcard]
          · omega
          · -- What was installed has left its queue empty.
            intro k' hk' hqueue'
            rw [Queues.pending_insert] at hqueue'
            split at hqueue'
            · exact absurd rfl hqueue'
            · rename_i hkey
              rw [view_install, if_neg hkey]
              exact htouched k' hk' hqueue'

end Drain

section Order

variable {found : View} {ms : List Match} {s : State}

theorem touched_ofMatch (ms : List Match) :
    touched (ms.map Proposal.ofMatch) = ms.map Match.key := by
  simp [touched, List.filter_map, Function.comp_def, Proposal.ofMatch]

theorem noteReads_ofMatch (t : Table) (ms : List Match) :
    (ms.map Proposal.ofMatch).foldl noteReads t = t := by
  induction ms with
  | nil => rfl
  | cons m ms ih => exact ih

theorem commit_ofMatch (s : State) (ms : List Match) :
    s.commit g (ms.map Proposal.ofMatch) =
      drain g (ms.map Match.key) (.ofProposals (ms.map Proposal.ofMatch)) s := by
  rw [commit, touched_ofMatch, noteReads_ofMatch]

theorem agreeing_ofMatch (hms : ∀ m ∈ ms, found m.key = some m) :
    Agreeing (ms.map Proposal.ofMatch) := by
  simp only [Agreeing, List.forall_mem_map]
  intro m hm m' hm' hkey
  exact (hms m hm).symm.trans ((congrArg found hkey).trans (hms m' hm'))

theorem commit_ofMatch_eq_foldl (hms : ∀ m ∈ ms, found m.key = some m) :
    s.commit g (ms.map Proposal.ofMatch) = (ms.map Proposal.ofMatch).foldl (offer g) s := by
  rw [commit_eq_foldl_offer (agreeing_ofMatch hms), noted, noteReads_ofMatch]

theorem installed_commit_ofMatch (hs : ∀ k, s.table.view k = none) :
    (s.commit g (ms.map Proposal.ofMatch)).installed =
      s.installed + (ms.map Match.key).toFinset.card := by
  have hall : outstanding (.ofProposals (ms.map Proposal.ofMatch)) (ms.map Match.key) =
      (ms.map Match.key).toFinset := by
    rw [outstanding, List.filter_eq_self.mpr]
    simp only [List.forall_mem_map, Bool.not_eq_true', List.isEmpty_eq_false_iff]
    intro m hm
    exact List.ne_nil_of_mem (Queues.mem_pending_ofProposals.mpr
      ⟨Proposal.ofMatch m, List.mem_map_of_mem hm, rfl, rfl⟩)
  rw [commit_ofMatch, installed_drain fun k _ _ => hs k, hall]

theorem view_commit_ofMatch (hms : ∀ m ∈ ms, found m.key = some m)
    (hs : ∀ k, s.table.view k = none) {m : Match} (hm : m ∈ ms) :
    (s.commit g (ms.map Proposal.ofMatch)).table.view m.key = some m := by
  have hp : Proposal.ofMatch m ∈ ms.map Proposal.ofMatch := List.mem_map_of_mem hm
  obtain ⟨x, hx⟩ := Option.ne_none_iff_exists'.mp (view_commit_ne_none (g := g) (s := s) hp rfl)
  have hx : (s.commit g (ms.map Proposal.ofMatch)).table.view m.key = some x := hx
  rcases (commit_taken g _ s).best m.key x hx with hold | ⟨p, hp, hkey, hfound⟩
  · rw [view_noted, hs] at hold
    cases hold
  · obtain ⟨y, hy, rfl⟩ := List.mem_map.mp hp
    cases hfound
    have hsame := hms x hy
    rw [show x.key = m.key from hkey, hms m hm] at hsame
    rw [hx, hsame]

end Order

theorem view_initial_of_mem_kept (hg : g.Lawful) {input : Input} {m : Match}
    (hm : m ∈ (g.lex input).kept g) : (initial g input).table.view m.key = some m := by
  let found : View := fun k => g.topDown input k.clause k.start
  have hkept : ∀ m ∈ (g.lex input).kept g, found m.key = some m :=
    fun _ => Grammar.topDown_of_mem_kept hg
  rw [initial_eq]
  exact view_commit_ofMatch hkept (view_seeded g input) hm

theorem lexemes_are_kept_whole {source : Source} (h : source.compile = .ok g) (input : Input) :
    let kept := (g.lex input).kept g
    (∀ c pos m, (g.clause c).acyclic = true → g.topDown input c pos = some m →
        ∀ x ∈ m.descendants, g.topDown input x.clause x.start = some x) ∧
      lexemeProposals g (g.lex input).lexemes = kept.map Proposal.ofMatch ∧
      (∀ p ∈ kept.map Proposal.ofMatch, ∀ q ∈ kept.map Proposal.ofMatch, p.key = q.key → p = q) ∧
      initial g input = (seeded g input).commit g (kept.map Proposal.ofMatch) ∧
      ∀ order : List Match, order.Perm kept →
        let s := (seeded g input).commit g (order.map Proposal.ofMatch)
        s = drain g (order.map Match.key) (.ofProposals (order.map Proposal.ofMatch))
            (seeded g input) ∧
          s = (order.map Proposal.ofMatch).foldl (offer g) (seeded g input) ∧
          (∀ m ∈ Match.descendantsAll (g.lex input).lexemes,
            (g.shape m.clause).isMemoized = true → s.table.view m.key = some m) ∧
          s.installed = (kept.map Match.key).toFinset.card := by
  intro kept
  have hg := Source.compile_lawful h
  let found : View := fun k => g.topDown input k.clause k.start
  have hkept : ∀ m ∈ kept, found m.key = some m := fun m hm => Grammar.topDown_of_mem_kept hg hm
  refine ⟨?_, rfl, ?_, initial_eq g input, fun order horder => ?_⟩
  · exact fun c pos m hc hm x hx => (Grammar.topDown_of_mem_descendants hg m hc hm hx).2
  · simp only [List.forall_mem_map]
    intro m hm m' hm' hkey
    have hfound := hkept m hm
    rw [show m.key = m'.key from hkey, hkept m' hm'] at hfound
    rw [Option.some.inj hfound]
  · have hms : ∀ m ∈ order, found m.key = some m := fun m hm => hkept m (horder.mem_iff.mp hm)
    have hfresh := view_seeded g input
    refine ⟨commit_ofMatch .., commit_ofMatch_eq_foldl hms, fun m hm hmemoized => ?_, ?_⟩
    · have hkept : m ∈ kept := Lexing.mem_kept.mpr ⟨hm, hmemoized⟩
      exact view_commit_ofMatch hms hfresh (horder.mem_iff.mpr hkept)
    · have hkeys : (order.map Match.key).toFinset = (kept.map Match.key).toFinset :=
        List.toFinset_eq_of_perm _ _ (horder.map _)
      have hseeded : (seeded g input).installed = 0 := by
        rw [seeded]
        split <;> rfl
      rw [installed_commit_ofMatch hfresh, hkeys, hseeded, Nat.zero_add]

theorem words_are_kept_whole :
    ∃ g m, Sample.wordList.compile = .ok g ∧
      m ∈ Match.descendantsAll (g.lex (Input.ofString "abc d")).lexemes ∧
      (g.shape m.clause).isMemoized = true ∧ m.start = 1 ∧ m.length = 2 ∧
      (initial g (Input.ofString "abc d")).table.view m.key = some m ∧
      (initial g (Input.ofString "abc d")).installed = 8 ∧
      (((g.lex (Input.ofString "abc d")).kept g).map Match.key).toFinset.card = 8 := by
  have hfacts : (Sample.wordList.compile.toOption.any fun g =>
      decide ((initial g (Input.ofString "abc d")).installed = 8) &&
        ((g.lex (Input.ofString "abc d")).kept g).any fun m => m.start = 1 && m.length = 2) =
          true := by decide +kernel
  obtain ⟨g, hg, hfacts⟩ := Source.exists_of_compile_any hfacts
  simp only [Bool.and_eq_true, decide_eq_true_eq, List.any_eq_true] at hfacts
  obtain ⟨hcount, m, hm, hstart, hlength⟩ := hfacts
  obtain ⟨hmem, hmemoized⟩ := Lexing.mem_kept.mp hm
  obtain ⟨_, _, _, hinitial, horder⟩ := lexemes_are_kept_whole hg (Input.ofString "abc d")
  obtain ⟨_, _, hview, hinstalled⟩ := horder _ (List.Perm.refl _)
  rw [← hinitial] at hview hinstalled
  exact ⟨g, m, hg, hmem, hmemoized, hstart, hlength, hview m hmem hmemoized, hcount,
    hinstalled.symm.trans hcount⟩

end State

end BottomUpPeg
