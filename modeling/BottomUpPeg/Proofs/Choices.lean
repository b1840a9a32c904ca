import BottomUpPeg.Proofs.Emptiness
import BottomUpPeg.Proofs.Settling
import BottomUpPeg.Proofs.Strata

namespace BottomUpPeg

namespace Look

variable {look : Look} {pos : Nat} {slots : List Slot}

theorem first_lowest {i j : Nat} {m : Match} (h : look.first pos i slots = some (j, m)) :
    ∀ n s, i + n < j → slots[n]? = some s → look s.clause pos = none := by
  induction slots generalizing i with
  | nil => cases h
  | cons t slots ih =>
      rw [first] at h
      split at h
      · cases h
        intro n s hlt
        omega
      · rename_i hnone
        intro n s hlt hs
        cases n with
        | zero =>
            cases hs
            exact hnone
        | succ n => exact ih h n s (by omega) (by simpa using hs)

theorem longest_greatest {i j : Nat} {m : Match} (h : look.longest pos i slots = some (j, m)) :
    ∀ s ∈ slots, ∀ x, look s.clause pos = some x → x.length ≤ m.length := by
  induction slots generalizing i j m with
  | nil => cases h
  | cons t slots ih =>
      rw [longest] at h
      intro s hs x hx
      split at h
      · rename_i hnone
        rcases List.mem_cons.mp hs with rfl | hs
        · rw [hnone] at hx
          cases hx
        · exact ih h s hs x hx
      · rename_i n hn hnone
        cases h
        rcases List.mem_cons.mp hs with rfl | hs
        · rw [hn] at hx
          cases hx
          exact Nat.le_refl _
        · have hsome : (look.longest pos (i + 1) slots).isSome = true := by
            rw [longest_isSome]
            exact List.any_eq_true.mpr ⟨s, hs, Option.isSome_of_eq_some hx⟩
          rw [hnone] at hsome
          cases hsome
      · rename_i n j' n' hn hlater
        have hrest := ih hlater
        split at h
        · rename_i hlt
          cases h
          rcases List.mem_cons.mp hs with rfl | hs
          · rw [hn] at hx
            cases hx
            exact Nat.le_of_lt hlt
          · exact hrest s hs x hx
        · rename_i hle
          cases h
          rcases List.mem_cons.mp hs with rfl | hs
          · rw [hn] at hx
            cases hx
            exact Nat.le_refl _
          · exact (hrest s hs x hx).trans (Nat.le_of_not_lt hle)

end Look

theorem Shape.step_choice {input : Input} {look : Look} {tail : Nat → Option Match} {c pos : Nat}
    {kind : Group} {slots : List Slot} {m : Match} (hkind : kind ≠ .seq)
    (h : (Shape.group kind slots).step input look tail c pos = some m) :
    ∃ slot part, slots[m.index]? = some slot ∧ look slot.clause pos = some part ∧
      m = Match.choose c pos (m.index, part) := by
  cases kind with
  | seq => exact absurd rfl hkind
  | first =>
      obtain ⟨⟨i, part⟩, hfirst, rfl⟩ := Option.map_eq_some_iff.mp h
      obtain ⟨n, slot, rfl, hslot, hpart⟩ := look.first_spec pos slots 0 hfirst
      exact ⟨slot, part, by simpa [Match.choose] using hslot, hpart, rfl⟩
  | longest =>
      obtain ⟨⟨i, part⟩, hlongest, rfl⟩ := Option.map_eq_some_iff.mp h
      obtain ⟨n, slot, rfl, hslot, hpart⟩ := look.longest_spec pos slots 0 hlongest
      exact ⟨slot, part, by simpa [Match.choose] using hslot, hpart, rfl⟩

theorem Match.preference_ne_gt {g : Grammar} {m old : Match} (h : m.isBetter g old = false) :
    (g.shape m.clause).preference m.length m.index old.length old.index ≠ .gt := by
  intro hgt
  rw [isBetter, compareIn_eq, hgt] at h
  cases h

theorem Match.Fits.choice {g : Grammar} {input : Input} {k : Key} {m : Match} {kind : Group}
    {slots : List Slot} (h : m.Fits g input k) (hshape : g.shape k.clause = .group kind slots)
    (hkind : kind ≠ .seq) :
    ∃ slot part, slots[m.index]? = some slot ∧ part.Fits g input ⟨slot.clause, k.start⟩ ∧
      part ∈ m.descendants := by
  have hcomposed := h.wellFormed.composed_of_shape h.clause_eq hshape
  have hchoice : ∃ slot part, slots[m.index]? = some slot ∧
      part.Fits g input ⟨slot.clause, m.start⟩ ∧ m.length = part.length ∧ m.parts = [part] := by
    cases kind with
    | seq => exact absurd rfl hkind
    | first | longest => exact hcomposed
  obtain ⟨slot, part, hslot, hpart, _, hparts⟩ := hchoice
  refine ⟨slot, part, hslot, h.start_eq ▸ hpart, mem_descendants.mpr (.inr ⟨part, ?_, ?_⟩)⟩
  · rw [hparts]
    exact List.mem_singleton_self part
  · exact mem_descendants.mpr (.inl rfl)

namespace Grammar

variable {g : Grammar} {input : Input}

theorem evaluate_choice_isSome {view : View} {k : Key} {kind : Group} {slots : List Slot}
    (hshape : g.shape k.clause = .group kind slots) (hkind : kind ≠ .seq) :
    (g.evaluate input view k).isSome = true ↔
      ∃ s ∈ slots, (g.lookup input view s.clause k.start).isSome = true := by
  rw [evaluate, hshape]
  cases kind with
  | seq => exact absurd rfl hkind
  | first => rw [Shape.step, Option.isSome_map, Look.first_isSome, List.any_eq_true]
  | longest => rw [Shape.step, Option.isSome_map, Look.longest_isSome, List.any_eq_true]

theorem lookup_ne_none_of_view {c pos : Nat} (hc : (g.shape c).isMemoized = true) {view : View}
    (h : view ⟨c, pos⟩ ≠ none) : g.lookup input view c pos ≠ none := by
  obtain ⟨m, hm⟩ := Option.ne_none_iff_exists'.mp h
  rw [lookup_of_isMemoized hc, hm, Option.some_or]
  exact Option.some_ne_none m

theorem lookup_ne_none_mono {c pos : Nat} (hc : (g.shape c).isMemoized = true) {view view' : View}
    (hview : view' ⟨c, pos⟩ = none → view ⟨c, pos⟩ = none)
    (h : g.lookup input view c pos ≠ none) : g.lookup input view' c pos ≠ none := by
  cases hm : view' ⟨c, pos⟩ with
  | some m => exact lookup_ne_none_of_view hc (hm ▸ Option.some_ne_none m)
  | none =>
      rw [lookup_of_isMemoized hc, hview hm] at h
      rwa [lookup_of_isMemoized hc, hm]

end Grammar

namespace State

variable {g : Grammar} {input : Input}

def Backed (g : Grammar) (input : Input) (s : State) : Prop :=
  ∀ k m kind slots slot, s.table.view k = some m → g.shape k.clause = .group kind slots →
    kind ≠ .seq → slots[m.index]? = some slot → (g.shape slot.clause).isMemoized = true →
    g.lookup input s.table.view slot.clause k.start ≠ none

theorem initial_backed (hg : g.Lawful) (input : Input) : (initial g input).Backed g input := by
  intro k m kind slots slot hm hshape hkind hslot hmemoized
  obtain ⟨slot', part, hslot', hpart, hpartmem⟩ :=
    ((initial_valid hg input).best k m hm).choice hshape hkind
  rw [hslot, Option.some.injEq] at hslot'
  subst hslot'
  obtain ⟨x, hx, hmem⟩ := Match.mem_descendantsAll.mp (view_initial hm).1
  have hproposed : Proposal.ofMatch part ∈ lexemeProposals g (g.lex input).lexemes := by
    refine List.mem_map_of_mem (List.mem_filter.mpr ⟨?_, ?_⟩)
    · exact Match.mem_descendantsAll.mpr ⟨x, hx, Match.descendants_trans x hmem hpartmem⟩
    · rw [hpart.clause_eq]
      exact hmemoized
  have hkey : (Proposal.ofMatch part).key = ⟨slot.clause, k.start⟩ := by
    rw [Proposal.ofMatch, Match.key, hpart.clause_eq, hpart.start_eq]
  apply Grammar.lookup_ne_none_of_view hmemoized
  rw [initial_eq, ← hkey]
  exact view_commit_ne_none hproposed rfl

theorem Backed.round {s : State} (hs : s.Backed g input) : (s.round g input).Backed g input := by
  intro k m kind slots slot hm hshape hkind hslot hmemoized
  apply Grammar.lookup_ne_none_mono hmemoized view_eq_none_of_round
  rcases (round_taken g input s).best k m hm with hm | ⟨p, hp, rfl, hfound⟩
  · rw [view_noted] at hm
    exact hs k m kind slots slot hm hshape hkind hslot hmemoized
  · obtain ⟨k, _, rfl⟩ := mem_proposals.mp hp
    change g.evaluate input s.table.view k = some m at hfound
    change g.shape k.clause = _ at hshape
    rw [Grammar.evaluate, hshape] at hfound
    obtain ⟨slot', part, hslot', hpart, _⟩ := Shape.step_choice hkind hfound
    rw [hslot, Option.some.injEq] at hslot'
    subst hslot'
    exact hpart ▸ Option.some_ne_none part

end State

namespace Parse

variable {g : Grammar} {input : Input}

theorem run_backed (hg : g.Lawful) (input : Input) (n : Nat) :
    (run g input n).state.Backed g input :=
  State.advance_invariant (fun _ hs _ => hs.round) (State.initial_backed hg input) n

theorem lookup_alternative (hg : g.Lawful) {n : Nat} {k : Key} {m : Match}
    (hm : (run g input n).table.view k = some m) {kind : Group} {slots : List Slot}
    (hshape : g.shape k.clause = .group kind slots) (hkind : kind ≠ .seq) :
    ∃ slot, slots[m.index]? = some slot ∧
      g.lookup input (run g input n).table.view slot.clause k.start ≠ none := by
  have hvalid : (run g input n).state.Valid g input := State.advance_valid hg n
  obtain ⟨slot, part, hslot, hpart, hpartmem⟩ := (hvalid.best k m hm).choice hshape hkind
  refine ⟨slot, hslot, ?_⟩
  have hstart : part.start = k.start := hpart.start_eq
  have hlt : slot.clause < g.size :=
    hg.bounded _ _ (Grammar.mem_next_of_group hshape (List.mem_of_getElem? hslot))
  cases hs : g.shape slot.clause with
  | terminal t =>
      obtain ⟨htakes, _, _⟩ := hpart.wellFormed.composed_of_shape hpart.clause_eq hs
      rw [Grammar.lookup_terminal hlt hs, ← hstart,
        (t.length?_eq_some_iff input part.start part.length).mpr htakes]
      simp
  | group kind' slots' =>
      exact run_backed hg input n k m kind slots slot hm hshape hkind hslot (by rw [hs]; rfl)
  | unary kind' slot' =>
      cases kind' with
      | oneOrMore | followedBy =>
          exact run_backed hg input n k m kind slots slot hm hshape hkind hslot (by rw [hs]; rfl)
      | notFollowedBy =>
          have hnegative : g.Negative part.clause := ⟨slot', hpart.clause_eq ▸ hs⟩
          obtain ⟨b, hlayered⟩ := run_layered hg input n
          have hfound := hlayered.secured k m hm part hpartmem hnegative _ fun _ _ => rfl
          rw [hpart.clause_eq, hstart] at hfound
          exact hfound ▸ Option.some_ne_none part

def Evaluated (p : Parse) (k : Key) : Prop :=
  ∃ i < p.state.rounds, k ∈ (run p.grammar p.input i).state.due p.grammar

theorem Evaluated.everActive {input : String} {limit : Option Nat} {k : Key}
    (h : (ofString g input limit).Evaluated k) :
    EverActive g (Input.ofString input) (ofString g input limit).state.rounds k := by
  obtain ⟨i, hi, hk⟩ := h
  rw [grammar_ofString, input_ofString] at hk
  exact ⟨i, Nat.le_of_lt hi, (State.mem_due.mp hk).1⟩

theorem Evaluated.settled {input : String} {limit : Option Nat} {k : Key}
    (h : (ofString g input limit).Evaluated k)
    (hconverged : (ofString g input limit).converged = true) :
    (ofString g input limit).state.Settled g (Input.ofString input) k := by
  have hstate := (state_ofString g input limit).1
  rw [hstate]
  apply h.everActive.settled_of_converged
  rw [← hstate]
  exact hconverged

theorem evaluated_keys_cannot_improve (input : String) (limit : Option Nat)
    (hconverged : (ofString g input limit).converged = true) {k : Key}
    (hk : (ofString g input limit).Evaluated k) :
    let p := ofString g input limit
    (p.table.view k = none → g.evaluate p.input p.table.view k = none) ∧
      ∀ m best, g.evaluate p.input p.table.view k = some m → p.table.view k = some best →
        m.isBetter g best = false := by
  intro p
  have hbest : ∀ m, g.evaluate p.input p.table.view k = some m →
      p.table.improvedBy g k m = false := by
    rw [show p.input = Input.ofString input from input_ofString g input limit]
    exact (hk.settled hconverged).best
  refine ⟨fun hnone => ?_, fun m best hm hview => ?_⟩
  · cases hm : g.evaluate p.input p.table.view k with
    | none => rfl
    | some m =>
        have hnot := hbest m hm
        rw [Table.improvedBy_of_view_none hnone] at hnot
        cases hnot
  · rw [← Table.improvedBy_of_view hview]
    exact hbest m hm

theorem otherLetter_run :
    ∃ g best m, otherLetter.compile = .ok g ∧ (ofString g "abb" (some 9)).converged = true ∧
      (ofString g "abb" (some 9)).Evaluated ⟨2, 2⟩ ∧
      g.shape 2 = .group .first [⟨1, none⟩, ⟨0, none⟩] ∧
      (ofString g "abb" (some 9)).table.view ⟨2, 2⟩ = some best ∧ best.index = 1 ∧
      g.evaluate (Input.ofString "abb") (ofString g "abb" (some 9)).table.view ⟨2, 2⟩ = some m := by
  have hrun : (otherLetter.compile.toOption.any fun g =>
      let p := ofString g "abb" (some 9)
      p.converged && decide (0 < p.state.rounds) &&
        decide (⟨2, 2⟩ ∈ (run g (Input.ofString "abb") 0).state.due g) &&
        decide (g.shape 2 = .group .first [⟨1, none⟩, ⟨0, none⟩]) &&
        (p.table.view ⟨2, 2⟩).any (fun best => best.index = 1) &&
        (g.evaluate (Input.ofString "abb") p.table.view ⟨2, 2⟩).isSome) = true := by
    decide +kernel
  cases hg : otherLetter.compile with
  | error e => simp [hg, Except.toOption] at hrun
  | ok g =>
      simp only [hg, Except.toOption, Option.any_some, Bool.and_eq_true, decide_eq_true_eq] at hrun
      obtain ⟨⟨⟨⟨⟨hconverged, hrounds⟩, hdue⟩, hshape⟩, hview⟩, hsome⟩ := hrun
      obtain ⟨best, hbest, hindex⟩ := (Option.any_eq_true _ _).mp hview
      obtain ⟨m, hm⟩ := Option.isSome_iff_exists.mp hsome
      exact ⟨g, best, m, rfl, hconverged, ⟨0, hrounds, hdue⟩, hshape, hbest, by simpa using hindex, hm⟩

theorem last_b_cannot_improve :
    ∃ g best m, otherLetter.compile = .ok g ∧ (ofString g "abb" (some 9)).converged = true ∧
      (ofString g "abb" (some 9)).Evaluated ⟨2, 2⟩ ∧
      (ofString g "abb" (some 9)).table.view ⟨2, 2⟩ = some best ∧
      g.evaluate (Input.ofString "abb") (ofString g "abb" (some 9)).table.view ⟨2, 2⟩ = some m ∧
      m.isBetter g best = false := by
  obtain ⟨g, best, m, hg, hconverged, hevaluated, _, hbest, _, hm⟩ := otherLetter_run
  refine ⟨g, best, m, hg, hconverged, hevaluated, hbest, hm, ?_⟩
  exact (evaluated_keys_cannot_improve "abb" (some 9) hconverged hevaluated).2 m best hm hbest

theorem view_isSome_iff_of_settled (hg : g.Lawful) {n : Nat} {k : Key}
    (hsettled : (run g input n).state.Settled g input k) {kind : Group} {slots : List Slot}
    (hshape : g.shape k.clause = .group kind slots) (hkind : kind ≠ .seq) :
    ((run g input n).table.view k).isSome = true ↔
      ∃ s ∈ slots, (g.lookup input (run g input n).table.view s.clause k.start).isSome = true := by
  constructor
  · intro hsome
    obtain ⟨m, hm⟩ := Option.isSome_iff_exists.mp hsome
    obtain ⟨slot, hslot, hfound⟩ := lookup_alternative hg hm hshape hkind
    exact ⟨slot, List.mem_of_getElem? hslot, Option.isSome_iff_ne_none.mpr hfound⟩
  · intro hsome
    obtain ⟨m, hm⟩ := Option.isSome_iff_exists.mp
      ((Grammar.evaluate_choice_isSome hshape hkind).mpr hsome)
    obtain ⟨kept, hkept, _⟩ := hsettled.exists_kept hm
    exact Option.isSome_of_eq_some hkept

theorem evaluate_of_settled_choice (hg : g.Lawful) {n : Nat} {k : Key} {m : Match}
    (hsettled : (run g input n).state.Settled g input k)
    (hm : (run g input n).table.view k = some m) {kind : Group} {slots : List Slot}
    (hshape : g.shape k.clause = .group kind slots) (hkind : kind ≠ .seq) :
    ∃ e, g.evaluate input (run g input n).table.view k = some e ∧
      (Shape.group kind slots).preference e.length e.index m.length m.index ≠ .gt := by
  have hsome := (view_isSome_iff_of_settled hg hsettled hshape hkind).mp
    (Option.isSome_of_eq_some hm)
  obtain ⟨e, he⟩ := Option.isSome_iff_exists.mp
    ((Grammar.evaluate_choice_isSome hshape hkind).mpr hsome)
  obtain ⟨kept, hkept, hnot⟩ := hsettled.exists_kept he
  obtain rfl : kept = m := Option.some.inj (hkept.symm.trans hm)
  have hpreference := Match.preference_ne_gt hnot
  have hclause : e.clause = k.clause := (Shape.step_parts he).1
  rw [hclause, hshape] at hpreference
  exact ⟨e, he, hpreference⟩

theorem first_of_settled (hg : g.Lawful) {n : Nat} {k : Key} {m : Match}
    (hsettled : (run g input n).state.Settled g input k)
    (hm : (run g input n).table.view k = some m) {slots : List Slot}
    (hshape : g.shape k.clause = .group .first slots) :
    ∀ i < m.index, ∀ s, slots[i]? = some s →
      g.lookup input (run g input n).table.view s.clause k.start = none := by
  obtain ⟨e, he, hpreference⟩ := evaluate_of_settled_choice hg hsettled hm hshape (by simp)
  have hle : m.index ≤ e.index := Nat.compare_ne_gt.mp hpreference
  rw [Grammar.evaluate, hshape, Shape.step] at he
  obtain ⟨⟨j, part⟩, hfirst, rfl⟩ := Option.map_eq_some_iff.mp he
  intro i hi s hs
  change m.index ≤ j at hle
  exact Look.first_lowest hfirst i s (by omega) hs

theorem longest_of_settled (hg : g.Lawful) {n : Nat} {k : Key} {m : Match}
    (hsettled : (run g input n).state.Settled g input k)
    (hm : (run g input n).table.view k = some m) {slots : List Slot}
    (hshape : g.shape k.clause = .group .longest slots) :
    ∀ s ∈ slots, ∀ x, g.lookup input (run g input n).table.view s.clause k.start = some x →
      x.length ≤ m.length := by
  obtain ⟨e, he, hpreference⟩ := evaluate_of_settled_choice hg hsettled hm hshape (by simp)
  have hle : e.length ≤ m.length := by
    apply Nat.compare_ne_gt.mp
    intro hgt
    rw [Shape.preference, hgt] at hpreference
    exact hpreference rfl
  rw [Grammar.evaluate, hshape, Shape.step] at he
  obtain ⟨⟨j, part⟩, hlongest, rfl⟩ := Option.map_eq_some_iff.mp he
  intro s hs x hx
  exact (Look.longest_greatest hlongest s hs x hx).trans hle

theorem choices_are_settled {source : Source} (h : source.compile = .ok g) (input : String)
    (limit : Option Nat) (hconverged : (ofString g input limit).converged = true) {k : Key}
    (hk : (ofString g input limit).Evaluated k) :
    let p := ofString g input limit
    (∀ slots, g.shape k.clause = .group .first slots →
      ((p.table.view k).isSome = true ↔
        ∃ s ∈ slots, (p.best? s.clause k.start).isSome = true) ∧
      ∀ m, p.table.view k = some m →
        (∃ s, slots[m.index]? = some s ∧ (p.best? s.clause k.start).isSome = true) ∧
        ∀ i < m.index, ∀ s, slots[i]? = some s → p.best? s.clause k.start = none) ∧
    ∀ slots, g.shape k.clause = .group .longest slots →
      ((p.table.view k).isSome = true ↔
        ∃ s ∈ slots, (p.best? s.clause k.start).isSome = true) ∧
      ∀ m, p.table.view k = some m →
        ∀ s ∈ slots, ∀ x, p.best? s.clause k.start = some x → x.length ≤ m.length := by
  intro p
  have hg := Source.compile_lawful h
  have hstate := (state_ofString g input limit).1
  have htable : p.table = (run g (Input.ofString input) p.state.rounds).table :=
    congrArg State.table hstate
  have hsettled := hk.settled hconverged
  rw [hstate] at hsettled
  obtain ⟨i, _, hactive⟩ := hk.everActive
  have hproper := (State.advance_valid hg i).active k hactive
  have hbest : ∀ c, p.best? c k.start = g.lookup (Input.ofString input) p.table.view c k.start :=
    best?_ofString g input limit hproper.start_le
  simp only [hbest, htable]
  refine ⟨fun slots hshape => ?_, fun slots hshape => ?_⟩
  · refine ⟨view_isSome_iff_of_settled hg hsettled hshape (by simp), fun m hm => ⟨?_, ?_⟩⟩
    · obtain ⟨slot, hslot, hfound⟩ := lookup_alternative hg hm hshape (by simp)
      exact ⟨slot, hslot, Option.isSome_iff_ne_none.mpr hfound⟩
    · exact first_of_settled hg hsettled hm hshape
  · refine ⟨view_isSome_iff_of_settled hg hsettled hshape (by simp), fun m hm => ?_⟩
    exact longest_of_settled hg hsettled hm hshape

theorem last_b_takes_lowest :
    ∃ g m, otherLetter.compile = .ok g ∧ (ofString g "abb" (some 9)).converged = true ∧
      (ofString g "abb" (some 9)).Evaluated ⟨2, 2⟩ ∧
      g.shape 2 = .group .first [⟨1, none⟩, ⟨0, none⟩] ∧
      (ofString g "abb" (some 9)).table.view ⟨2, 2⟩ = some m ∧ m.index = 1 ∧
      (ofString g "abb" (some 9)).best? 1 2 = none := by
  obtain ⟨g, m, _, hg, hconverged, hevaluated, hshape, hm, hindex, _⟩ := otherLetter_run
  have hchoice := (choices_are_settled hg "abb" (some 9) hconverged hevaluated).1 _ hshape
  refine ⟨g, m, hg, hconverged, hevaluated, hshape, hm, hindex, ?_⟩
  exact (hchoice.2 m hm).2 0 (by omega) ⟨1, none⟩ rfl

end Parse

end BottomUpPeg
