import BottomUpPeg.Proofs.Choices
import BottomUpPeg.Proofs.DescentRuns
import BottomUpPeg.Proofs.FlagSoundness
import BottomUpPeg.Proofs.Greedy
import BottomUpPeg.Proofs.Restless

namespace BottomUpPeg

namespace Terminal

variable {input : Input} {t : Terminal} {clause : Nat}

inductive Run (input : Input) (t : Terminal) (clause : Nat) : Nat → List Match → Prop
  | stops {pos : Nat} : (∀ length, t.Takes input pos length → length = 0) →
      Run input t clause pos []
  | takes {pos length : Nat} {rest : List Match} : t.Takes input pos length → 0 < length →
      Run input t clause (pos + length) rest →
      Run input t clause pos (Match.leaf clause pos length :: rest)

inductive GreedyRun (input : Input) (t : Terminal) (clause pos : Nat) : List Match → Prop
  | fails : (∀ length, ¬t.Takes input pos length) → GreedyRun input t clause pos []
  | rests : t.Takes input pos 0 → GreedyRun input t clause pos [Match.leaf clause pos 0]
  | takes {length : Nat} {rest : List Match} : t.Takes input pos length → 0 < length →
      Run input t clause (pos + length) rest →
      GreedyRun input t clause pos (Match.leaf clause pos length :: rest)

theorem Takes.unique {pos length length' : Nat} (h : t.Takes input pos length)
    (h' : t.Takes input pos length') : length = length' := by
  rw [← length?_eq_some_iff] at h h'
  exact Option.some.inj (h.symm.trans h')

end Terminal

namespace Look

variable {look : Look} {tail : Nat → Option Match} {slot : Slot} {pos : Nat} {head : Match}

theorem repeated_cases (tail : Nat → Option Match) (hhead : look slot.clause pos = some head)
    (c : Nat) :
    look.repeated tail c slot pos = some ⟨c, pos, head.length, 0, [head]⟩ ∨
      ∃ rest, 0 < rest.length ∧
        look.repeated tail c slot pos = some ⟨c, pos, head.length + rest.length, 0, [head, rest]⟩ := by
  by_cases hzero : head.length = 0
  · left
    simp only [repeated, hhead, hzero, if_true]
  cases htail : tail head.stop with
  | none =>
      left
      simp only [repeated, hhead, hzero, htail, if_false]
  | some rest =>
      by_cases hrest : rest.length = 0
      · left
        simp only [repeated, hhead, hzero, htail, hrest, if_false, if_true]
      · right
        refine ⟨rest, Nat.pos_of_ne_zero hrest, ?_⟩
        simp only [repeated, hhead, hzero, htail, hrest, if_false]

theorem repeated_of_tail (hhead : look slot.clause pos = some head) (hlength : 0 < head.length)
    {rest : Match} (htail : tail head.stop = some rest) (hrest : 0 < rest.length) (c : Nat) :
    look.repeated tail c slot pos =
      some ⟨c, pos, head.length + rest.length, 0, [head, rest]⟩ := by
  simp only [repeated, hhead, Nat.ne_of_gt hlength, htail, Nat.ne_of_gt hrest, if_false]

theorem first_eq_some_iff {slots : List Slot} {i : Nat} {m : Match} :
    look.first pos 0 slots = some (i, m) ↔
      ∃ s, slots[i]? = some s ∧ look s.clause pos = some m ∧
        ∀ j < i, ∀ s', slots[j]? = some s' → look s'.clause pos = none := by
  constructor
  · intro h
    obtain ⟨n, s, hn, hs, hm⟩ := look.first_spec pos slots 0 h
    rw [Nat.zero_add] at hn
    subst hn
    exact ⟨s, hs, hm, fun j hj s' => first_lowest h j s' (by omega)⟩
  · rintro ⟨s, hs, hm, hlowest⟩
    have hsome : (look.first pos 0 slots).isSome = true := by
      rw [first_isSome, List.any_eq_true]
      exact ⟨s, List.mem_of_getElem? hs, by rw [hm]; rfl⟩
    obtain ⟨⟨j, n⟩, hfound⟩ := Option.isSome_iff_exists.mp hsome
    obtain ⟨j', s', hj', hs', hn⟩ := look.first_spec pos slots 0 hfound
    rw [Nat.zero_add] at hj'
    subst hj'
    rcases Nat.lt_trichotomy j i with hlt | rfl | hlt
    · rw [hlowest j hlt s' hs'] at hn
      cases hn
    · rw [hs] at hs'
      cases hs'
      rw [hm] at hn
      cases hn
      exact hfound
    · rw [first_lowest hfound i s (by omega) hs] at hm
      cases hm

end Look

namespace Grammar

variable {g : Grammar} {input : Input} {c : Nat}

theorem acyclic_of_next (hg : g.Lawful) (hc : c < g.size)
    (h : ∀ j ∈ g.next c, (g.clause j).acyclic = true) : (g.clause c).acyclic = true := by
  have hnext : ∀ j ∈ g.next c, ∀ k, Graph.Reaches g.next j k → ¬Graph.LeadsTo g.next k k :=
    fun j hj => (hg.acyclic_iff j (hg.bounded c j hj)).mp (h j hj)
  refine (hg.acyclic_iff c hc).mpr fun k hk hcycle => ?_
  rcases Relation.ReflTransGen.cases_head hk with rfl | ⟨j, hj, hreach⟩
  · obtain ⟨j, hj, hback⟩ := Relation.TransGen.head'_iff.mp hcycle
    exact hnext j hj c hback hcycle
  · exact hnext j hj k hreach hcycle

/-- Whether a clause matches is decided where it is read, without the table. -/
def Immediate (g : Grammar) (j : Nat) : Prop :=
  (∃ t, g.shape j = .terminal t) ∨
    ∃ slot, g.shape j = .unary .notFollowedBy slot ∧ (g.clause slot.clause).acyclic = true

theorem Immediate.acyclic (hg : g.Lawful) {j : Nat} (hj : j < g.size) (h : g.Immediate j) :
    (g.clause j).acyclic = true := by
  rcases h with ⟨t, hshape⟩ | ⟨slot, hshape, hslot⟩
  · exact acyclic_of_terminal hg hj hshape
  · refine acyclic_of_next hg hj fun i hi => ?_
    rw [next, hshape] at hi
    rw [List.mem_singleton.mp hi]
    exact hslot

theorem Immediate.not_isMemoized {j : Nat} (h : g.Immediate j) :
    (g.shape j).isMemoized = false := by
  rcases h with ⟨t, hshape⟩ | ⟨slot, hshape, _⟩ <;> rw [hshape] <;> rfl

theorem Immediate.lookup_eq (hg : g.Lawful) {j pos : Nat} (hj : j < g.size) (h : g.Immediate j)
    (hpos : pos ≤ input.size) (view : View) :
    g.lookup input view j pos = g.topDown input j pos :=
  lookup_of_not_isMemoized hg (h.acyclic hg hj) h.not_isMemoized hpos view

theorem topDown_terminal (hg : g.Lawful) {j : Nat} {t : Terminal} (hj : j < g.size)
    (hshape : g.shape j = .terminal t) (pos : Nat) :
    g.topDown input j pos = (t.length? input pos).map (Match.leaf j pos) := by
  rw [topDown_step hg (acyclic_of_terminal hg hj hshape), hshape]
  rfl

theorem topDown_terminal_eq_some_iff (hg : g.Lawful) {j : Nat} {t : Terminal} (hj : j < g.size)
    (hshape : g.shape j = .terminal t) {pos : Nat} {m : Match} :
    g.topDown input j pos = some m ↔
      ∃ length, t.Takes input pos length ∧ m = Match.leaf j pos length := by
  simp only [topDown_terminal hg hj hshape, Option.map_eq_some_iff, Terminal.length?_eq_some_iff,
    eq_comm (a := m)]

theorem topDown_terminal_eq_none_iff (hg : g.Lawful) {j : Nat} {t : Terminal} (hj : j < g.size)
    (hshape : g.shape j = .terminal t) {pos : Nat} :
    g.topDown input j pos = none ↔ ∀ length, ¬t.Takes input pos length := by
  rw [topDown_terminal hg hj hshape, Option.map_eq_none_iff, Option.eq_none_iff_forall_ne_some]
  simp only [ne_eq, Terminal.length?_eq_some_iff]

theorem topDown_of_fits_terminal (hg : g.Lawful) {j pos : Nat} {t : Terminal} (hj : j < g.size)
    (hshape : g.shape j = .terminal t) {m : Match} (h : m.Fits g input ⟨j, pos⟩) :
    g.topDown input j pos = some m := by
  obtain ⟨hclause, hstart, hwf⟩ := h
  cases hwf with
  | @terminal d q length u hshape' htakes =>
      simp only at hclause hstart
      subst hclause hstart
      rw [hshape] at hshape'
      cases hshape'
      exact (topDown_terminal_eq_some_iff hg hj hshape).mpr ⟨length, htakes, rfl⟩
  | seq hshape' | choice hshape' | once hshape' | more hshape' | lookahead hshape' =>
      simp only at hclause
      rw [hclause, hshape] at hshape'
      cases hshape'

theorem length_of_negative (hg : g.Lawful) {j pos : Nat} {slot : Slot}
    (hj : (g.clause j).acyclic = true) (hshape : g.shape j = .unary .notFollowedBy slot) {m : Match}
    (h : g.topDown input j pos = some m) : m.length = 0 := by
  rw [topDown_step hg hj, hshape, Shape.step] at h
  split at h <;> cases h
  rfl

-- Without a repetition that goes on, an evaluation reads no table at all.
theorem evaluate_of_immediate (hg : g.Lawful) {pos : Nat} (hc : (g.clause c).acyclic = true)
    (hparts : ∀ j ∈ g.next c, g.Immediate j)
    (hempty : ∀ slot head, g.shape c = .unary .oneOrMore slot →
      g.topDown input slot.clause pos = some head → head.length = 0)
    (hpos : pos ≤ input.size) (view : View) :
    g.evaluate input view ⟨c, pos⟩ = g.topDown input c pos := by
  have hread : (g.shape c).step input (g.topDown input) (g.lookup input view c) c pos =
      g.evaluate input view ⟨c, pos⟩ := by
    refine Shape.step_congr_from topDown_sound hpos (fun j hj q _ hq => ?_) fun _ _ _ => rfl
    exact ((hparts j hj).lookup_eq hg (hg.bounded c j hj) hq view).symm
  rw [topDown_eq hg hc hpos, ← hread]
  refine Shape.step_congr_tail fun slot head hshape hhead hlength => ?_
  exact absurd (hempty slot head hshape hhead) (Nat.ne_of_gt hlength)

section Repetition

variable {slot : Slot} {t : Terminal}

-- A match has the leaves of the greedy run in its order, so it is that run or ends before it.
theorem le_topDown_of_wellFormed (hg : g.Lawful) (hc : (g.clause c).acyclic = true)
    (hshape : g.shape c = .unary .oneOrMore slot) (hslot : g.shape slot.clause = .terminal t)
    {m : Match} (hm : m.WellFormed g input) (hclause : m.clause = c) :
    ∃ e, g.topDown input c m.start = some e ∧ m.length ≤ e.length ∧
      (m.length = e.length → m = e) := by
  have hlt : slot.clause < g.size := hg.bounded c _ (mem_next_of_unary hshape)
  have hhead : ∀ {slot' : Slot} {head : Match}, g.shape c = .unary .oneOrMore slot' →
      head.clause = slot'.clause → head.WellFormed g input →
      g.topDown input slot.clause head.start = some head := by
    intro slot' head hshape' hclause hwf
    rw [hshape] at hshape'
    cases hshape'
    exact topDown_of_fits_terminal hg hlt hslot ⟨hclause, rfl, hwf⟩
  induction hm with
  | terminal hshape' | seq hshape' | choice hshape' =>
      simp only at hclause
      rw [hclause, hshape] at hshape'
      cases hshape'
  | lookahead hshape' hkind =>
      simp only at hclause
      rw [hclause, hshape] at hshape'
      cases hshape'
      exact absurd rfl hkind
  | @once d slot' head hshape' hclause' hwf =>
      subst hclause
      have hstep : g.topDown input d head.start =
          Look.repeated (g.topDown input) (g.topDown input d) d slot head.start := by
        rw [topDown_step hg hc, hshape]
        rfl
      rw [hstep]
      rcases Look.repeated_cases (g.topDown input d) (hhead hshape' hclause' hwf) d with
        heq | ⟨rest, hrest, heq⟩
      · exact ⟨_, heq, Nat.le_refl _, fun _ => rfl⟩
      · refine ⟨_, heq, Nat.le_add_right .., fun hsame => ?_⟩
        simp only at hsame
        omega
  | @more d slot' head rest hshape' hclause' hrest hstart hpos hpos' hwf hwf' _ ih =>
      subst hclause
      obtain ⟨e, he, hle, hunique⟩ := ih hrest
      rw [hstart] at he
      have hstep : g.topDown input d head.start =
          some ⟨d, head.start, head.length + e.length, 0, [head, e]⟩ := by
        rw [topDown_step hg hc, hshape]
        exact Look.repeated_of_tail (hhead hshape' hclause' hwf) hpos he (by omega) d
      refine ⟨_, hstep, Nat.add_le_add_left hle _, fun hsame => ?_⟩
      simp only [Nat.add_left_cancel_iff] at hsame
      rw [hunique hsame]

theorem greedy_of_terminal (hg : g.Lawful) (hshape : g.shape c = .unary .oneOrMore slot)
    (hslot : g.shape slot.clause = .terminal t) (pos : Nat) : g.Greedy input ⟨c, pos⟩ := by
  have hlt : slot.clause < g.size := hg.bounded c _ (mem_next_of_unary hshape)
  refine greedy_oneOrMore hshape fun a b a' b' ha _ ha' _ => ?_
  have hsame := topDown_of_fits_terminal hg hlt hslot ha
  rw [topDown_of_fits_terminal hg hlt hslot ha'] at hsame
  rw [Option.some.inj hsame]

theorem run_gather (hg : g.Lawful) (hlt : slot.clause < g.size)
    (hslot : g.shape slot.clause = .terminal t) {fuel pos : Nat} (hpos : pos ≤ input.size)
    (hfuel : input.size - pos < fuel) (taken : List Match) (htaken : taken.isEmpty = false) :
    ∃ rest, Look.gather (g.topDown input) slot fuel taken pos = taken ++ rest ∧
      t.Run input slot.clause pos rest := by
  induction fuel generalizing pos taken with
  | zero => omega
  | succ fuel ih =>
      rw [Look.gather]
      cases hm : g.topDown input slot.clause pos with
      | none =>
          have hnone := (topDown_terminal_eq_none_iff hg hlt hslot).mp hm
          refine ⟨[], (List.append_nil _).symm, .stops fun length htakes => ?_⟩
          exact absurd htakes (hnone length)
      | some m =>
          obtain ⟨length, htakes, rfl⟩ := (topDown_terminal_eq_some_iff hg hlt hslot).mp hm
          have hle := htakes.le_size
          by_cases hzero : length = 0
          · subst hzero
            refine ⟨[], by simp [Match.leaf, htaken], .stops fun length htakes' => ?_⟩
            exact htakes'.unique htakes
          · obtain ⟨rest, hgather, hrun⟩ := ih hle (by omega)
              (taken ++ [Match.leaf slot.clause pos length]) (by simp)
            refine ⟨Match.leaf slot.clause pos length :: rest, ?_,
              .takes htakes (Nat.pos_of_ne_zero hzero) hrun⟩
            simpa [Match.leaf, hzero, Match.stop] using hgather

theorem exists_greedyRun (hg : g.Lawful) (hc : (g.clause c).acyclic = true)
    (hshape : g.shape c = .unary .oneOrMore slot) (hslot : g.shape slot.clause = .terminal t)
    {pos : Nat} (hpos : pos ≤ input.size) :
    ∃ ms, t.GreedyRun input slot.clause pos ms ∧ g.topDown input c pos = Match.nest c ms := by
  have hlt : slot.clause < g.size := hg.bounded c _ (mem_next_of_unary hshape)
  rw [topDown_eq_nest hg hc hshape, Look.gather]
  cases hm : g.topDown input slot.clause pos with
  | none => exact ⟨[], .fails ((topDown_terminal_eq_none_iff hg hlt hslot).mp hm), rfl⟩
  | some m =>
      obtain ⟨length, htakes, rfl⟩ := (topDown_terminal_eq_some_iff hg hlt hslot).mp hm
      have hle := htakes.le_size
      by_cases hzero : length = 0
      · subst hzero
        exact ⟨_, .rests htakes, rfl⟩
      · have hfuel : input.size - (pos + length) < input.size - pos := by omega
        obtain ⟨rest, hgather, hrun⟩ :=
          run_gather hg hlt hslot hle hfuel [Match.leaf slot.clause pos length] rfl
        refine ⟨_, .takes htakes (Nat.pos_of_ne_zero hzero) hrun, ?_⟩
        simp only [Match.leaf, hzero, if_false, Match.stop, List.nil_append] at hgather ⊢
        rw [hgather]
        rfl

end Repetition

theorem topDown_first_eq_some_iff (hg : g.Lawful) (hc : (g.clause c).acyclic = true)
    {slots : List Slot} (hshape : g.shape c = .group .first slots)
    (hslots : ∀ s ∈ slots, ∃ t, g.shape s.clause = .terminal t) {pos : Nat} {m : Match} :
    g.topDown input c pos = some m ↔
      ∃ i s t length, slots[i]? = some s ∧ g.shape s.clause = .terminal t ∧
        t.Takes input pos length ∧
        (∀ j < i, ∀ s' t', slots[j]? = some s' → g.shape s'.clause = .terminal t' →
          ∀ length, ¬t'.Takes input pos length) ∧
        m = ⟨c, pos, length, i, [Match.leaf s.clause pos length]⟩ := by
  have hlt : ∀ {i : Nat} {s : Slot}, slots[i]? = some s → s.clause < g.size := fun hs =>
    hg.bounded c _ (mem_next_of_group hshape (List.mem_of_getElem? hs))
  rw [topDown_step hg hc, hshape, Shape.step, Option.map_eq_some_iff]
  constructor
  · rintro ⟨⟨i, part⟩, hfirst, rfl⟩
    obtain ⟨s, hs, hpart, hlowest⟩ := Look.first_eq_some_iff.mp hfirst
    obtain ⟨t, ht⟩ := hslots s (List.mem_of_getElem? hs)
    obtain ⟨length, htakes, rfl⟩ := (topDown_terminal_eq_some_iff hg (hlt hs) ht).mp hpart
    refine ⟨i, s, t, length, hs, ht, htakes, fun j hj s' t' hs' ht' => ?_, rfl⟩
    exact (topDown_terminal_eq_none_iff hg (hlt hs') ht').mp (hlowest j hj s' hs')
  · rintro ⟨i, s, t, length, hs, ht, htakes, hlowest, rfl⟩
    refine ⟨(i, Match.leaf s.clause pos length), Look.first_eq_some_iff.mpr ⟨s, hs, ?_, ?_⟩, rfl⟩
    · exact (topDown_terminal_eq_some_iff hg (hlt hs) ht).mpr ⟨length, htakes, rfl⟩
    · intro j hj s' hs'
      obtain ⟨t', ht'⟩ := hslots s' (List.mem_of_getElem? hs')
      exact (topDown_terminal_eq_none_iff hg (hlt hs') ht').mpr (hlowest j hj s' t' hs' ht')

end Grammar

namespace Parse

variable {g : Grammar} {input : Input} {c : Nat}

theorem exists_evaluate_of_view (hlexical : g.lexical = none) {n : Nat} {k : Key} {m : Match}
    (h : (run g input n).table.view k = some m) :
    ∃ i, g.evaluate input (run g input i).table.view k = some m := by
  induction n with
  | zero =>
      have hlexeme := (State.view_initial h).1
      rw [Grammar.lex, hlexical] at hlexeme
      cases hlexeme
  | succ n ih =>
      rcases view_succ_cases g input n k with hsame | ⟨_, m', hm', _, hview⟩
      · exact ih (hsame ▸ h)
      · rw [hview] at h
        cases h
        exact ⟨n, hm'⟩

theorem topDown_of_view_repetition (hg : g.Lawful) (hlexical : g.lexical = none) {n pos : Nat}
    (hconverged : (run g input n).state.converged = true) (hc : (g.clause c).acyclic = true)
    {slot : Slot} {t : Terminal} (hshape : g.shape c = .unary .oneOrMore slot)
    (hslot : g.shape slot.clause = .terminal t) {m : Match}
    (hview : (run g input n).table.view ⟨c, pos⟩ = some m)
    (hevaluate : g.evaluate input (run g input n).table.view ⟨c, pos⟩ = g.topDown input c pos) :
    g.topDown input c pos = some m := by
  have hfits := view_sound hg input n _ m hview
  have hpos := ((run_valid hg input n).keys _ (Table.mem_of_view hview)).start_le
  obtain ⟨e, he, hle, hunique⟩ :=
    Grammar.le_topDown_of_wellFormed hg hc hshape hslot hfits.wellFormed hfits.clause_eq
  rw [hfits.start_eq] at he
  -- A longer match would have been better, and a settled key misses no better match.
  have hactive := everActive_of_view hlexical (hview ▸ Option.some_ne_none m)
  have hnot := (hactive.settled_of_converged hconverged).best e (hevaluate.trans he)
  have hview' : (run g input n).state.table.view ⟨c, pos⟩ = some m := hview
  rw [Table.improvedBy_of_view hview'] at hnot
  have hexact : e.Fits g input ⟨c, pos⟩ := Grammar.topDown_sound _ _ _ hpos he
  have hsame : m.length = e.length := by
    by_contra hne
    have hbetter := Grammar.greedy_of_terminal hg hshape hslot pos m e hfits hexact (by omega)
    rw [hnot] at hbetter
    cases hbetter
  rw [he, hunique hsame]

theorem lookup_of_immediate (hg : g.Lawful) (hlexical : g.lexical = none) {n : Nat}
    (hconverged : (run g input n).state.converged = true)
    (hmemoized : (g.shape c).isMemoized = true) (hparts : ∀ j ∈ g.next c, g.Immediate j) {pos : Nat}
    (hpos : pos ≤ input.size) :
    g.lookup input (run g input n).table.view c pos = g.topDown input c pos := by
  have hacyclic : ∀ j ∈ g.next c, (g.clause j).acyclic = true := fun j hj =>
    (hparts j hj).acyclic hg (hg.bounded c j hj)
  have hc := Grammar.acyclic_of_next hg (Grammar.lt_size_of_isMemoized hmemoized) hacyclic
  refine lookup_eq_topDown_of_parts hg hlexical hconverged hc hmemoized (fun j hj q hq => ?_)
    (fun q m hm hevaluate => ?_) hpos
  · exact (hparts j hj).lookup_eq hg (hg.bounded c j hj) hq _
  by_cases hrepetition : ∃ slot t, g.shape c = .unary .oneOrMore slot ∧
      g.shape slot.clause = .terminal t
  · obtain ⟨slot, t, hshape, hslot⟩ := hrepetition
    exact topDown_of_view_repetition hg hlexical hconverged hc hshape hslot hm hevaluate
  · obtain ⟨i, hi⟩ := exists_evaluate_of_view hlexical hm
    have hq := ((run_valid hg input n).keys _ (Table.mem_of_view hm)).start_le
    rw [← hi, Grammar.evaluate_of_immediate hg hc hparts (fun slot head hshape hhead => ?_) hq]
    have hslot := Grammar.mem_next_of_unary hshape
    rcases hparts _ hslot with ⟨t, hterminal⟩ | ⟨inner, hnegative, _⟩
    · exact absurd ⟨slot, t, hshape, hterminal⟩ hrepetition
    · exact Grammar.length_of_negative hg (hacyclic _ hslot) hnegative hhead

theorem exists_run (g : Grammar) (input : String) (limit : Option Nat) :
    ∃ n, ofString g input limit = run g (Input.ofString input) n := by
  cases limit with
  | some n => exact ⟨n, rfl⟩
  | none =>
      cases hsettle : (State.initial g (Input.ofString input)).settle? g (Input.ofString input) with
      | none =>
          refine ⟨0, ?_⟩
          simp only [ofString, unbounded, hsettle]
          rfl
      | some s =>
          obtain ⟨n, rfl, _⟩ := State.settle?_eq_some_iff.mp hsettle
          refine ⟨n, ?_⟩
          simp only [ofString, unbounded, hsettle]
          rfl

theorem literal_combinators_are_exact {source : Source} (h : source.compile = .ok g)
    (hlexical : g.lexical = none) (input : String) (limit : Option Nat)
    (hconverged : (ofString g input limit).converged = true)
    (hmemoized : (g.shape c).isMemoized = true) (hparts : ∀ j ∈ g.next c, g.Immediate j) :
    let p := ofString g input limit
    (∀ pos ≤ p.input.size, p.best? c pos = g.topDown p.input c pos) ∧
      (∀ slot t, g.shape c = .unary .oneOrMore slot → g.shape slot.clause = .terminal t →
        ∀ pos ≤ p.input.size, ∃ ms, t.GreedyRun p.input slot.clause pos ms ∧
          p.best? c pos = Match.nest c ms) ∧
      ∀ slots, g.shape c = .group .first slots →
        (∀ s ∈ slots, ∃ t, g.shape s.clause = .terminal t) →
        ∀ pos ≤ p.input.size, ∀ m, p.best? c pos = some m ↔
          ∃ i s t length, slots[i]? = some s ∧ g.shape s.clause = .terminal t ∧
            t.Takes p.input pos length ∧
            (∀ j < i, ∀ s' t', slots[j]? = some s' → g.shape s'.clause = .terminal t' →
              ∀ length, ¬t'.Takes p.input pos length) ∧
            m = ⟨c, pos, length, i, [Match.leaf s.clause pos length]⟩ := by
  intro p
  have hg := Source.compile_lawful h
  have hc : (g.clause c).acyclic = true :=
    Grammar.acyclic_of_next hg (Grammar.lt_size_of_isMemoized hmemoized) fun j hj =>
      (hparts j hj).acyclic hg (hg.bounded c j hj)
  have hexact : ∀ pos ≤ p.input.size, p.best? c pos = g.topDown p.input c pos := by
    obtain ⟨n, hrun⟩ := exists_run g input limit
    rw [hrun] at hconverged
    intro pos hpos
    simp only [p, hrun] at hpos ⊢
    rw [best?, if_neg (Nat.not_lt.mpr hpos)]
    exact lookup_of_immediate hg hlexical hconverged hmemoized hparts hpos
  refine ⟨hexact, fun slot t hshape hslot pos hpos => ?_, fun slots hshape hslots pos hpos m => ?_⟩
  · rw [hexact pos hpos]
    exact Grammar.exists_greedyRun hg hc hshape hslot hpos
  · rw [hexact pos hpos]
    exact Grammar.topDown_first_eq_some_iff hg hc hshape hslots

theorem last_number_is_taken_whole :
    ∃ g, Sample.arithmetic.compile = .ok g ∧ g.lexical = none ∧
      (ofString g "1+2345" none).converged = true ∧
      g.shape 2 = .unary .oneOrMore ⟨1, none⟩ ∧
      ((ofString g "1+2345" none).best? 4 0).map (·.length) = some 5 ∧
      ((ofString g "1+2345" none).best? 2 2).map (·.length) = some 4 ∧
      (ofString g "1+2345" none).best? 2 2 = g.topDown (Input.ofString "1+2345") 2 2 := by
  have hrun : (Sample.arithmetic.compile.toOption.any fun g =>
      (run g (Input.ofString "1+2345") 9).converged &&
        decide (((run g (Input.ofString "1+2345") 9).best? 4 0).map (·.length) = some 5) &&
        decide (((run g (Input.ofString "1+2345") 9).best? 2 2).map (·.length) = some 4)) = true := by
    decide +kernel
  obtain ⟨g, hg, hrun⟩ := Source.exists_of_compile_any hrun
  simp only [Bool.and_eq_true, decide_eq_true_eq] at hrun
  obtain ⟨⟨hconverged, hsum⟩, hnum⟩ := hrun
  have hshapes := Sample.arithmetic_compile hg
  have hended := ofString_eq_run_of_converged hconverged
  rw [← hended] at hconverged hsum hnum
  have hparts : ∀ j ∈ g.next 2, g.Immediate j := by
    intro j hj
    rw [Grammar.next, hshapes.num] at hj
    rw [List.mem_singleton.mp hj]
    exact .inl ⟨_, hshapes.digit⟩
  have hexact := (literal_combinators_are_exact hg hshapes.lexical "1+2345" none hconverged
    hshapes.isMemoized_num hparts).1
  have hpos : 2 ≤ (Input.ofString "1+2345").size := by decide
  exact ⟨g, hg, hshapes.lexical, hconverged, hshapes.num, hsum, hnum, hexact 2 hpos⟩

end Parse

end BottomUpPeg
