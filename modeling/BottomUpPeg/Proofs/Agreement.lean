import BottomUpPeg.Proofs.Growth

namespace BottomUpPeg

section Positions

variable {g : Grammar} {input : Input} {look look' : Look}

theorem Look.stop_mem (hlook : look.Sound g input) {c pos : Nat} (hpos : pos ≤ input.size)
    {m : Match} (h : look c pos = some m) :
    m.stop = pos + m.length ∧ m.stop ≤ input.size := by
  obtain ⟨_, hstart, hwf⟩ := hlook _ _ _ hpos h
  exact ⟨by rw [Match.stop, hstart], hwf.stop_le⟩

theorem Look.chain_congr_from (hlook : look.Sound g input) {slots : List Slot} {pos : Nat}
    (hpos : pos ≤ input.size)
    (h : ∀ s ∈ slots, ∀ q, pos ≤ q → q ≤ input.size → look s.clause q = look' s.clause q) :
    look.chain slots pos = look'.chain slots pos := by
  induction slots generalizing pos with
  | nil => rfl
  | cons s slots ih =>
      rw [chain, chain, ← h s (List.mem_cons_self ..) pos (Nat.le_refl _) hpos]
      cases hm : look s.clause pos with
      | none => rfl
      | some m =>
          obtain ⟨hstop, hle⟩ := stop_mem hlook hpos hm
          have hrest := ih hle fun t ht q hq =>
            h t (List.mem_cons_of_mem _ ht) q (by omega)
          simp only [hrest]

theorem Shape.step_congr_from (hlook : look.Sound g input) {tail tail' : Nat → Option Match}
    {s : Shape} {c pos : Nat} (hpos : pos ≤ input.size)
    (h : ∀ j ∈ s.children, ∀ q, pos ≤ q → q ≤ input.size → look j q = look' j q)
    (htail : ∀ q, pos < q → q ≤ input.size → tail q = tail' q) :
    s.step input look tail c pos = s.step input look' tail' c pos := by
  cases s with
  | terminal t => rfl
  | group kind slots =>
      have hslots : ∀ s ∈ slots, ∀ q, pos ≤ q → q ≤ input.size →
          look s.clause q = look' s.clause q := fun s hs => h s.clause (List.mem_map_of_mem hs)
      have hhere : ∀ s ∈ slots, look s.clause pos = look' s.clause pos := fun s hs =>
        hslots s hs pos (Nat.le_refl _) hpos
      cases kind with
      | seq => rw [step, step, Look.chain_congr_from hlook hpos hslots]
      | first => rw [step, step, Look.first_congr hhere]
      | longest => rw [step, step, Look.longest_congr hhere]
  | unary kind slot =>
      have hhere : look slot.clause pos = look' slot.clause pos :=
        h slot.clause (List.mem_singleton_self _) pos (Nat.le_refl _) hpos
      cases kind with
      | oneOrMore =>
          refine Look.repeated_congr hhere (fun head hhead hlength => ?_) c
          obtain ⟨hstop, hle⟩ := Look.stop_mem hlook hpos (hhere.trans hhead)
          exact htail head.stop (by omega) hle
      | followedBy => rw [step, step, hhere]
      | notFollowedBy => rw [step, step, hhere]

theorem Grammar.evaluate_eq_topDown (hg : g.Lawful) {view : View} {c pos : Nat}
    (hc : (g.clause c).acyclic = true) (hpos : pos ≤ input.size)
    (hparts : ∀ j ∈ g.next c, ∀ q, pos ≤ q → q ≤ input.size →
      g.lookup input view j q = g.topDown input j q)
    (htail : ∀ q, pos < q → q ≤ input.size → g.lookup input view c q = g.topDown input c q) :
    g.evaluate input view ⟨c, pos⟩ = g.topDown input c pos := by
  rw [topDown_eq hg hc hpos, eq_comm]
  refine Shape.step_congr_from topDown_sound hpos (fun j hj q hle hq => ?_) fun q hlt hq => ?_
  · exact (hparts j hj q hle hq).symm
  · exact (htail q hlt hq).symm

theorem Look.chain_isSome (hlook : look.Sound g input) {slots : List Slot} {pos : Nat}
    (hpos : pos ≤ input.size)
    (h : ∀ s ∈ slots, ∀ q, q ≤ input.size → (look s.clause q).isSome = true) :
    (look.chain slots pos).isSome = true := by
  induction slots generalizing pos with
  | nil => rfl
  | cons s slots ih =>
      obtain ⟨m, hm⟩ := Option.isSome_iff_exists.mp (h s (List.mem_cons_self ..) pos hpos)
      have hrest := ih (stop_mem hlook hpos hm).2 fun t ht => h t (List.mem_cons_of_mem _ ht)
      obtain ⟨found, hfound⟩ := Option.isSome_iff_exists.mp hrest
      rw [chain, hm]
      simp only [hfound]
      rfl

theorem Look.repeated_isSome {tail : Nat → Option Match} {c pos : Nat} {slot : Slot} :
    (look.repeated tail c slot pos).isSome = (look slot.clause pos).isSome := by
  rw [repeated]
  cases look slot.clause pos with
  | none => rfl
  | some head =>
      simp only
      split
      · rfl
      · cases tail head.stop with
        | none => rfl
        | some rest =>
            simp only
            split <;> rfl

theorem Grammar.step_isSome_of_always (hg : g.Lawful) (hlook : look.Sound g input) {c pos : Nat}
    {tail : Nat → Option Match} (hmemoized : (g.shape c).isMemoized = true)
    (halways : (g.clause c).always = true) (hpos : pos ≤ input.size)
    (h : ∀ j ∈ g.next c, (g.clause j).always = true → ∀ q, q ≤ input.size →
      (look j q).isSome = true) :
    ((g.shape c).step input look tail c pos).isSome = true := by
  have hflags : (g.clause c).always = ((g.shape c).flags g.flags).always :=
    congrArg Flags.always (hg.flags_eq c (lt_size_of_isMemoized hmemoized))
  rw [halways] at hflags
  cases hshape : g.shape c with
  | terminal t =>
      rw [hshape] at hmemoized
      cases hmemoized
  | group kind slots =>
      rw [hshape] at hflags
      have hslots : ∀ s ∈ slots, (g.clause s.clause).always = true → ∀ q, q ≤ input.size →
          (look s.clause q).isSome = true := fun s hs => h _ (mem_next_of_group hshape hs)
      cases kind with
      | seq =>
          rw [Shape.step, Option.isSome_map]
          apply Look.chain_isSome hlook hpos
          exact fun s hs => hslots s hs (List.all_eq_true.mp hflags.symm s hs)
      | first =>
          obtain ⟨s, hs, hmatches⟩ := List.any_eq_true.mp hflags.symm
          rw [Shape.step, Option.isSome_map, Look.first_isSome]
          exact List.any_eq_true.mpr ⟨s, hs, hslots s hs hmatches pos hpos⟩
      | longest =>
          obtain ⟨s, hs, hmatches⟩ := List.any_eq_true.mp hflags.symm
          rw [Shape.step, Option.isSome_map, Look.longest_isSome]
          exact List.any_eq_true.mpr ⟨s, hs, hslots s hs hmatches pos hpos⟩
  | unary kind slot =>
      rw [hshape] at hflags
      have hslot := fun halways => h slot.clause (mem_next_of_unary hshape) halways pos hpos
      cases kind with
      | oneOrMore =>
          rw [Shape.step, Look.repeated_isSome]
          exact hslot hflags.symm
      | followedBy =>
          rw [Shape.step, Option.isSome_map]
          exact hslot hflags.symm
      | notFollowedBy => cases hflags

end Positions

namespace Parse

variable {g : Grammar} {input : Input}

theorem lookup_seedChild (hg : g.Lawful) (hlexical : g.lexical = none) {n c pos : Nat}
    (hc : (g.clause c).acyclic = true) (hmemoized : (g.shape c).isMemoized = true)
    (hpos : pos ≤ input.size) (hnever : ¬EverActive g input n ⟨c, pos⟩) :
    ∀ j ∈ (g.shape c).seedChildren g.zero,
      g.lookup input (run g input n).table.view j pos = g.emptyMatch pos g.size [] j := by
  intro j hj
  have hparent : c ∈ (g.clause j).seedParents := (hg.mem_seedParents j c).mpr ⟨hmemoized, hj⟩
  have hacyclic := Grammar.acyclic_of_mem_next hg hc (Shape.seedChildren_subset _ _ j hj)
  have hlt := Grammar.lt_size_of_acyclic hacyclic
  cases hkept : (g.shape j).isMemoized with
  | true =>
      have hview : (run g input n).table.view ⟨j, pos⟩ = none := by
        by_contra hview
        exact hnever (everActive_of_seedParent hview hparent)
      rw [Grammar.lookup_of_isMemoized hkept, hview, Option.none_or]
  | false =>
      by_cases hnothing : g.shape j = .terminal .nothing
      · have halways : (g.clause j).always = true := by
          have hflags := congrArg Flags.always (hg.flags_eq j hlt)
          rw [hnothing] at hflags
          exact hflags
        rw [Grammar.lookup_terminal hlt hnothing, Grammar.emptyMatch_eq hg pos hacyclic, halways,
          hnothing]
        simp [Terminal.length?, hpos, Shape.emptyStep]
      · have hseed := isSeed_of_seedParents hkept hnothing hparent
        have hcut : pos ∈ (g.lex input).cuts := by
          rw [Grammar.lex, hlexical]
          exact List.mem_range.mpr (Nat.lt_succ_of_le hpos)
        have hnone : g.lookup input (fun _ => none) j pos = none := by
          by_contra hfound
          exact hnever (everActive_of_seed hseed hlt hcut hfound hparent)
        have halways : (g.clause j).always = false := by
          by_contra halways
          have hsome := Grammar.lookup_isSome_of_always hg hacyclic (by simpa using halways) hpos
            fun _ => none
          rw [hnone] at hsome
          cases hsome
        rw [Grammar.lookup_of_not_isMemoized hg hacyclic hkept hpos] at hnone ⊢
        rw [hnone, Grammar.emptyMatch_eq hg pos hacyclic, halways]
        rfl

theorem lookup_eq_evaluate (hg : g.Lawful) (hlexical : g.lexical = none) {n c pos : Nat}
    (hconverged : (run g input n).state.converged = true) (hc : (g.clause c).acyclic = true)
    (hmemoized : (g.shape c).isMemoized = true) (hpos : pos ≤ input.size)
    (hview : (run g input n).table.view ⟨c, pos⟩ = none) :
    g.lookup input (run g input n).table.view c pos =
      g.evaluate input (run g input n).table.view ⟨c, pos⟩ := by
  have hsound : Look.Sound g input (g.lookup input (run g input n).table.view) :=
    Grammar.lookup_sound (State.advance_valid hg n).best
  rw [Grammar.lookup_of_isMemoized hmemoized, hview, Option.none_or]
  by_cases hactive : EverActive g input n ⟨c, pos⟩
  · have hsettled := hactive.settled_of_converged hconverged
    have hnone : g.evaluate input (run g input n).table.view ⟨c, pos⟩ = none := by
      by_contra hfound
      obtain ⟨m, hm⟩ := Option.ne_none_iff_exists'.mp hfound
      have hbest : (run g input n).table.improvedBy g ⟨c, pos⟩ m = false := hsettled.best m hm
      rw [Table.improvedBy_of_view_none hview] at hbest
      cases hbest
    rw [hnone, Grammar.emptyMatch_eq hg pos hc]
    cases halways : (g.clause c).always with
    | false => rfl
    | true =>
        have hsome : (g.evaluate input (run g input n).table.view ⟨c, pos⟩).isSome = true := by
          refine Grammar.step_isSome_of_always hg hsound hmemoized halways hpos ?_
          intro j hj hmatches q hq
          exact Grammar.lookup_isSome_of_always hg (Grammar.acyclic_of_mem_next hg hc hj) hmatches hq _
        rw [hnone] at hsome
        cases hsome
  · exact (Grammar.step_eq_emptyMatch hg hc hmemoized hpos
      (lookup_seedChild hg hlexical hc hmemoized hpos hactive)).symm

theorem everActive_of_view (hlexical : g.lexical = none) {n : Nat} {k : Key}
    (h : (run g input n).table.view k ≠ none) : EverActive g input n k := by
  induction n with
  | zero =>
      obtain ⟨m, hm⟩ := Option.ne_none_iff_exists'.mp h
      have hlexeme := (State.view_initial hm).1
      rw [Grammar.lex, hlexical] at hlexeme
      cases hlexeme
  | succ n ih =>
      by_cases hbefore : (run g input n).table.view k = none
      · rcases state_run_succ g input n with heq | heq
        · rw [table, heq] at h
          exact absurd hbefore h
        · rw [table, heq] at h
          refine ⟨n, Nat.le_succ n, ?_⟩
          by_contra hactive
          refine h ((State.view_round_of_not_mem fun hdue => ?_).trans hbefore)
          exact hactive (State.mem_due.mp hdue).1
      · exact (ih hbefore).mono (Nat.le_succ n)

theorem lookup_eq_topDown_of_parts (hg : g.Lawful) (hlexical : g.lexical = none) {n c : Nat}
    (hconverged : (run g input n).state.converged = true) (hc : (g.clause c).acyclic = true)
    (hmemoized : (g.shape c).isMemoized = true)
    (hparts : ∀ j ∈ g.next c, ∀ q ≤ input.size,
      g.lookup input (run g input n).table.view j q = g.topDown input j q)
    (hkept : ∀ pos m, (run g input n).table.view ⟨c, pos⟩ = some m →
      g.evaluate input (run g input n).table.view ⟨c, pos⟩ = g.topDown input c pos →
      g.topDown input c pos = some m)
    {pos : Nat} (hpos : pos ≤ input.size) :
    g.lookup input (run g input n).table.view c pos = g.topDown input c pos := by
  -- A repetition reads itself further on, so the positions are taken from the right.
  induction hleft : input.size - pos using Nat.strong_induction_on generalizing pos with
  | _ left ihleft =>
      have hevaluate : g.evaluate input (run g input n).table.view ⟨c, pos⟩ =
          g.topDown input c pos := by
        refine Grammar.evaluate_eq_topDown hg hc hpos (fun j hj q _ hq => hparts j hj q hq) ?_
        exact fun q hlt hq => ihleft (input.size - q) (by omega) hq rfl
      cases hview : (run g input n).table.view ⟨c, pos⟩ with
      | none =>
          exact (lookup_eq_evaluate hg hlexical hconverged hc hmemoized hpos hview).trans hevaluate
      | some m =>
          rw [Grammar.lookup_of_isMemoized hmemoized, hview, Option.some_or]
          exact (hkept pos m hview hevaluate).symm

theorem lookup_eq_topDown (hg : g.Lawful) (hlexical : g.lexical = none) {n : Nat}
    (hconverged : (run g input n).state.converged = true)
    (hkept : ∀ k m, (run g input n).table.view k = some m →
      g.evaluate input (run g input n).table.view k = g.topDown input k.clause k.start →
      g.topDown input k.clause k.start = some m)
    (depth : Nat) {c pos : Nat} (hc : (g.clause c).acyclic = true) (hdepth : g.Fathoms depth c)
    (hpos : pos ≤ input.size) :
    g.lookup input (run g input n).table.view c pos = g.topDown input c pos := by
  induction depth generalizing c pos with
  | zero => exact hdepth.elim
  | succ depth ih =>
      cases hmemoized : (g.shape c).isMemoized with
      | false => exact Grammar.lookup_of_not_isMemoized hg hc hmemoized hpos _
      | true =>
          refine lookup_eq_topDown_of_parts hg hlexical hconverged hc hmemoized (fun j hj q hq => ?_)
            (fun pos => hkept ⟨c, pos⟩) hpos
          exact ih (Grammar.acyclic_of_mem_next hg hc hj) (hdepth j hj) hq

theorem agrees_with_descent_iff {source : Source} (h : source.compile = .ok g)
    (hacyclic : ∀ c < g.size, (g.clause c).acyclic = true) (hlexical : g.lexical = none)
    (input : String) (limit : Option Nat)
    (hconverged : (ofString g input limit).converged = true) :
    let p := ofString g input limit
    (∀ c < g.size, ∀ pos ≤ p.input.size, p.best? c pos = g.topDown p.input c pos) ↔
      ∀ k m, p.table.view k = some m →
        ∃ e, g.topDown p.input k.clause k.start = some e ∧ m.isBetter g e = false := by
  intro p
  have hg := Source.compile_lawful h
  have hgrammar : p.grammar = g := grammar_ofString g input limit
  have hinput : p.input = Input.ofString input := input_ofString g input limit
  have hlast : (run g p.input p.state.rounds).state = p.state := by
    rw [hinput]
    exact (state_ofString g input limit).1.symm
  have htable : (run g p.input p.state.rounds).table = p.table := congrArg State.table hlast
  have hvalid : p.state.Valid g p.input := hinput ▸ ofString_valid hg input limit
  constructor
  · intro hagree k m hm
    have hproper := hvalid.keys k (Table.mem_of_view hm)
    have hbest := hagree k.clause (Grammar.lt_size_of_isMemoized hproper.memoized) k.start
      hproper.start_le
    rw [best?, if_neg (Nat.not_lt.mpr hproper.start_le), hgrammar,
      Grammar.lookup_of_isMemoized hproper.memoized] at hbest
    refine ⟨m, ?_, Match.not_isBetter_self g m⟩
    rw [← hbest, hm, Option.some_or]
  · intro hkept c hc pos hpos
    rw [best?, if_neg (Nat.not_lt.mpr hpos), hgrammar, ← htable]
    have hended : (run g p.input p.state.rounds).state.converged = true := by
      rw [hlast]
      exact hconverged
    refine lookup_eq_topDown hg hlexical hended (fun k m hm hevaluate => ?_) g.size (hacyclic c hc)
      (Grammar.fathoms_size hg (hacyclic c hc)) hpos
    have hactive := everActive_of_view hlexical (hm ▸ Option.some_ne_none m)
    have hsettled := hactive.settled_of_converged hended
    rw [htable] at hm hevaluate
    rw [hlast] at hsettled
    obtain ⟨e, he, hnot⟩ := hkept k m hm
    have hproper := hvalid.keys k (Table.mem_of_view hm)
    have hworse : p.table.improvedBy g k e = false := hsettled.best e (hevaluate.trans he)
    rw [Table.improvedBy_of_view hm] at hworse
    have hexact : e.Fits g p.input k := Grammar.topDown_sound _ _ _ hproper.start_le he
    rw [he, Match.eq_of_not_isBetter hexact (hvalid.best k m hm) hworse hnot]

/-- A choice whose first alternative is found a round later than its second. -/
def lateChoice : Source where
  definitions := [
    .plain "S" (.seq [.reference "A", .char 'a']),
    .plain "A" (.first [
      .seq [.followedBy (.followedBy (.char 'a')), .char 'a'],
      .literal "aaa"])]
  lexical := none

theorem lateChoice_run :
    ∃ g, lateChoice.compile = .ok g ∧ (∀ c < g.size, (g.clause c).acyclic = true) ∧
      g.lexical = none ∧ (ofString g "aaaa" none).converged = true ∧ 6 < g.size ∧
      ((ofString g "aaaa" none).best? 6 0).map (·.length) = some 4 ∧
      (g.topDown (Input.ofString "aaaa") 6 0).map (·.length) = some 2 := by
  have hrun : (lateChoice.compile.toOption.any fun g =>
      ((List.range g.size).all fun c => (g.clause c).acyclic) && g.lexical.isNone &&
        (run g (Input.ofString "aaaa") 8).converged && decide (6 < g.size) &&
        decide (((run g (Input.ofString "aaaa") 8).best? 6 0).map (·.length) = some 4) &&
        decide ((g.topDown (Input.ofString "aaaa") 6 0).map (·.length) = some 2)) = true := by
    decide +kernel
  cases hg : lateChoice.compile with
  | error e => simp [hg, Except.toOption] at hrun
  | ok g =>
      simp only [hg, Except.toOption, Option.any_some, Bool.and_eq_true, List.all_eq_true,
        List.mem_range, Option.isNone_iff_eq_none, decide_eq_true_eq] at hrun
      obtain ⟨⟨⟨⟨⟨hacyclic, hlexical⟩, hconverged⟩, hlt⟩, hbest⟩, hexact⟩ := hrun
      refine ⟨g, rfl, hacyclic, hlexical, ?_⟩
      rw [ofString_eq_run_of_converged hconverged]
      exact ⟨hconverged, hlt, hbest, hexact⟩

theorem late_choice_is_kept :
    ∃ g k m, lateChoice.compile = .ok g ∧ (ofString g "aaaa" none).table.view k = some m ∧
      ∀ e, g.topDown (Input.ofString "aaaa") k.clause k.start = some e → m.isBetter g e = true := by
  obtain ⟨g, hg, hacyclic, hlexical, hconverged, hlt, hbest, hexact⟩ := lateChoice_run
  by_contra hnone
  push Not at hnone
  have hagree := (agrees_with_descent_iff hg hacyclic hlexical "aaaa" none hconverged).mpr
    fun k m hm => by
      obtain ⟨e, he, hnot⟩ := hnone g k m hg hm
      exact ⟨e, he, by simpa using hnot⟩
  rw [hagree 6 hlt 0 (Nat.zero_le _)] at hbest
  exact absurd (hbest.symm.trans hexact) (by decide)

theorem late_choice_disagrees :
    ∃ g, lateChoice.compile = .ok g ∧ (∀ c < g.size, (g.clause c).acyclic = true) ∧
      g.lexical = none ∧ (ofString g "aaaa" none).converged = true ∧
      ¬∀ c < g.size, ∀ pos ≤ (Input.ofString "aaaa").size,
        (ofString g "aaaa" none).best? c pos = g.topDown (Input.ofString "aaaa") c pos := by
  obtain ⟨g, hg, hacyclic, hlexical, hconverged, hlt, hbest, hexact⟩ := lateChoice_run
  refine ⟨g, hg, hacyclic, hlexical, hconverged, fun hagree => ?_⟩
  rw [hagree 6 hlt 0 (Nat.zero_le _), hexact] at hbest
  cases hbest

end Parse

end BottomUpPeg
