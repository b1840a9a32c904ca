import BottomUpPeg.Proofs.Restless
import BottomUpPeg.Sample.Grammars

namespace BottomUpPeg

namespace Parse

variable {g : Grammar} {input : Input}

theorem converged_unbounded_iff (g : Grammar) (input : String) :
    (ofString g input none).converged = true ↔
      ∃ n, (run g (Input.ofString input) n).state.converged = true := by
  constructor
  · intro h
    refine ⟨(ofString g input none).state.rounds, ?_⟩
    rw [← (state_ofString g input none).1]
    exact h
  · rintro ⟨n, hn⟩
    rw [ofString_eq_run_of_converged hn]
    exact hn

theorem state_run_of_converged {n n' : Nat} (h : (run g input n).state.converged = true)
    (hle : n ≤ n') : (run g input n').state = (run g input n).state := by
  obtain ⟨extra, rfl⟩ := Nat.exists_eq_add_of_le hle
  exact (State.advance_add _ n extra).trans (State.advance_of_converged h extra)

theorem exists_bound (hg : g.Lawful) (input : Input) (n : Nat) :
    ∃ bound, ∀ k m, (run g input n).table.view k = some m → m.height ≤ bound := by
  refine ⟨(g.keys input).sup fun k => ((run g input n).table.view k).elim 0 Match.height, ?_⟩
  intro k m hm
  have hk := (proper_of_view hg (hm ▸ Option.some_ne_none m)).mem_keys
  have hle := Finset.le_sup (f := fun k => ((run g input n).table.view k).elim 0 Match.height) hk
  simpa only [hm, Option.elim_some] using hle

theorem exists_bound_of_converged (hg : g.Lawful) {n : Nat}
    (h : (run g input n).state.converged = true) :
    ∃ bound, ∀ i k m, (run g input i).table.view k = some m → m.height ≤ bound := by
  choose bound hbound using exists_bound hg input
  have hearly : ∀ i ≤ n, ∀ k m, (run g input i).table.view k = some m →
      m.height ≤ (Finset.range (n + 1)).sup bound := by
    intro i hi k m hm
    exact (hbound i k m hm).trans (Finset.le_sup (Finset.mem_range.mpr (Nat.lt_succ_of_le hi)))
  refine ⟨(Finset.range (n + 1)).sup bound, fun i k m hm => ?_⟩
  rcases Nat.le_total i n with hi | hi
  · exact hearly i hi k m hm
  · rw [table, state_run_of_converged h hi] at hm
    exact hearly n (Nat.le_refl n) k m hm

theorem exists_converged_of_free (hg : g.Lawful) (hfree : ∀ c, ¬Graph.LeadsTo g.fills c c)
    (input : Input) : ∃ n, (run g input n).state.converged = true := by
  have hbound : ∀ n k m, (run g input n).table.view k = some m →
      m.height ≤ input.size * (g.size + 1) + g.size + 1 := by
    intro n k m hm
    have hfits := view_sound hg input n k m hm
    have hproper := proper_of_view hg (hm ▸ Option.some_ne_none m)
    have hlt : m.clause < g.size := by
      rw [hfits.clause_eq]
      exact Grammar.lt_size_of_isMemoized hproper.memoized
    have hlength : m.length ≤ input.size :=
      (Nat.le_add_left ..).trans hfits.wellFormed.stop_le
    have hrank := Graph.rank_le (Grammar.fills_bounded hg) m.clause
    have hmul := Nat.mul_le_mul_right (g.size + 1) hlength
    have hheight := hfits.wellFormed.height_le hg hfree hlt
    omega
  exact exists_converged_of_bounded hg hbound

theorem ends_iff_height_is_bounded {source : Source} (h : source.compile = .ok g) (input : String) :
    ((ofString g input none).converged = true ↔
      ∃ bound, ∀ n k m, (run g (Input.ofString input) n).table.view k = some m →
        m.height ≤ bound) ∧
    ((∀ c < g.size, Graph.onCycle g.fills g.size c = false) →
      (ofString g input none).converged = true) := by
  have hg := Source.compile_lawful h
  rw [converged_unbounded_iff]
  refine ⟨⟨?_, ?_⟩, fun hfree => ?_⟩
  · rintro ⟨n, hn⟩
    exact exists_bound_of_converged hg hn
  · rintro ⟨bound, hbound⟩
    exact exists_converged_of_bounded hg hbound
  · exact exists_converged_of_free hg
      (Graph.not_leadsTo_self_of_onCycle (Grammar.fills_bounded hg) hfree) _

theorem sums_come_to_an_end :
    ∃ g, Sample.arithmetic.compile = .ok g ∧ (∃ c < g.size, (g.clause c).acyclic = false) ∧
      (ofString g "1+2345" none).converged = true := by
  have hfacts : (Sample.arithmetic.compile.toOption.any fun g =>
      ((List.range g.size).any fun c => !(g.clause c).acyclic) &&
        (List.range g.size).all fun c => !Graph.onCycle g.fills g.size c) = true := by
    decide +kernel
  cases hg : Sample.arithmetic.compile with
  | error e => simp [hg, Except.toOption] at hfacts
  | ok g =>
      simp only [hg, Except.toOption, Option.any_some, Bool.and_eq_true, List.any_eq_true,
        List.all_eq_true, List.mem_range, Bool.not_eq_true'] at hfacts
      exact ⟨g, rfl, hfacts.1, (ends_iff_height_is_bounded hg "1+2345").2 hfacts.2⟩

end Parse

/-- A choice whose first alternative is the choice itself, with nothing after it. -/
def selfFilling : Source where
  definitions := [.plain "A" (.first [.seq [.reference "A", .nothing], .char 'a'])]
  lexical := none

structure Grammar.IsSelfFilling (g : Grammar) : Prop where
  lawful : g.Lawful
  nothing : g.shape 0 = .terminal .nothing
  wrap : g.shape 1 = .group .seq [⟨3, none⟩, ⟨0, none⟩]
  letter : g.shape 2 = .terminal (.chars (CharSet.singleton 'a'))
  choice : g.shape 3 = .group .first [⟨1, none⟩, ⟨2, none⟩]
  size : g.size = 4
  lexical : g.lexical = none
  zero : g.zero 3 = false
  always : ∀ c, c = 1 ∨ c = 3 → (g.clause c).always = false
  recursive : (g.clause 3).acyclic = false

theorem selfFilling_compile : ∃ g, selfFilling.compile = .ok g ∧ g.IsSelfFilling := by
  have hfacts : (selfFilling.compile.toOption.any fun g =>
      decide (g.shape 0 = .terminal .nothing) &&
      decide (g.shape 1 = .group .seq [⟨3, none⟩, ⟨0, none⟩]) &&
      decide (g.shape 2 = .terminal (.chars (CharSet.singleton 'a'))) &&
      decide (g.shape 3 = .group .first [⟨1, none⟩, ⟨2, none⟩]) &&
      decide (g.size = 4) && g.lexical.isNone && !g.zero 3 && !(g.clause 1).always &&
      !(g.clause 3).always && !(g.clause 3).acyclic) = true := by decide +kernel
  cases hg : selfFilling.compile with
  | error e => simp [hg, Except.toOption] at hfacts
  | ok g =>
      simp only [hg, Except.toOption, Option.any_some, Bool.and_eq_true, decide_eq_true_eq,
        Option.isNone_iff_eq_none, Bool.not_eq_true', and_assoc] at hfacts
      obtain ⟨hnothing, hwrap, hletter, hchoice, hsize, hlexical, hzero, hone, hthree, hrec⟩ := hfacts
      refine ⟨g, rfl, Source.compile_lawful hg, hnothing, hwrap, hletter, hchoice, hsize, hlexical,
        hzero, ?_, hrec⟩
      rintro c (rfl | rfl)
      · exact hone
      · exact hthree

namespace Grammar.IsSelfFilling

variable {g : Grammar} {input : Input}

def wrapped (pos : Nat) (m : Match) : Match :=
  ⟨1, pos, m.length, 0, [m, Match.leaf 0 (pos + m.length) 0]⟩

def nested (pos : Nat) : Nat → Match
  | 0 => Match.choose 3 pos (1, Match.leaf 2 pos 1)
  | depth + 1 => Match.choose 3 pos (0, wrapped pos (nested pos depth))

theorem length_wrapped (pos : Nat) (m : Match) : (wrapped pos m).length = m.length := rfl

theorem length_nested (pos depth : Nat) : (nested pos depth).length = 1 := by
  induction depth with
  | zero => rfl
  | succ depth ih => exact ih

theorem start_nested (pos depth : Nat) : (nested pos depth).start = pos := by
  cases depth <;> rfl

theorem fits_wrap (h : g.IsSelfFilling) {pos : Nat} {b : Match} (hb : b.Fits g input ⟨1, pos⟩) :
    ∃ m, m.Fits g input ⟨3, pos⟩ ∧ b = wrapped pos m := by
  obtain ⟨hclause, hstart, hwf⟩ := hb
  obtain ⟨hindex, hlength, hclauses, hends, hall⟩ := hwf.composed_of_shape hclause h.wrap
  obtain ⟨m, empty, hparts⟩ : ∃ m empty, b.parts = [m, empty] :=
    List.length_eq_two.mp (by simpa using congrArg List.length hclauses)
  rw [hparts] at hclauses hends hall hlength
  simp only [List.map_cons, List.map_nil, List.cons.injEq, and_true] at hclauses
  obtain ⟨hm, hempty⟩ := hclauses
  obtain ⟨hmstart, hestart, _⟩ := hends
  have hfits : m.Fits g input ⟨3, pos⟩ := ⟨hm, hmstart.trans hstart, hall m (by simp)⟩
  have hstop : m.stop = pos + m.length := by rw [Match.stop, hfits.start_eq]
  obtain ⟨⟨hnone, _⟩, heindex, heparts⟩ :=
    (hall empty (by simp)).composed_of_shape hempty h.nothing
  obtain rfl : empty = Match.leaf 0 (pos + m.length) 0 :=
    Match.ext_fields hempty.symm (hestart.trans hstop).symm hnone heindex heparts
  refine ⟨m, hfits, Match.ext_fields hclause.symm hstart.symm ?_ hindex hparts⟩
  rw [hlength]
  simp [Match.totalLength, wrapped, Match.leaf]

theorem fits_nested (h : g.IsSelfFilling) {pos : Nat} {m : Match} (hm : m.Fits g input ⟨3, pos⟩) :
    ∃ depth, m = nested pos depth := by
  induction hheight : m.height using Nat.strong_induction_on generalizing m with
  | _ height ih =>
      subst hheight
      obtain ⟨hclause, hstart, hwf⟩ := hm
      obtain ⟨slot, part, hslot, hpart, hlength, hparts⟩ := hwf.composed_of_shape hclause h.choice
      rw [hstart] at hpart
      have hlower : part.height < m.height := Match.height_lt_of_mem (by rw [hparts]; simp)
      cases hindex : m.index with
      | zero =>
          rw [hindex] at hslot
          cases hslot
          obtain ⟨inner, hinner, rfl⟩ := h.fits_wrap hpart
          have hbelow : inner.height < (wrapped pos inner).height :=
            Match.height_lt_of_mem (List.mem_cons_self ..)
          obtain ⟨depth, rfl⟩ := ih inner.height (hbelow.trans hlower) hinner rfl
          exact ⟨depth + 1, Match.ext_fields hclause.symm hstart.symm hlength hindex hparts⟩
      | succ i =>
          cases i with
          | zero =>
              rw [hindex] at hslot
              cases hslot
              obtain ⟨⟨hone, _⟩, hpindex, hpparts⟩ :=
                hpart.wellFormed.composed_of_shape hpart.clause_eq h.letter
              obtain rfl : part = Match.leaf 2 pos 1 :=
                Match.ext_fields hpart.clause_eq.symm hpart.start_eq.symm hone hpindex hpparts
              exact ⟨0, Match.ext_fields hclause.symm hstart.symm hlength hindex hparts⟩
          | succ i =>
              rw [hindex] at hslot
              cases hslot

theorem compareIn_wrapped (h : g.IsSelfFilling) (pos : Nat) {m m' : Match}
    (hm : m.length = m'.length) :
    Match.compareIn g (wrapped pos m) (wrapped pos m') = Match.compareIn g m m' := by
  rw [Match.compareIn_eq]
  simp [wrapped, h.wrap, Shape.preference, Match.compareLengths, Match.compareAllIn, hm,
    Match.compareIn_self]

theorem compareIn_nested (h : g.IsSelfFilling) (pos depth depth' : Nat) :
    Match.compareIn g (nested pos depth) (nested pos depth') = compare depth depth' := by
  induction depth generalizing depth' with
  | zero =>
      cases depth' with
      | zero => exact Match.compareIn_self g _
      | succ depth' =>
          rw [Match.compareIn_eq, nested, nested, Match.choose, h.choice]
          rfl
  | succ depth ih =>
      cases depth' with
      | zero =>
          rw [Match.compareIn_eq, nested, nested, Match.choose, h.choice]
          rfl
      | succ depth' =>
          have hlengths : (nested pos depth).length = (nested pos depth').length := by
            rw [length_nested, length_nested]
          have hsucc : compare (depth + 1) (depth' + 1) = compare depth depth' := by
            simp only [Nat.compare_eq_ite_lt, Nat.add_lt_add_iff_right]
          rw [hsucc, ← ih depth', ← h.compareIn_wrapped pos hlengths, Match.compareIn_eq]
          simp [nested, Match.choose, h.choice, Shape.preference, Match.compareLengths,
            Match.compareAllIn, length_wrapped, length_nested]

theorem le_of_not_isBetter (h : g.IsSelfFilling) {pos depth depth' : Nat}
    (hnot : (nested pos depth).isBetter g (nested pos depth') = false) : depth ≤ depth' := by
  rw [Match.isBetter, h.compareIn_nested, beq_eq_false_iff_ne] at hnot
  exact Nat.compare_ne_gt.mp hnot

theorem isMemoized (h : g.IsSelfFilling) {c : Nat} (hc : c = 1 ∨ c = 3) :
    (g.shape c).isMemoized = true := by
  rcases hc with rfl | rfl
  · rw [h.wrap]
    rfl
  · rw [h.choice]
    rfl

theorem lookup_kept (h : g.IsSelfFilling) {c : Nat} (hc : c = 1 ∨ c = 3) (view : View) (pos : Nat) :
    g.lookup input view c pos = view ⟨c, pos⟩ :=
  Grammar.lookup_of_not_always (h.isMemoized hc) (h.always c hc) view pos

theorem lookup_letter (h : g.IsSelfFilling) {pos : Nat}
    (hletter : (Terminal.chars (CharSet.singleton 'a')).Takes input pos 1) (view : View) :
    g.lookup input view 2 pos = some (Match.leaf 2 pos 1) := by
  rw [Grammar.lookup_terminal (by rw [h.size]; decide) h.letter,
    (Terminal.length?_eq_some_iff input pos 1 _).mpr hletter]
  rfl

theorem evaluate_wrap (h : g.IsSelfFilling) {view : View} {pos : Nat} (hpos : pos + 1 ≤ input.size)
    {m : Match} (hm : view ⟨3, pos⟩ = some m) (hstart : m.start = pos) (hlength : m.length = 1) :
    g.evaluate input view ⟨1, pos⟩ = some (wrapped pos m) := by
  have hstop : m.stop = pos + 1 := by rw [Match.stop, hstart, hlength]
  have hempty : g.lookup input view 0 (pos + 1) = some (Match.leaf 0 (pos + 1) 0) := by
    rw [Grammar.lookup_terminal (by rw [h.size]; decide) h.nothing]
    simp [Terminal.length?, hpos]
  rw [Grammar.evaluate, h.wrap, Shape.step, Look.chain, h.lookup_kept (.inr rfl), hm]
  simp only [Look.chain, hstop, hempty]
  simp [wrapped, hlength, Match.leaf, Match.stop]

theorem evaluate_choice (h : g.IsSelfFilling) {view : View} {pos : Nat} {b : Match}
    (hb : view ⟨1, pos⟩ = some b) :
    g.evaluate input view ⟨3, pos⟩ = some (Match.choose 3 pos (0, b)) := by
  rw [Grammar.evaluate, h.choice, Shape.step, Look.first, h.lookup_kept (.inl rfl), hb]
  rfl

theorem everActive_choice (h : g.IsSelfFilling) {pos : Nat}
    (hletter : (Terminal.chars (CharSet.singleton 'a')).Takes input pos 1) (n : Nat) :
    Parse.EverActive g input n ⟨3, pos⟩ := by
  have hparent : 3 ∈ (g.clause 2).seedParents := by
    refine (h.lawful.mem_seedParents 2 3).mpr ⟨h.isMemoized (.inr rfl), ?_⟩
    rw [h.choice]
    simp [Shape.seedChildren]
  have hseed := Parse.isSeed_of_seedParents (by rw [h.letter]; rfl) (by simp [h.letter]) hparent
  have hcut : pos ∈ (g.lex input).cuts := by
    have hle := hletter.le_size
    rw [Grammar.lex, h.lexical]
    exact List.mem_range.mpr (by omega)
  refine Parse.everActive_of_seed hseed (by rw [h.size]; decide) hcut ?_ hparent
  rw [h.lookup_letter hletter]
  exact Option.some_ne_none _

-- The choice may hold its own match at any depth, and each depth gives a better match one deeper.
theorem not_converged (h : g.IsSelfFilling) {pos : Nat}
    (hletter : (Terminal.chars (CharSet.singleton 'a')).Takes input pos 1) (n : Nat) :
    (Parse.run g input n).state.converged = false := by
  by_contra hrunning
  have hconverged : (Parse.run g input n).state.converged = true := by simpa using hrunning
  have hchoice := (h.everActive_choice hletter n).settled_of_converged hconverged
  have hstored := (Parse.view_isSome_iff_of_settled h.lawful hchoice h.choice (by simp)).mpr
    ⟨⟨2, none⟩, by simp, by rw [h.lookup_letter hletter]; rfl⟩
  obtain ⟨m, hm⟩ := Option.isSome_iff_exists.mp hstored
  obtain ⟨depth, rfl⟩ := h.fits_nested (Parse.view_sound h.lawful input n _ m hm)
  have hparent : 1 ∈ (g.clause 3).seedParents := by
    refine (h.lawful.mem_seedParents 3 1).mpr ⟨h.isMemoized (.inl rfl), ?_⟩
    rw [h.wrap]
    simp [Shape.seedChildren, Shape.leading, h.zero]
  have hactive := Parse.everActive_of_seedParent (hm ▸ Option.some_ne_none _) hparent
  have hwrap := hactive.settled_of_converged hconverged
  obtain ⟨b, hb, hnot⟩ := hwrap.exists_kept
    (h.evaluate_wrap hletter.le_size hm (start_nested pos depth) (length_nested pos depth))
  obtain ⟨m, hfits, rfl⟩ := h.fits_wrap (Parse.view_sound h.lawful input n _ b hb)
  obtain ⟨depth', rfl⟩ := h.fits_nested hfits
  have hle : depth ≤ depth' := by
    rw [Match.isBetter, h.compareIn_wrapped pos (by rw [length_nested, length_nested])] at hnot
    exact h.le_of_not_isBetter hnot
  obtain ⟨kept, hkept, hnot'⟩ := hchoice.exists_kept (h.evaluate_choice hb)
  obtain rfl : kept = nested pos depth := Option.some.inj (hkept.symm.trans hm)
  have hlt : depth' + 1 ≤ depth := h.le_of_not_isBetter hnot'
  omega

end Grammar.IsSelfFilling

theorem Parse.self_filling_never_ends :
    ∃ g, selfFilling.compile = .ok g ∧ (∃ c < g.size, (g.clause c).acyclic = false) ∧
      ∀ n, (run g (Input.ofString "a") n).converged = false := by
  obtain ⟨g, hg, h⟩ := selfFilling_compile
  have hletter : (Terminal.chars (CharSet.singleton 'a')).Takes (Input.ofString "a") 0 1 :=
    ⟨rfl, 'a', rfl, by decide⟩
  exact ⟨g, hg, ⟨3, by rw [h.size]; decide, h.recursive⟩, h.not_converged hletter⟩

end BottomUpPeg
