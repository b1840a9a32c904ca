import BottomUpPeg.Proofs.Naming
import BottomUpPeg.Proofs.Validity

namespace BottomUpPeg

namespace Match

def next (m : Match) : Nat := m.start + max 1 m.length

def select : Nat → List Match → List Match
  | _, [] => []
  | free, m :: rest => if free ≤ m.start then m :: select m.next rest else select free rest

theorem select_of_le {ms : List Match} {free free' : Nat} (hle : free ≤ free')
    (h : ∀ m ∈ ms, free' ≤ m.start) : select free ms = select free' ms := by
  cases ms with
  | nil => rfl
  | cons m ms =>
      have hm := h m (List.mem_cons_self ..)
      rw [select, select, if_pos hm, if_pos (Nat.le_trans hle hm)]

end Match

namespace Parse

/-- The search for the matches of a clause as it goes from position to position, with no bound on
its steps: it ends past the end of input only. -/
inductive Scans (p : Parse) (c : Nat) : Nat → List Match → Prop
  | done {pos : Nat} : p.input.size < pos → Scans p c pos []
  | hit {pos : Nat} {m : Match} {rest : List Match} : pos ≤ p.input.size →
      p.best? c pos = some m → Scans p c (pos + max 1 m.length) rest → Scans p c pos (m :: rest)
  | miss {pos : Nat} {rest : List Match} : pos ≤ p.input.size →
      p.best? c pos = none → Scans p c (pos + 1) rest → Scans p c pos rest

variable {p : Parse} {c : Nat}

theorem best?_of_past {pos : Nat} (h : p.input.size < pos) : p.best? c pos = none := by
  rw [best?, if_pos h]

theorem le_size_of_best? {pos : Nat} {m : Match} (h : p.best? c pos = some m) :
    pos ≤ p.input.size := by
  by_contra hpos
  rw [best?_of_past (Nat.lt_of_not_le hpos)] at h
  cases h

theorem scan_eq_nil {fuel pos : Nat} (h : ∀ q, pos ≤ q → p.best? c q = none) :
    p.scan c fuel pos = [] := by
  induction fuel generalizing pos with
  | zero => rfl
  | succ fuel ih =>
      rw [scan, h pos (Nat.le_refl _)]
      exact ih fun q hq => h q (by omega)

theorem scans_scan {fuel pos : Nat} (h : p.input.size < pos + fuel) :
    p.Scans c pos (p.scan c fuel pos) := by
  induction fuel generalizing pos with
  | zero => exact .done h
  | succ fuel ih =>
      rcases Nat.lt_or_ge p.input.size pos with hpast | hpos
      · rw [scan_eq_nil fun q hq => best?_of_past (Nat.lt_of_lt_of_le hpast hq)]
        exact .done hpast
      · rw [scan]
        cases hm : p.best? c pos with
        | none => exact .miss hpos hm (ih (by omega))
        | some m => exact .hit hpos hm (Nat.max_comm 1 _ ▸ ih (by omega))

theorem Scans.unique {pos : Nat} {ms ms' : List Match} (h : p.Scans c pos ms)
    (h' : p.Scans c pos ms') : ms = ms' := by
  induction h generalizing ms' with
  | done hpast =>
      cases h' with
      | done => rfl
      | hit hpos | miss hpos => exact absurd hpast (Nat.not_lt.mpr hpos)
  | hit hpos hm _ ih =>
      cases h' with
      | done hpast => exact absurd hpast (Nat.not_lt.mpr hpos)
      | hit _ hm' hrest =>
          cases hm.symm.trans hm'
          rw [ih hrest]
      | miss _ hm' => cases hm.symm.trans hm'
  | miss hpos hm _ ih =>
      cases h' with
      | done hpast => exact absurd hpast (Nat.not_lt.mpr hpos)
      | hit _ hm' => cases hm.symm.trans hm'
      | miss _ _ hrest => exact ih hrest

theorem scans_iff {ms : List Match} : p.Scans c 0 ms ↔ ms = p.clauseMatches c := by
  have hscan : p.Scans c 0 (p.clauseMatches c) := scans_scan (by omega)
  exact ⟨fun h => h.unique hscan, fun h => h ▸ hscan⟩

def candidates (p : Parse) (c pos : Nat) : List Match :=
  (List.range' pos (p.input.size + 1 - pos)).filterMap (p.best? c)

theorem candidates_eq (p : Parse) (c pos : Nat) :
    p.candidates c pos = (p.best? c pos).toList ++ p.candidates c (pos + 1) := by
  rcases Nat.lt_or_ge p.input.size pos with hpast | hpos
  · have hnone : p.input.size + 1 - pos = 0 ∧ p.input.size + 1 - (pos + 1) = 0 := by omega
    simp [candidates, hnone, best?_of_past hpast]
  · have hsome : p.input.size + 1 - pos = (p.input.size + 1 - (pos + 1)) + 1 := by omega
    rw [candidates, candidates, hsome, List.range'_succ, List.filterMap_cons]
    cases p.best? c pos <;> rfl

def Anchored (p : Parse) (c : Nat) : Prop := ∀ pos m, p.best? c pos = some m → m.start = pos

theorem Anchored.le_start (h : p.Anchored c) {pos : Nat} :
    ∀ m ∈ p.candidates c pos, pos ≤ m.start := by
  intro m hm
  obtain ⟨start, hstart, hbest⟩ := List.mem_filterMap.mp hm
  rw [h start m hbest]
  exact (List.mem_range'_1.mp hstart).1

theorem Anchored.select_candidates (h : p.Anchored c) {pos free : Nat} (hle : pos ≤ free) :
    Match.select free (p.candidates c pos) = Match.select free (p.candidates c free) := by
  induction hle using Nat.decreasingInduction with
  | self => rfl
  | of_succ pos hpos ih =>
      rw [← ih, candidates_eq]
      cases hm : p.best? c pos with
      | none => rfl
      | some m =>
          have hbefore : ¬free ≤ m.start := by
            rw [h pos m hm]
            exact Nat.not_le.mpr hpos
          rw [Option.toList_some, List.singleton_append, Match.select, if_neg hbefore]

theorem Anchored.select_eq (h : p.Anchored c) {pos : Nat} {ms : List Match}
    (hscans : p.Scans c pos ms) : ms = Match.select pos (p.candidates c pos) := by
  induction hscans with
  | done hpast =>
      have hnone := Nat.sub_eq_zero_of_le (Nat.succ_le_of_lt hpast)
      rw [candidates, hnone]
      rfl
  | @hit pos m rest _ hm _ ih =>
      have hnext : m.next = pos + max 1 m.length := by rw [Match.next, h pos m hm]
      rw [candidates_eq, hm, Option.toList_some, List.singleton_append, Match.select,
        if_pos (Nat.le_of_eq (h pos m hm).symm), hnext, ih,
        h.select_candidates (show pos + 1 ≤ pos + max 1 m.length by omega)]
  | @miss pos rest _ hm _ ih =>
      rw [candidates_eq, hm, Option.toList_none, List.nil_append, ih]
      exact (Match.select_of_le (Nat.le_succ pos) h.le_start).symm

theorem Anchored.scan_apart (h : p.Anchored c) {pos : Nat} {ms : List Match}
    (hscans : p.Scans c pos ms) :
    (∀ m ∈ ms, pos ≤ m.start) ∧ ms.Pairwise fun m m' => m.next ≤ m'.start := by
  induction hscans with
  | done => simp
  | @hit pos m rest _ hm _ ih =>
      have hstart := h pos m hm
      obtain ⟨hfrom, happart⟩ := ih
      refine ⟨List.forall_mem_cons.mpr ⟨Nat.le_of_eq hstart.symm, fun m' hm' => ?_⟩,
        List.pairwise_cons.mpr ⟨fun m' hm' => ?_, happart⟩⟩
      · have hle := hfrom m' hm'
        omega
      · rw [Match.next, hstart]
        exact hfrom m' hm'
  | miss _ _ _ ih => exact ⟨fun m hm => Nat.le_of_succ_le (ih.1 m hm), ih.2⟩

theorem Anchored.scan_best (h : p.Anchored c) {pos : Nat} {ms : List Match}
    (hscans : p.Scans c pos ms) : ∀ m ∈ ms, p.best? c m.start = some m := by
  induction hscans with
  | done => simp
  | @hit pos m rest _ hm _ ih =>
      refine List.forall_mem_cons.mpr ⟨?_, ih⟩
      rw [h pos m hm, hm]
  | miss _ _ _ ih => exact ih

theorem Anchored.scan_complete (h : p.Anchored c) {pos : Nat} {ms : List Match}
    (hscans : p.Scans c pos ms) {start : Nat} (hpos : pos ≤ start) (hstart : start ≤ p.input.size)
    (hbest : p.best? c start ≠ none) : ∃ m ∈ ms, m.start ≤ start ∧ start < m.next := by
  induction hscans with
  | done hpast => exact absurd hstart (Nat.not_le.mpr (Nat.lt_of_lt_of_le hpast hpos))
  | @hit pos m rest _ hm _ ih =>
      have hanchored := h pos m hm
      rcases Nat.lt_or_ge start m.next with hinside | hpast
      · exact ⟨m, List.mem_cons_self .., hanchored ▸ hpos, hinside⟩
      · rw [Match.next, hanchored] at hpast
        obtain ⟨m', hmem, hm'⟩ := ih hpast
        exact ⟨m', List.mem_cons_of_mem _ hmem, hm'⟩
  | @miss pos rest _ hm _ ih =>
      have hne : pos ≠ start := fun heq => hbest (heq ▸ hm)
      exact ih (Nat.lt_of_le_of_ne hpos hne)

theorem fits_of_best? (hview : p.grammar.SoundView p.input p.table.view) {pos : Nat} {m : Match}
    (hm : p.best? c pos = some m) : m.Fits p.grammar p.input ⟨c, pos⟩ := by
  have hpos := le_size_of_best? hm
  rw [best?, if_neg (Nat.not_lt.mpr hpos)] at hm
  exact Grammar.lookup_sound hview c pos m hpos hm

theorem anchored_of_sound (hview : p.grammar.SoundView p.input p.table.view) : p.Anchored c :=
  fun _ _ hm => (fits_of_best? hview hm).start_eq

theorem sound_ofString {g : Grammar} (hg : g.Lawful) (input : String) (limit : Option Nat) :
    (ofString g input limit).grammar.SoundView (ofString g input limit).input
      (ofString g input limit).table.view := by
  rw [grammar_ofString, input_ofString]
  exact (ofString_valid hg input limit).best

theorem candidates_zero (p : Parse) (c : Nat) :
    p.candidates c 0 = p.positions.filterMap (p.best? c) := by
  rw [candidates, positions, List.range_eq_range', Nat.sub_zero]

theorem nonOverlapping_of_mem {source : Source} {g : Grammar} (h : source.compile = .ok g)
    (input : String) (limit : Option Nat) {rule : Rule} (hrule : rule ∈ g.rules) :
    (ofString g input limit).nonOverlapping rule.name =
      .ok ((ofString g input limit).clauseMatches rule.clause) := by
  rw [nonOverlapping, grammar_ofString, Grammar.ruleOf_of_mem h hrule]
  rfl

theorem allMatches_of_mem {source : Source} {g : Grammar} (h : source.compile = .ok g)
    (input : String) (limit : Option Nat) {rule : Rule} (hrule : rule ∈ g.rules) :
    (ofString g input limit).allMatches rule.name =
      .ok ((ofString g input limit).candidates rule.clause 0) := by
  rw [allMatches, grammar_ofString, Grammar.ruleOf_of_mem h hrule, candidates_zero]
  rfl

theorem non_overlapping_matches_are_greedy {source : Source} {g : Grammar}
    (h : source.compile = .ok g) (input : String) (limit : Option Nat) {rule : Rule}
    (hrule : rule ∈ g.rules) :
    let p := ofString g input limit
    ∃ found all, p.nonOverlapping rule.name = .ok found ∧ p.allMatches rule.name = .ok all ∧
      (∀ ms, p.Scans rule.clause 0 ms ↔ ms = found) ∧
      found = Match.select 0 all ∧
      (∀ m ∈ found, p.best? rule.clause m.start = some m) ∧
      (found.Pairwise fun m m' => m.start + max 1 m.length ≤ m'.start) ∧
      ∀ pos ≤ p.input.size, p.best? rule.clause pos ≠ none →
        ∃ m ∈ found, m.start = pos ∨ m.start < pos ∧ pos < m.start + max 1 m.length := by
  intro p
  have hanchored : p.Anchored rule.clause :=
    anchored_of_sound (sound_ofString (Source.compile_lawful h) input limit)
  have hscans : p.Scans rule.clause 0 (p.clauseMatches rule.clause) := scans_iff.mpr rfl
  refine ⟨_, _, nonOverlapping_of_mem h input limit hrule, allMatches_of_mem h input limit hrule,
    fun ms => scans_iff, hanchored.select_eq hscans, hanchored.scan_best hscans,
    (hanchored.scan_apart hscans).2, fun pos hpos hbest => ?_⟩
  obtain ⟨m, hm, hle, hlt⟩ := hanchored.scan_complete hscans (Nat.zero_le pos) hpos hbest
  exact ⟨m, hm, (Nat.eq_or_lt_of_le hle).imp_right fun hstart => ⟨hstart, hlt⟩⟩

def gaps : Source where
  definitions := [.plain "Gap" (.zeroOrMore (.char ' '))]
  lexical := none

theorem gaps_are_selected :
    ∃ g found, gaps.compile = .ok g ∧
      (ofString g "a  b" (some 8)).nonOverlapping "Gap" = .ok found ∧
      found.map (fun m => (m.start, m.length)) = [(0, 0), (1, 2), (3, 0), (4, 0)] ∧
      ∀ pos ≤ 4, ∃ m ∈ found, m.start = pos ∨ m.start < pos ∧ pos < m.start + max 1 m.length := by
  have hrun : (gaps.compile.toOption.any fun g =>
      let p := ofString g "a  b" (some 8)
      p.input.size = 4 && g.rules.map (·.name) = ["Gap"] &&
        ((p.nonOverlapping "Gap").toOption.map fun found =>
          found.map fun m => (m.start, m.length)) = some [(0, 0), (1, 2), (3, 0), (4, 0)] &&
        (List.range 5).all fun pos => g.rules.all fun rule => (p.best? rule.clause pos).isSome) =
      true := by
    decide +kernel
  obtain ⟨g, hg, hrun⟩ := Source.exists_of_compile_any hrun
  simp only [Bool.and_eq_true, decide_eq_true_eq, List.all_eq_true, List.mem_range] at hrun
  obtain ⟨⟨⟨hsize, hnames⟩, hlengths⟩, hbest⟩ := hrun
  obtain ⟨rule, hrule, hname⟩ :=
    List.mem_map.mp (hnames ▸ List.mem_singleton_self "Gap" : "Gap" ∈ g.rules.map (·.name))
  obtain ⟨found, _, hfound, _, _, _, _, _, hcomplete⟩ :=
    non_overlapping_matches_are_greedy hg "a  b" (some 8) hrule
  rw [hname] at hfound
  rw [hfound] at hlengths
  refine ⟨g, found, hg, hfound, Option.some.inj hlengths, fun pos hpos => ?_⟩
  refine hcomplete pos (hsize ▸ hpos) fun hnone => ?_
  simpa [hnone] using hbest pos (Nat.lt_succ_of_le hpos) rule hrule

end Parse

end BottomUpPeg
