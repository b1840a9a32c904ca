import BottomUpPeg.Proofs.Selection

namespace BottomUpPeg

namespace Span

def Contains (s : Span) (pos : Nat) : Prop := s.start ≤ pos ∧ pos < s.stop

structure Tile (marked : Nat → Bool) (low high : Nat) (spans : List Span) : Prop where
  within : ∀ s ∈ spans, low ≤ s.start ∧ s.start < s.stop ∧ s.stop ≤ high
  apart : spans.Pairwise fun s t => s.stop < t.start
  contains : ∀ pos, low ≤ pos → pos < high → ((∃ s ∈ spans, s.Contains pos) ↔ marked pos = true)

namespace Tile

variable {marked : Nat → Bool} {low mid high : Nat} {spans : List Span}

theorem nil (marked : Nat → Bool) (low : Nat) : Tile marked low low [] where
  within := by simp
  apart := .nil
  contains pos hlow hhigh := absurd hhigh (Nat.not_lt.mpr hlow)

theorem single (hlt : low < high) (hmarked : ∀ pos, low ≤ pos → pos < high → marked pos = true) :
    Tile marked low high [⟨low, high⟩] where
  within := by simpa using hlt
  apart := List.pairwise_singleton ..
  contains pos hlow hhigh :=
    iff_of_true ⟨_, List.mem_singleton_self _, hlow, hhigh⟩ (hmarked pos hlow hhigh)

theorem skip (h : Tile marked (low + 1) high spans) (hlow : marked low = false) :
    Tile marked low high spans where
  within s hs := ⟨Nat.le_of_succ_le (h.within s hs).1, (h.within s hs).2⟩
  apart := h.apart
  contains pos hpos hhigh := by
    rcases Nat.eq_or_lt_of_le hpos with rfl | hpos
    · refine iff_of_false ?_ (by simp [hlow])
      rintro ⟨s, hs, hstart, _⟩
      exact absurd (h.within s hs).1 (Nat.not_le.mpr (Nat.lt_succ_of_le hstart))
    · exact h.contains pos hpos hhigh

theorem cons (h : Tile marked (mid + 1) high spans) (hmid : marked mid = false) (hlt : low < mid)
    (hle : mid ≤ high) (hmarked : ∀ pos, low ≤ pos → pos < mid → marked pos = true) :
    Tile marked low high (⟨low, mid⟩ :: spans) where
  within := List.forall_mem_cons.mpr ⟨⟨Nat.le_refl _, hlt, hle⟩, fun s hs => by
    obtain ⟨hstart, hrest⟩ := h.within s hs
    exact ⟨by omega, hrest⟩⟩
  apart := List.pairwise_cons.mpr ⟨fun s hs => (h.within s hs).1, h.apart⟩
  contains pos hpos hhigh := by
    rcases Nat.lt_or_ge pos mid with hbefore | hafter
    · exact iff_of_true ⟨_, List.mem_cons_self .., hpos, hbefore⟩ (hmarked pos hpos hbefore)
    · rw [← (h.skip hmid).contains pos hafter hhigh]
      constructor
      · rintro ⟨s, hs, hcontains⟩
        rcases List.mem_cons.mp hs with rfl | hs
        · exact absurd hcontains.2 (Nat.not_lt.mpr hafter)
        · exact ⟨s, hs, hcontains⟩
      · rintro ⟨s, hs, hcontains⟩
        exact ⟨s, List.mem_cons_of_mem _ hs, hcontains⟩

end Tile

end Span

namespace Parse

theorem tile_runs (marked : Nat → Bool) (count pos : Nat) :
    Span.Tile marked pos (pos + count) (runs marked none (List.range' pos count) (pos + count)) ∧
      ∀ low < pos, (∀ q, low ≤ q → q < pos → marked q = true) →
        Span.Tile marked low (pos + count)
          (runs marked (some low) (List.range' pos count) (pos + count)) := by
  -- What is asked of an open run, that all its positions are marked, is what makes it maximal.
  induction count generalizing pos with
  | zero => exact ⟨.nil marked pos, fun low hlow hmarked => .single hlow hmarked⟩
  | succ count ih =>
      obtain ⟨hclosed, hopen⟩ := ih (pos + 1)
      have hend : pos + (count + 1) = pos + 1 + count := by omega
      rw [hend, List.range'_succ]
      cases hpos : marked pos with
      | true =>
          have hgrown : ∀ low ≤ pos, (∀ q, low ≤ q → q < pos → marked q = true) →
              Span.Tile marked low (pos + 1 + count)
                (runs marked (some low) (List.range' (pos + 1) count) (pos + 1 + count)) := by
            intro low hlow hmarked
            refine hopen low (Nat.lt_succ_of_le hlow) fun q hq hlt => ?_
            rcases Nat.eq_or_lt_of_le (Nat.le_of_lt_succ hlt) with rfl | hlt
            · exact hpos
            · exact hmarked q hq hlt
          simp only [runs, hpos, if_true]
          exact ⟨hgrown pos (Nat.le_refl pos) fun q hq hlt => absurd hlt (Nat.not_lt.mpr hq),
            fun low hlow => hgrown low (Nat.le_of_lt hlow)⟩
      | false =>
          simp only [runs, hpos, Bool.false_eq_true, if_false]
          exact ⟨hclosed.skip hpos, fun low hlow => hclosed.cons hpos hlow (by omega)⟩

theorem runs_congr {marked marked' : Nat → Bool} {positions : List Nat}
    (h : ∀ pos ∈ positions, marked pos = marked' pos) (start : Option Nat) (stop : Nat) :
    runs marked start positions stop = runs marked' start positions stop := by
  induction positions generalizing start with
  | nil => cases start <;> rfl
  | cons pos positions ih =>
      obtain ⟨hpos, hrest⟩ := List.forall_mem_cons.mp h
      cases start <;> simp only [runs, hpos, ih hrest]

inductive Halt where
  | outOfBounds
  | query (e : QueryError)
  deriving DecidableEq, Repr

def fill (marks : List Bool) (m : Match) : Except Halt (List Bool) :=
  if m.start ≤ m.stop ∧ m.stop ≤ marks.length then
    .ok (marks.mapIdx fun pos marked => marked || covers m pos)
  else .error .outOfBounds

def fillRule (p : Parse) (marks : List Bool) (name : String) : Except Halt (List Bool) :=
  (p.nonOverlapping name).mapError .query >>= fun found => found.foldlM fill marks

/-- A match that reaches past the end of input does not fit in the bitmap. -/
def uncoveredByBitmap (p : Parse) (rules : List String) : Except Halt (List Span) :=
  (rules.foldlM p.fillRule (List.replicate p.input.size false)).map fun marks =>
    runs (fun pos => !marks.getD pos false) none (List.range marks.length) marks.length

def bitmap (size : Nat) (marked : Nat → Bool) : List Bool := (List.range size).map marked

section Bitmap

variable {size : Nat} {marked : Nat → Bool}

theorem fill_bitmap {m : Match} (hm : m.stop ≤ size) :
    fill (bitmap size marked) m = .ok (bitmap size fun pos => marked pos || covers m pos) := by
  have hfits : m.start ≤ m.stop ∧ m.stop ≤ (bitmap size marked).length := by
    rw [bitmap, List.length_map, List.length_range]
    exact ⟨Nat.le_add_right _ _, hm⟩
  rw [fill, if_pos hfits]
  congr 1
  apply List.ext_getElem <;> simp [bitmap]

theorem foldlM_fill_bitmap {found : List Match} (hfound : ∀ m ∈ found, m.stop ≤ size) :
    found.foldlM fill (bitmap size marked) =
      .ok (bitmap size fun pos => marked pos || found.any (covers · pos)) := by
  induction found generalizing marked with
  | nil => simp [pure, Except.pure]
  | cons m found ih =>
      obtain ⟨hm, hfound⟩ := List.forall_mem_cons.mp hfound
      rw [List.foldlM_cons, fill_bitmap hm]
      simp only [bind, Except.bind, ih hfound, List.any_cons, Bool.or_assoc]

theorem foldlM_fillRule_bitmap {p : Parse} {rules : List String}
    (hrules : ∀ name found, p.nonOverlapping name = .ok found → ∀ m ∈ found, m.stop ≤ size) :
    rules.foldlM p.fillRule (bitmap size marked) =
      ((rules.mapM p.nonOverlapping).mapError .query).map fun found =>
        bitmap size fun pos => marked pos || found.flatten.any (covers · pos) := by
  induction rules generalizing marked with
  | nil => simp [pure, Except.pure, Except.mapError, Except.map]
  | cons name rules ih =>
      rw [List.foldlM_cons, List.mapM_cons, fillRule]
      cases hname : p.nonOverlapping name with
      | error e => rfl
      | ok found =>
          simp only [Except.mapError, bind, Except.bind,
            foldlM_fill_bitmap (hrules name found hname), ih]
          cases rules.mapM p.nonOverlapping with
          | error e => rfl
          | ok rest =>
              simp [pure, Except.pure, Except.map, Bool.or_assoc]

end Bitmap

theorem uncoveredByBitmap_eq {p : Parse} (rules : List String)
    (hrules : ∀ name found, p.nonOverlapping name = .ok found →
      ∀ m ∈ found, m.stop ≤ p.input.size) :
    p.uncoveredByBitmap rules = (p.uncovered rules).mapError .query := by
  have hempty : List.replicate p.input.size false = bitmap p.input.size fun _ => false := by
    simp [bitmap, List.map_const']
  rw [uncoveredByBitmap, hempty, foldlM_fillRule_bitmap hrules, uncovered]
  cases rules.mapM p.nonOverlapping with
  | error e => rfl
  | ok found =>
      simp only [Except.mapError, Except.map, bitmap, List.length_map, List.length_range,
        Bool.false_or]
      congr 1
      refine runs_congr (fun pos hpos => ?_) none _
      simp [List.mem_range.mp hpos]

def Covered (p : Parse) (rules : List String) (pos : Nat) : Prop :=
  ∃ name ∈ rules, ∃ found, p.nonOverlapping name = .ok found ∧
    ∃ m ∈ found, m.start ≤ pos ∧ pos < m.stop

theorem Covered.mono {p : Parse} {rules rules' : List String} {pos : Nat}
    (hsub : ∀ name ∈ rules, name ∈ rules') (h : p.Covered rules pos) : p.Covered rules' pos := by
  obtain ⟨name, hname, h⟩ := h
  exact ⟨name, hsub name hname, h⟩

theorem any_covers_iff {p : Parse} {rules : List String} {found : List (List Match)}
    (h : rules.mapM p.nonOverlapping = .ok found) (pos : Nat) :
    found.flatten.any (covers · pos) = true ↔ p.Covered rules pos := by
  have hall := mapM_ok_forall₂ h
  simp only [List.any_eq_true, List.mem_flatten, covers, Bool.and_eq_true, decide_eq_true_eq]
  constructor
  · rintro ⟨m, ⟨ms, hms, hm⟩, hcovers⟩
    obtain ⟨name, hname, hfound⟩ := forall₂_mem_right hall hms
    exact ⟨name, hname, ms, hfound, m, hm, hcovers⟩
  · rintro ⟨name, hname, ms, hfound, m, hm, hcovers⟩
    obtain ⟨ms', hms', hfound'⟩ := forall₂_mem_right hall.flip hname
    cases hfound.symm.trans hfound'
    exact ⟨m, ⟨ms, hms', hm⟩, hcovers⟩

theorem tile_uncovered {p : Parse} {rules : List String} {spans : List Span}
    (h : p.uncovered rules = .ok spans) : ∃ marked : Nat → Bool,
      Span.Tile marked 0 p.input.size spans ∧ ∀ pos, marked pos = true ↔ ¬p.Covered rules pos := by
  rw [uncovered] at h
  cases hfound : rules.mapM p.nonOverlapping with
  | error e => rw [hfound] at h; cases h
  | ok found =>
      rw [hfound] at h
      cases h
      refine ⟨fun pos => !found.flatten.any (covers · pos), ?_, fun pos => ?_⟩
      · have htile := (tile_runs (fun pos => !found.flatten.any (covers · pos)) p.input.size 0).1
        rwa [Nat.zero_add, ← List.range_eq_range'] at htile
      · rw [← any_covers_iff hfound, Bool.not_eq_true', Bool.not_eq_true]

theorem uncovered_congr {p : Parse} {rules rules' : List String}
    (hsame : ∀ name, name ∈ rules ↔ name ∈ rules')
    (hknown : ∀ name ∈ rules, ∃ found, p.nonOverlapping name = .ok found) :
    p.uncovered rules = p.uncovered rules' := by
  have hok : ∀ names : List String, (∀ name ∈ names, name ∈ rules) →
      ∃ found, names.mapM p.nonOverlapping = .ok found := by
    intro names hsub
    cases hfound : names.mapM p.nonOverlapping with
    | ok found => exact ⟨found, rfl⟩
    | error e =>
        obtain ⟨name, hname, herror⟩ := mapM_error_mem hfound
        obtain ⟨found, hok⟩ := hknown name (hsub name hname)
        cases herror.symm.trans hok
  obtain ⟨found, hfound⟩ := hok rules fun _ => id
  obtain ⟨found', hfound'⟩ := hok rules' fun name => (hsame name).mpr
  have hmarked : (fun pos => !found.flatten.any (covers · pos)) =
      fun pos => !found'.flatten.any (covers · pos) := by
    funext pos
    rw [Bool.not_inj_iff, Bool.eq_iff_iff, any_covers_iff hfound, any_covers_iff hfound']
    exact ⟨Covered.mono fun name => (hsame name).mp, Covered.mono fun name => (hsame name).mpr⟩
  rw [uncovered, uncovered, hfound, hfound']
  simp only [Except.map, hmarked]

section Compiled

variable {source : Source} {g : Grammar}

theorem nonOverlapping_cases (h : source.compile = .ok g) (input : String) (limit : Option Nat)
    (name : String) :
    (∃ rule ∈ g.rules, rule.name = name ∧ (ofString g input limit).nonOverlapping name =
      .ok ((ofString g input limit).clauseMatches rule.clause)) ∨
    (∀ rule ∈ g.rules, rule.name ≠ name) ∧
      (ofString g input limit).nonOverlapping name = .error (.unknownRule name) := by
  by_cases hname : ∃ rule ∈ g.rules, rule.name = name
  · obtain ⟨rule, hrule, rfl⟩ := hname
    exact .inl ⟨rule, hrule, rfl, nonOverlapping_of_mem h input limit hrule⟩
  · have hunknown : ∀ rule ∈ g.rules, rule.name ≠ name := by simpa using hname
    refine .inr ⟨hunknown, ?_⟩
    rw [nonOverlapping, grammar_ofString, Grammar.ruleOf_of_unknown hunknown]
    rfl

theorem nonOverlapping_ok_iff (h : source.compile = .ok g) (input : String) (limit : Option Nat)
    (name : String) :
    (∃ found, (ofString g input limit).nonOverlapping name = .ok found) ↔
      ∃ rule ∈ g.rules, rule.name = name := by
  rcases nonOverlapping_cases h input limit name with
    ⟨rule, hrule, hname, hok⟩ | ⟨hunknown, herror⟩
  · exact iff_of_true ⟨_, hok⟩ ⟨rule, hrule, hname⟩
  · refine iff_of_false ?_ (by simpa using hunknown)
    rintro ⟨found, hok⟩
    cases herror.symm.trans hok

theorem stop_le_of_nonOverlapping (h : source.compile = .ok g) (input : String)
    (limit : Option Nat) {name : String} {found : List Match}
    (hfound : (ofString g input limit).nonOverlapping name = .ok found) :
    ∀ m ∈ found, m.stop ≤ (ofString g input limit).input.size := by
  intro m hm
  rcases nonOverlapping_cases h input limit name with ⟨rule, hrule, _, hok⟩ | ⟨_, herror⟩
  · cases hfound.symm.trans hok
    have hview := sound_ofString (Source.compile_lawful h) input limit
    have hbest := (anchored_of_sound hview).scan_best (scans_iff.mpr rfl) m hm
    exact (fits_of_best? hview hbest).wellFormed.stop_le
  · cases hfound.symm.trans herror

theorem uncovered_error_iff (h : source.compile = .ok g) (input : String) (limit : Option Nat)
    (rules : List String) (e : QueryError) :
    (ofString g input limit).uncovered rules = .error e ↔
      ∃ before name after, rules = before ++ name :: after ∧
        (∀ known ∈ before, ∃ rule ∈ g.rules, rule.name = known) ∧
        (∀ rule ∈ g.rules, rule.name ≠ name) ∧ e = .unknownRule name := by
  have hfails : (ofString g input limit).uncovered rules = .error e ↔
      rules.mapM (ofString g input limit).nonOverlapping = .error e := by
    rw [uncovered]
    cases rules.mapM (ofString g input limit).nonOverlapping <;> simp [Except.map]
  have hunknown : ∀ name, (ofString g input limit).nonOverlapping name = .error e ↔
      (∀ rule ∈ g.rules, rule.name ≠ name) ∧ e = .unknownRule name := by
    intro name
    rcases nonOverlapping_cases h input limit name with ⟨rule, hrule, hname, hok⟩ | ⟨hnone, herror⟩
    · refine iff_of_false (fun herror => ?_) fun hnone => hnone.1 rule hrule hname
      cases hok.symm.trans herror
    · rw [herror, Except.error.injEq, eq_comm]
      exact ⟨fun heq => ⟨hnone, heq⟩, And.right⟩
  simp only [hfails, mapM_error_iff, hunknown, nonOverlapping_ok_iff h]

/-- The bitmap is large enough for every match, so that the query fails only for a name that is not
known. -/
theorem uncovered_spans_are_exact (h : source.compile = .ok g) (input : String)
    (limit : Option Nat) (rules : List String) :
    let p := ofString g input limit
    p.uncoveredByBitmap rules = (p.uncovered rules).mapError .query ∧
      (∀ e, p.uncovered rules = .error e ↔ ∃ before name after, rules = before ++ name :: after ∧
        (∀ known ∈ before, ∃ rule ∈ g.rules, rule.name = known) ∧
        (∀ rule ∈ g.rules, rule.name ≠ name) ∧ e = .unknownRule name) ∧
      ((∀ name ∈ rules, ∃ rule ∈ g.rules, rule.name = name) →
        (∃ spans, p.uncovered rules = .ok spans ∧
          (∀ s ∈ spans, s.start < s.stop ∧ s.stop ≤ p.input.size) ∧
          (spans.Pairwise fun s t => s.stop < t.start) ∧
          ∀ pos < p.input.size,
            (∃ s ∈ spans, s.start ≤ pos ∧ pos < s.stop) ↔ ¬p.Covered rules pos) ∧
        ∀ rules' : List String, (∀ name, name ∈ rules ↔ name ∈ rules') →
          p.uncovered rules = p.uncovered rules') := by
  intro p
  refine ⟨uncoveredByBitmap_eq rules fun _ _ => stop_le_of_nonOverlapping h input limit,
    uncovered_error_iff h input limit rules, fun hknown => ⟨?_, fun rules' hsame => ?_⟩⟩
  · cases hspans : p.uncovered rules with
    | error e =>
        obtain ⟨before, name, after, rfl, _, hnone, _⟩ :=
          (uncovered_error_iff h input limit rules e).mp hspans
        obtain ⟨rule, hrule, hname⟩ := hknown name (by simp)
        exact absurd hname (hnone rule hrule)
    | ok spans =>
        obtain ⟨marked, htile, hmarked⟩ := tile_uncovered hspans
        refine ⟨spans, rfl, fun s hs => (htile.within s hs).2, htile.apart, fun pos hpos => ?_⟩
        rw [← hmarked]
        exact htile.contains pos (Nat.zero_le pos) hpos
  · exact uncovered_congr hsame fun name hname =>
      (nonOverlapping_ok_iff h input limit name).mpr (hknown name hname)

theorem words_leave_a_gap :
    ∃ g, Sample.wordList.compile = .ok g ∧
      (ofString g "ab c" (some 8)).uncovered ["Word"] = .ok [⟨2, 3⟩] ∧
      (∀ pos < 4, ¬(ofString g "ab c" (some 8)).Covered ["Word"] pos ↔ pos = 2) ∧
      (ofString g "ab c" (some 8)).uncovered ["Word", "Word"] = .ok [⟨2, 3⟩] ∧
      (ofString g "ab c" (some 8)).uncovered ["Word", "Gap", "Other"] =
        .error (.unknownRule "Gap") := by
  have hrun : (Sample.wordList.compile.toOption.any fun g =>
      let p := ofString g "ab c" (some 8)
      p.input.size = 4 && g.rules.map (·.name) = ["Words", "Word", "Lexeme"] &&
        (p.uncovered ["Word"]).toOption.any (· = [⟨2, 3⟩])) = true := by
    decide +kernel
  obtain ⟨g, hg, hrun⟩ := Source.exists_of_compile_any hrun
  simp only [Bool.and_eq_true, decide_eq_true_eq] at hrun
  obtain ⟨⟨hsize, hnames⟩, hgap⟩ := hrun
  have hrules : ∀ name, (∃ rule ∈ g.rules, rule.name = name) ↔
      name ∈ ["Words", "Word", "Lexeme"] := fun name => by rw [← hnames, List.mem_map]
  obtain ⟨_, _, hknown⟩ := uncovered_spans_are_exact hg "ab c" (some 8) ["Word"]
  obtain ⟨⟨spans, hspans, _, _, hcovered⟩, hsame⟩ := hknown (by simp [hrules])
  rw [hspans] at hgap
  obtain rfl : spans = [⟨2, 3⟩] := of_decide_eq_true hgap
  refine ⟨g, hg, hspans, fun pos hpos => ?_,
    (hsame ["Word", "Word"] (by simp)).symm.trans hspans, ?_⟩
  · rw [← hcovered pos (hsize ▸ hpos)]
    simp only [List.mem_singleton, exists_eq_left]
    omega
  · obtain ⟨_, herror, _⟩ := uncovered_spans_are_exact hg "ab c" (some 8) ["Word", "Gap", "Other"]
    refine (herror _).mpr ⟨["Word"], "Gap", ["Other"], rfl, by simp [hrules], ?_, rfl⟩
    simpa using (hrules "Gap").not.mpr (by decide)

end Compiled

end Parse

end BottomUpPeg
