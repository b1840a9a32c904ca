import BottomUpPeg.Definition.Levels
import Mathlib.Data.List.Pairwise
import Mathlib.Data.List.Perm.Basic
import Mathlib.Data.Set.List

namespace BottomUpPeg

namespace Level

variable {name : String} {levels : List Level}

def definition (name : String) (l : Level) : Definition := .leveled name l.rank l.body

theorem definition_injective (name : String) : Function.Injective (definition name) := by
  intro l m h
  cases l
  cases m
  simp_all [definition, Definition.leveled]

theorem insert_perm (l : Level) (levels : List Level) : (insert l levels).Perm (l :: levels) := by
  induction levels with
  | nil => exact .refl _
  | cons m levels ih =>
      rw [insert]
      split
      · exact .refl _
      · exact (ih.cons m).trans (.swap l m levels)

theorem sort_perm (levels : List Level) : (sort levels).Perm levels := by
  induction levels with
  | nil => exact .refl _
  | cons l levels ih => exact (insert_perm l _).trans (ih.cons l)

theorem insert_pairwise (l : Level) (h : levels.Pairwise (·.rank ≤ ·.rank)) :
    (insert l levels).Pairwise (·.rank ≤ ·.rank) := by
  induction levels with
  | nil => exact List.pairwise_singleton ..
  | cons m levels ih =>
      obtain ⟨hm, hlevels⟩ := List.pairwise_cons.mp h
      rw [insert]
      split
      · rename_i hle
        refine List.pairwise_cons.mpr ⟨fun n hn => ?_, h⟩
        rcases List.mem_cons.mp hn with rfl | hn
        · exact hle
        · exact hle.trans (hm n hn)
      · rename_i hlt
        refine List.pairwise_cons.mpr ⟨fun n hn => ?_, ih hlevels⟩
        rcases List.mem_cons.mp ((insert_perm l levels).mem_iff.mp hn) with rfl | hn
        · exact Int.le_of_lt (Int.not_le.mp hlt)
        · exact hm n hn

theorem sort_pairwise (levels : List Level) : (sort levels).Pairwise (·.rank ≤ ·.rank) := by
  induction levels with
  | nil => exact .nil
  | cons l levels ih => exact insert_pairwise l ih

theorem ascending_iff : ascending levels = true ↔ levels.Pairwise (·.rank < ·.rank) := by
  have : IsTrans Level (·.rank < ·.rank) := ⟨fun _ _ _ => Int.lt_trans⟩
  refine Iff.trans ?_ List.isChain_iff_pairwise
  induction levels with
  | nil => simp [ascending]
  | cons l levels ih =>
      cases levels with
      | nil => simp [ascending]
      | cons m levels =>
          rw [ascending, Bool.and_eq_true, decide_eq_true_eq, List.isChain_cons_cons]
          exact and_congr_right fun _ => ih

theorem eq_of_rank_eq (h : levels.Pairwise (·.rank < ·.rank)) {l m : Level} (hl : l ∈ levels)
    (hm : m ∈ levels) (heq : l.rank = m.rank) : l = m := by
  by_contra hne
  have hdistinct : levels.Pairwise (·.rank ≠ ·.rank) := h.imp fun hlt => Int.ne_of_lt hlt
  have : Std.Symm fun l m : Level => l.rank ≠ m.rank := ⟨fun _ _ hne => hne.symm⟩
  exact hdistinct.forall hl hm hne heq

theorem sort_eq_of_perm {levels' : List Level} (h : levels.Pairwise (·.rank < ·.rank))
    (hperm : levels'.Perm levels) : sort levels' = levels := by
  have hsorted : (sort levels').Perm levels := (sort_perm levels').trans hperm
  refine hsorted.eq_of_pairwise (fun l m hl hm hle hge => ?_) (sort_pairwise levels')
    (h.imp Int.le_of_lt)
  exact eq_of_rank_eq h (hsorted.mem_iff.mp hl) hm (Int.le_antisymm hle hge)

end Level

namespace Definition

variable {name : String} {ds ds' : List Definition} {levels : List Level}

structure Stacked (name : String) (ds : List Definition) (levels : List Level) : Prop where
  ascending : levels.Pairwise (·.rank < ·.rank)
  perm : ds.Perm (levels.map (Level.definition name))

theorem Stacked.of_perm (h : Stacked name ds levels) (hperm : ds.Perm ds') :
    Stacked name ds' levels :=
  ⟨h.ascending, hperm.symm.trans h.perm⟩

theorem mapM_map_definition (name : String) (levels : List Level) :
    (levels.map (Level.definition name)).mapM Level.ofDefinition = some levels := by
  induction levels with
  | nil => rfl
  | cons l levels ih => rw [List.map_cons, List.mapM_cons, ih]; rfl

theorem eq_map_of_mapM (hname : ∀ d ∈ ds, d.name = name)
    (h : ds.mapM Level.ofDefinition = some levels) : ds = levels.map (Level.definition name) := by
  induction ds generalizing levels with
  | nil =>
      cases h
      rfl
  | cons d ds ih =>
      obtain ⟨hd, hds⟩ := List.forall_mem_cons.mp hname
      simp only [List.mapM_cons, Option.bind_eq_bind, Option.bind_eq_some_iff, Option.pure_def,
        Option.some.injEq] at h
      obtain ⟨l, hl, rest, hrest, rfl⟩ := h
      obtain ⟨rank, hrank, rfl⟩ := Option.map_eq_some_iff.mp hl
      have hfirst : d = Level.definition name ⟨rank, d.body⟩ := by
        cases d
        simp_all [Level.definition, leveled]
      rw [List.map_cons, ← hfirst, ← ih hds hrest]

theorem expandName_eq (hlength : ds.length ≠ 1) :
    expandName name ds = match ds.mapM Level.ofDefinition with
      | none => .error (.duplicateRule name)
      | some levels =>
          if Level.ascending (Level.sort levels) then .ok (Level.expand name (Level.sort levels))
          else .error (.duplicateRule name) := by
  unfold expandName
  split
  · exact absurd rfl hlength
  · rfl

theorem expandName_of_stacked (hlength : ds.length ≠ 1) (h : Stacked name ds levels) :
    expandName name ds = .ok (Level.expand name levels) := by
  have hleveled : ∀ d ∈ ds, d ∈ Set.range (Level.definition name) := by
    intro d hd
    obtain ⟨l, _, heq⟩ := List.mem_map.mp (h.perm.mem_iff.mp hd)
    exact ⟨l, heq⟩
  have hmap : ds ∈ Set.range (List.map (Level.definition name)) := by
    rw [Set.range_list_map]
    exact hleveled
  obtain ⟨declared, rfl⟩ := hmap
  have hperm := (List.map_perm_map_iff (Level.definition_injective name)).mp h.perm
  rw [expandName_eq hlength, mapM_map_definition]
  simp only [Level.sort_eq_of_perm h.ascending hperm, Level.ascending_iff.mpr h.ascending, if_true]

theorem expandName_of_not_stacked (hlength : ds.length ≠ 1) (hname : ∀ d ∈ ds, d.name = name)
    (h : ∀ levels, ¬Stacked name ds levels) :
    expandName name ds = .error (.duplicateRule name) := by
  rw [expandName_eq hlength]
  split
  · rfl
  · rename_i declared hdeclared
    obtain rfl := eq_map_of_mapM hname hdeclared
    rw [if_neg]
    intro hascending
    refine h (Level.sort declared) ⟨Level.ascending_iff.mp hascending, ?_⟩
    exact (Level.sort_perm declared).symm.map _

theorem expandName_perm (h : ds.Perm ds') (hname : ∀ d ∈ ds, d.name = name) :
    expandName name ds = expandName name ds' := by
  by_cases hlength : ds.length = 1
  · obtain ⟨d, rfl⟩ := List.length_eq_one_iff.mp hlength
    rw [List.singleton_perm.mp h]
  · have hlength' : ds'.length ≠ 1 := h.length_eq ▸ hlength
    by_cases hstacked : ∃ levels, Stacked name ds levels
    · obtain ⟨levels, hlevels⟩ := hstacked
      rw [expandName_of_stacked hlength hlevels,
        expandName_of_stacked hlength' (hlevels.of_perm h)]
    · rw [not_exists] at hstacked
      rw [expandName_of_not_stacked hlength hname hstacked,
        expandName_of_not_stacked hlength' (fun d hd => hname d (h.mem_iff.mpr hd))
          fun levels hlevels => hstacked levels (hlevels.of_perm h.symm)]

theorem eraseDups_filter {α : Type} [BEq α] [LawfulBEq α] (p : α → Bool) (xs : List α) :
    (xs.filter p).eraseDups = xs.eraseDups.filter p := by
  induction hn : xs.length using Nat.strong_induction_on generalizing xs with
  | _ n ih =>
      cases xs with
      | nil => rfl
      | cons x xs =>
          have hshorter : (xs.filter fun y => !y == x).length < n := by
            rw [← hn, List.length_cons]
            exact Nat.lt_succ_of_le (List.length_filter_le ..)
          have hrest := ih _ hshorter (xs.filter fun y => !y == x) rfl
          rw [List.eraseDups_cons, List.filter_cons]
          split
          · rename_i hp
            rw [List.eraseDups_cons, List.filter_cons_of_pos hp, ← hrest, List.filter_comm]
          · -- What `p` keeps of the rest does not hold the element that `p` drops.
            rename_i hp
            rw [List.filter_cons_of_neg hp, ← hrest, List.filter_filter]
            congr 1
            refine List.filter_congr fun y _ => ?_
            by_cases heq : y = x
            · simp_all
            · simp [heq]

theorem names_eq (ds : List Definition) : names ds = (ds.map (·.name)).eraseDups := by
  induction ds with
  | nil => rfl
  | cons d ds ih =>
      rw [names, ih, List.map_cons, List.eraseDups_cons, eraseDups_filter]
      refine congrArg (d.name :: ·) (List.filter_congr fun other _ => ?_)
      rw [Bool.eq_iff_iff]
      simp

theorem levels_may_be_interleaved (h : ds.Perm ds')
    (hnames : (ds.map (·.name)).eraseDups = (ds'.map (·.name)).eraseDups) :
    expandLevels ds = expandLevels ds' := by
  rw [← names_eq, ← names_eq] at hnames
  have hsame : ∀ name, expandName name (ds.filter (·.name = name)) =
      expandName name (ds'.filter (·.name = name)) := fun name =>
    expandName_perm (h.filter _) fun d hd => by simpa using (List.mem_filter.mp hd).2
  simp only [expandLevels, hnames, hsame]

/-- Operators of two kinds, declared kind by kind. -/
def operators : List Definition := [
  .leveled "E" 2 (.char 'a'),
  .leveled "E" 0 (.seq [.reference "E", .char '+', .reference "T"]),
  .leveled "E" (-1) (.seq [.reference "E", .char '=', .reference "E"]),
  .leveled "T" 1 (.char 'b'),
  .leveled "T" 0 (.seq [.reference "T", .char '*', .reference "T"])]

def tiers : List Definition := [
  .leveled "E" (-1) (.seq [.reference "E", .char '=', .reference "E"]),
  .leveled "T" 0 (.seq [.reference "T", .char '*', .reference "T"]),
  .leveled "E" 0 (.seq [.reference "E", .char '+', .reference "T"]),
  .leveled "T" 1 (.char 'b'),
  .leveled "E" 2 (.char 'a')]

theorem tiers_expand_as_operators :
    operators ≠ tiers ∧ ((expandLevels operators).map List.length).toOption = some 8 ∧
      expandLevels operators = expandLevels tiers ∧
      expandLevels (.plain "T" .start :: tiers) = .error (.duplicateRule "T") := by
  have hperm : operators.Perm tiers := by decide +kernel
  refine ⟨by decide +kernel, by decide +kernel, ?_, ?_⟩
  · exact levels_may_be_interleaved hperm (by decide +kernel)
  · rw [← levels_may_be_interleaved (hperm.cons _) (by decide +kernel)]
    decide +kernel

end Definition

end BottomUpPeg
