import BottomUpPeg.Proofs.Anatomy
import BottomUpPeg.Proofs.Arithmetic
import BottomUpPeg.Proofs.Installing

namespace BottomUpPeg

namespace Grammar

variable {g : Grammar} {input : Input} {c pos : Nat}

theorem greedy_seq {slots : List Slot} (hshape : g.shape c = .group .seq slots)
    (h : ∀ parts parts', Match.Line g input slots pos parts → Match.Line g input slots pos parts' →
      Match.totalLength parts < Match.totalLength parts' →
      parts'.length = parts.length ∧ Match.compareLengths parts' parts = .gt) :
    g.Greedy input ⟨c, pos⟩ := by
  intro m m' hm hm' hlt
  obtain ⟨parts, hline, rfl⟩ := hm.of_seq hshape
  obtain ⟨parts', hline', rfl⟩ := hm'.of_seq hshape
  obtain ⟨hcount, hlengths⟩ := h parts parts' hline hline' hlt
  exact Match.isBetter_of_lengths (by simp only [hshape]; rfl) hcount hlengths

theorem greedy_first {slots : List Slot} (hshape : g.shape c = .group .first slots)
    (h : slots.Pairwise fun s s' => ∀ p p' : Match, p.Fits g input ⟨s.clause, pos⟩ →
      p'.Fits g input ⟨s'.clause, pos⟩ → p'.length ≤ p.length) :
    g.Greedy input ⟨c, pos⟩ := by
  intro m m' hm hm' hlt
  obtain ⟨i, s, p, hs, hp, rfl⟩ := hm.of_first hshape
  obtain ⟨i', s', p', hs', hp', rfl⟩ := hm'.of_first hshape
  change p.length < p'.length at hlt
  rcases Nat.lt_trichotomy i i' with hi | rfl | hi
  · obtain ⟨hi', rfl⟩ := List.getElem?_eq_some_iff.mp hs'
    obtain ⟨_, rfl⟩ := List.getElem?_eq_some_iff.mp hs
    have hle := List.pairwise_iff_getElem.mp h i i' (by omega) hi' hi p p' hp hp'
    omega
  · refine Match.isBetter_of_lengths ?_ rfl ?_
    · simp [Match.choose, hshape, Shape.preference]
    · simp [Match.choose, Match.compareLengths, Nat.compare_eq_gt.mpr hlt]
  · have hpreference : compare i i' = .gt := Nat.compare_eq_gt.mpr hi
    rw [Match.isBetter, Match.compareIn_eq]
    simp [Match.choose, hshape, Shape.preference, hpreference]

theorem greedy_oneOrMore {slot : Slot} (hshape : g.shape c = .unary .oneOrMore slot)
    (h : ∀ a b a' b' : Match, a.Fits g input ⟨slot.clause, pos⟩ →
      b.Fits g input ⟨c, pos + a.length⟩ → a'.Fits g input ⟨slot.clause, pos⟩ →
      b'.Fits g input ⟨c, pos + a'.length⟩ → a.length = a'.length) :
    g.Greedy input ⟨c, pos⟩ := by
  intro m m' hm hm' hlt
  obtain ⟨a, ha, rfl | ⟨b, hb, rfl⟩⟩ := hm.of_oneOrMore hshape <;>
    obtain ⟨a', ha', rfl | ⟨b', hb', rfl⟩⟩ := hm'.of_oneOrMore hshape <;>
      simp only at hlt
  · refine Match.isBetter_of_lengths (by simp only [hshape]; rfl) rfl ?_
    simp [Match.compareLengths, Nat.compare_eq_gt.mpr hlt]
  · exact Match.isBetter_of_length (by simp only [hshape]; rfl) (by simp) hlt
  · exact Match.isBetter_of_length (by simp only [hshape]; rfl) (by simp) hlt
  · have hsame := h a b a' b' ha hb ha' hb'
    have hless : b.length < b'.length := by omega
    refine Match.isBetter_of_lengths (by simp only [hshape]; rfl) rfl ?_
    simp [Match.compareLengths, hsame, Nat.compare_eq_gt.mpr hless]

end Grammar

namespace Look

theorem lengthOf_repeated {look : Look} {tail : Nat → Option Match} {c pos : Nat} {slot : Slot}
    {head : Match} (hhead : look slot.clause pos = some head) (hpos : 0 < head.length) :
    Match.lengthOf (look.repeated tail c slot pos) =
      head.length + Match.lengthOf (tail head.stop) := by
  simp only [repeated, hhead, Nat.ne_of_gt hpos, if_false]
  cases tail head.stop with
  | none => rfl
  | some rest =>
      simp only
      split
      · rename_i hzero
        simp [Match.lengthOf, hzero]
      · rfl

def Follows (look : Look) : List Slot → Nat → List Match → Prop
  | [], _, parts => parts = []
  | s :: slots, pos, parts =>
      ∃ m rest, parts = m :: rest ∧ look s.clause pos = some m ∧
        Follows look slots (pos + m.length) rest

theorem chain_of_follows {g : Grammar} {input : Input} {look : Look} (hlook : look.Sound g input)
    {slots : List Slot} {pos : Nat} {parts : List Match} (hpos : pos ≤ input.size)
    (h : look.Follows slots pos parts) :
    look.chain slots pos = some (parts, pos + Match.totalLength parts) := by
  induction slots generalizing pos parts with
  | nil =>
      rw [show parts = [] from h]
      rfl
  | cons s slots ih =>
      obtain ⟨m, rest, rfl, hm, hrest⟩ := h
      have hfits := hlook _ _ _ hpos hm
      have hstop : m.stop = pos + m.length := by rw [Match.stop, hfits.start_eq]
      simp only [chain, hm, hstop, ih hfits.le_size hrest]
      simp [Nat.add_assoc]

end Look

theorem Grammar.evaluate_seq {g : Grammar} {input : Input} {view : View}
    (hview : g.SoundView input view) {c pos : Nat} {slots : List Slot} {parts : List Match}
    (hshape : g.shape c = .group .seq slots) (hpos : pos ≤ input.size)
    (h : Look.Follows (g.lookup input view) slots pos parts) :
    g.evaluate input view ⟨c, pos⟩ = some ⟨c, pos, Match.totalLength parts, 0, parts⟩ := by
  simp only [evaluate, hshape, Shape.step, Look.chain_of_follows (lookup_sound hview) hpos h,
    Option.map_some, Nat.add_sub_cancel_left]

namespace Parse

variable {g : Grammar} {input : Input}

theorem exists_view_of_lengthOf (hg : g.Lawful) {n : Nat} {k : Key} {length : Nat}
    (hpos : 0 < length) (h : length ≤ Match.lengthOf ((run g input n).table.view k)) :
    ∃ m, (run g input n).table.view k = some m ∧ m.Fits g input k ∧ length ≤ m.length := by
  cases hm : (run g input n).table.view k with
  | none =>
      rw [hm] at h
      exact absurd h (Nat.not_le.mpr hpos)
  | some m =>
      rw [hm] at h
      exact ⟨m, rfl, view_sound hg input n k m hm, h⟩

theorem lookup_of_view (hg : g.Lawful) {n c pos : Nat} {m : Match}
    (hm : (run g input n).table.view ⟨c, pos⟩ = some m) :
    g.lookup input (run g input n).table.view c pos = some m := by
  have hproper := (run_valid hg input n).keys _ (Table.mem_of_view hm)
  rw [Grammar.lookup_of_isMemoized hproper.memoized, hm, Option.some_or]

theorem exists_kept (hg : g.Lawful) {n : Nat} {k : Key}
    (hconverged : (run g input n).state.converged = true) (hactive : EverActive g input n k)
    (hk : g.Greedy input k) {m : Match}
    (hm : g.evaluate input (run g input n).table.view k = some m) :
    ∃ kept, (run g input n).table.view k = some kept ∧ kept.Fits g input k ∧
      m.length ≤ kept.length := by
  have hvalid := run_valid hg input n
  obtain ⟨kept, hkept, hnot⟩ := (hactive.settled_of_converged hconverged).exists_kept hm
  obtain ⟨i, _, hi⟩ := hactive
  have hproper := (run_valid hg input i).active k hi
  have hfits := hvalid.best k kept hkept
  refine ⟨kept, hkept, hfits, ?_⟩
  by_contra hlt
  rw [hk kept m hfits (Grammar.evaluate_fits hvalid.best hproper.start_le hm)
    (Nat.lt_of_not_le hlt)] at hnot
  cases hnot

theorem exists_kept_first (hg : g.Lawful) {n c pos : Nat} {s : Slot} {slots : List Slot} {p : Match}
    (hconverged : (run g input n).state.converged = true)
    (hshape : g.shape c = .group .first (s :: slots))
    (hparent : c ∈ (g.clause s.clause).seedParents) (hk : g.Greedy input ⟨c, pos⟩)
    (hp : (run g input n).table.view ⟨s.clause, pos⟩ = some p) :
    ∃ kept, (run g input n).table.view ⟨c, pos⟩ = some kept ∧ kept.Fits g input ⟨c, pos⟩ ∧
      p.length ≤ kept.length := by
  have hactive : EverActive g input n ⟨c, pos⟩ :=
    everActive_of_seedParent (hp ▸ Option.some_ne_none p) hparent
  have hevaluate : g.evaluate input (run g input n).table.view ⟨c, pos⟩ =
      some (Match.choose c pos (0, p)) := by
    simp only [Grammar.evaluate, hshape, Shape.step, Look.first, lookup_of_view hg hp,
      Option.map_some]
  obtain ⟨kept, hkept, hfits, hle⟩ := exists_kept hg hconverged hactive hk hevaluate
  exact ⟨kept, hkept, hfits, hle⟩

theorem exists_view_of_alternative (hg : g.Lawful) {n c pos : Nat} {s : Slot} {slots : List Slot}
    {p : Match} (hconverged : (run g input n).state.converged = true)
    (hshape : g.shape c = .group .first slots) (hs : s ∈ slots)
    (hparent : c ∈ (g.clause s.clause).seedParents)
    (hp : (run g input n).table.view ⟨s.clause, pos⟩ = some p) :
    ∃ kept, (run g input n).table.view ⟨c, pos⟩ = some kept := by
  have hactive : EverActive g input n ⟨c, pos⟩ :=
    everActive_of_seedParent (hp ▸ Option.some_ne_none p) hparent
  have hsome : (g.evaluate input (run g input n).table.view ⟨c, pos⟩).isSome = true := by
    rw [Grammar.evaluate, hshape, Shape.step, Option.isSome_map, Look.first_isSome,
      List.any_eq_true]
    exact ⟨s, hs, by rw [lookup_of_view hg hp, Option.isSome_some]⟩
  obtain ⟨m, hm⟩ := Option.isSome_iff_exists.mp hsome
  obtain ⟨kept, hkept, _⟩ := (hactive.settled_of_converged hconverged).exists_kept hm
  exact ⟨kept, hkept⟩

theorem exists_kept_seq (hg : g.Lawful) {n c pos : Nat} {s : Slot} {slots : List Slot} {p : Match}
    {rest : List Match} (hconverged : (run g input n).state.converged = true)
    (hshape : g.shape c = .group .seq (s :: slots))
    (hparent : c ∈ (g.clause s.clause).seedParents) (hk : g.Greedy input ⟨c, pos⟩)
    (hp : (run g input n).table.view ⟨s.clause, pos⟩ = some p)
    (hrest : Look.Follows (g.lookup input (run g input n).table.view) slots (pos + p.length) rest) :
    ∃ kept, (run g input n).table.view ⟨c, pos⟩ = some kept ∧ kept.Fits g input ⟨c, pos⟩ ∧
      p.length + Match.totalLength rest ≤ kept.length := by
  have hactive : EverActive g input n ⟨c, pos⟩ :=
    everActive_of_seedParent (hp ▸ Option.some_ne_none p) hparent
  have hpos : pos ≤ input.size := by
    have hsize := (view_sound hg input n _ p hp).le_size
    omega
  have hevaluate := Grammar.evaluate_seq (view_sound hg input n) hshape hpos
    ⟨p, rest, rfl, lookup_of_view hg hp, hrest⟩
  rw [Match.totalLength_cons] at hevaluate
  obtain ⟨kept, hkept, hfits, hle⟩ := exists_kept hg hconverged hactive hk hevaluate
  exact ⟨kept, hkept, hfits, hle⟩

theorem lengthOf_evaluate_le (hg : g.Lawful) {n : Nat} {k : Key}
    (hconverged : (run g input n).state.converged = true) (hactive : EverActive g input n k)
    (hk : g.Greedy input k) :
    Match.lengthOf (g.evaluate input (run g input n).table.view k) ≤
      Match.lengthOf ((run g input n).table.view k) := by
  cases hm : g.evaluate input (run g input n).table.view k with
  | none => exact Nat.zero_le _
  | some m =>
      obtain ⟨kept, hkept, _, hle⟩ := exists_kept hg hconverged hactive hk hm
      rw [hkept]
      exact hle

end Parse

theorem Parse.length_le_of_lexeme {g : Grammar} {input : Input} (hg : g.Lawful) {m : Match}
    (hm : m ∈ Match.descendantsAll (g.lex input).lexemes)
    (hmemoized : (g.shape m.clause).isMemoized = true) (hk : g.Greedy input m.key) (n : Nat) :
    m.length ≤ Match.lengthOf ((run g input n).table.view m.key) := by
  have hinitial := State.view_initial_of_mem_kept hg (Lexing.mem_kept.mpr ⟨hm, hmemoized⟩)
  calc m.length = Match.lengthOf ((State.initial g input).table.view m.key) := by
        rw [hinitial, Match.lengthOf]
    _ ≤ Match.lengthOf ((run g input n).table.view m.key) :=
        lengthOf_mono_of_greedy hg hk (Nat.zero_le n)

end BottomUpPeg
