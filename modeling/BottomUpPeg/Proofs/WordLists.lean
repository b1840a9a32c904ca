import BottomUpPeg.Proofs.CharRuns
import BottomUpPeg.Proofs.Sums
import BottomUpPeg.Proofs.Termination

namespace BottomUpPeg

structure Grammar.IsWordList (g : Grammar) : Prop where
  lawful : g.Lawful
  word : g.Runs 1 0 (CharSet.range 'a' 'z')
  blank : g.Runs 3 2 (CharSet.singleton ' ')
  item : g.shape 4 = .group .seq [⟨3, none⟩, ⟨1, none⟩]
  items : g.shape 5 = .unary .oneOrMore ⟨4, none⟩
  nothing : g.shape 6 = .terminal .nothing
  rest : g.shape 7 = .group .first [⟨5, none⟩, ⟨6, none⟩]
  words : g.shape 8 = .group .seq [⟨1, none⟩, ⟨7, none⟩]
  lexeme : g.shape 9 = .group .first [⟨1, none⟩, ⟨3, none⟩]
  lexical : g.lexical.map (·.clause) = some 9
  acyclic : ∀ c < 10, (g.clause c).acyclic = true
  always : ∀ c < 10, (g.clause c).always = (c == 6 || c == 7)
  seedParents : ∀ p ∈ [(1, 8), (3, 4), (4, 5), (5, 7)], p.2 ∈ (g.clause p.1).seedParents
  label : ∀ c < 10, (g.clause c).label = if c = 1 then some "word" else none
  rule : (g.rule? "Words").map (·.clause) = some 8
  free : ∀ c, ¬Graph.LeadsTo g.fills c c

theorem Sample.exists_wordList : ∃ g, Sample.wordList.compile = .ok g ∧ g.IsWordList := by
  have hfacts : (Sample.wordList.compile.toOption.any fun g =>
      decide (g.shape 0 = .terminal (.chars (CharSet.range 'a' 'z'))) &&
      decide (g.shape 1 = .unary .oneOrMore ⟨0, none⟩) &&
      decide (g.shape 2 = .terminal (.chars (CharSet.singleton ' '))) &&
      decide (g.shape 3 = .unary .oneOrMore ⟨2, none⟩) &&
      decide (g.shape 4 = .group .seq [⟨3, none⟩, ⟨1, none⟩]) &&
      decide (g.shape 5 = .unary .oneOrMore ⟨4, none⟩) &&
      decide (g.shape 6 = .terminal .nothing) &&
      decide (g.shape 7 = .group .first [⟨5, none⟩, ⟨6, none⟩]) &&
      decide (g.shape 8 = .group .seq [⟨1, none⟩, ⟨7, none⟩]) &&
      decide (g.shape 9 = .group .first [⟨1, none⟩, ⟨3, none⟩]) &&
      decide (g.lexical.map (·.clause) = some 9) &&
      ((List.range 10).all fun c => (g.clause c).acyclic &&
        decide ((g.clause c).always = (c == 6 || c == 7)) &&
        decide ((g.clause c).label = if c = 1 then some "word" else none)) &&
      ([(1, 8), (3, 4), (4, 5), (5, 7)].all fun p => decide (p.2 ∈ (g.clause p.1).seedParents)) &&
      decide ((g.rule? "Words").map (·.clause) = some 8) &&
      (List.range g.size).all fun c => !Graph.onCycle g.fills g.size c) = true := by decide +kernel
  obtain ⟨g, hg, hfacts⟩ := Source.exists_of_compile_any hfacts
  simp only [Bool.and_eq_true, decide_eq_true_eq, List.all_eq_true, List.mem_range,
    Bool.not_eq_true', and_assoc] at hfacts
  obtain ⟨hletter, hword, hspace, hblank, hitem, hitems, hnothing, hrest, hwords, hlexeme, hlexical,
    hclauses, hparents, hrule, hfree⟩ := hfacts
  have hlawful := Source.compile_lawful hg
  refine ⟨g, hg, ?_⟩
  exact
    { lawful := hlawful
      word := ⟨hword, hletter⟩, blank := ⟨hblank, hspace⟩, item := hitem, items := hitems
      nothing := hnothing, rest := hrest, words := hwords, lexeme := hlexeme, lexical := hlexical
      acyclic := fun c hc => (hclauses c hc).1
      always := fun c hc => (hclauses c hc).2.1
      seedParents := hparents
      label := fun c hc => (hclauses c hc).2.2
      rule := hrule
      free := Graph.not_leadsTo_self_of_onCycle (Grammar.fills_bounded hlawful) hfree }

theorem CharSet.contains_lower (c : Char) :
    (CharSet.range 'a' 'z').contains c = true ↔ c.isLower = true := by
  change _ ↔ (decide ('a' ≤ c) && decide (c ≤ 'z')) = true
  rw [contains_range_iff (by decide) (by decide), Bool.and_eq_true, decide_eq_true_eq,
    decide_eq_true_eq]
  exact Iff.rfl

namespace Input

def MadeOf (kind : Char → Bool) (text : String) : Prop :=
  text.toList ≠ [] ∧ ∀ c ∈ text.toList, kind c = true

theorem madeOf_iff {kind : Char → Bool} {text : String} :
    MadeOf kind text ↔ (!text.toList.isEmpty && text.toList.all kind) = true := by
  simp [MadeOf]

instance (kind : Char → Bool) (text : String) : Decidable (MadeOf kind text) :=
  decidable_of_iff _ madeOf_iff.symm

theorem MadeOf.length_pos {kind : Char → Bool} {text : String} (h : MadeOf kind text) :
    0 < text.length := by
  rw [← String.length_toList]
  exact List.length_pos_iff.mpr h.1

def IsWord (text : String) : Prop := MadeOf Char.isLower text

def IsBlank (text : String) : Prop := MadeOf (· == ' ') text

instance (text : String) : Decidable (IsWord text) := inferInstanceAs (Decidable (MadeOf _ _))

instance (text : String) : Decidable (IsBlank text) := inferInstanceAs (Decidable (MadeOf _ _))

theorem IsWord.contains {text : String} (h : IsWord text) :
    ∀ c ∈ text.toList, (CharSet.range 'a' 'z').contains c = true := fun c hc =>
  (CharSet.contains_lower c).mpr (h.2 c hc)

theorem IsBlank.contains {text : String} (h : IsBlank text) :
    ∀ c ∈ text.toList, (CharSet.singleton ' ').contains c = true := fun c hc =>
  (CharSet.contains_singleton (by decide)).mpr (beq_iff_eq.mp (h.2 c hc))

def IsSpaced (rest : List (String × String)) : Prop := ∀ p ∈ rest, IsBlank p.1 ∧ IsWord p.2

instance (rest : List (String × String)) : Decidable (IsSpaced rest) :=
  inferInstanceAs (Decidable (∀ p ∈ rest, _))

theorem isSpaced_cons {blank word : String} {rest : List (String × String)} :
    IsSpaced ((blank, word) :: rest) ↔ (IsBlank blank ∧ IsWord word) ∧ IsSpaced rest :=
  List.forall_mem_cons

def spaced (rest : List (String × String)) : List Char :=
  rest.flatMap fun p => p.1.toList ++ p.2.toList

theorem append_spaced (front : List Char) (blank word : String) (rest : List (String × String)) :
    front ++ spaced ((blank, word) :: rest) =
      front ++ blank.toList ++ word.toList ++ spaced rest := by
  simp [spaced]

theorem length_append_word (front : List Char) (blank word : String) :
    (front ++ blank.toList ++ word.toList).length =
      front.length + (blank.length + word.length) := by
  simp [String.length_toList]

theorem length_spaced_cons (blank word : String) (rest : List (String × String)) :
    (spaced ((blank, word) :: rest)).length =
      blank.length + word.length + (spaced rest).length := by
  have hcons := congrArg List.length (append_spaced [] blank word rest)
  simpa only [List.length_append, List.nil_append, String.length_toList] using hcons

theorem eq_nil_of_length_spaced {rest : List (String × String)} (hrest : IsSpaced rest)
    (hlength : (spaced rest).length = 0) : rest = [] := by
  cases rest with
  | nil => rfl
  | cons p rest =>
      obtain ⟨blank, word⟩ := p
      have hpos := (isSpaced_cons.mp hrest).1.1.length_pos
      rw [length_spaced_cons] at hlength
      omega

theorem head?_spaced {rest : List (String × String)} (hrest : IsSpaced rest) :
    (spaced rest).head?.any (CharSet.range 'a' 'z').contains = false := by
  cases rest with
  | nil => rfl
  | cons p rest =>
      obtain ⟨hne, hspaces⟩ := (hrest p (List.mem_cons_self ..)).1
      obtain ⟨c, cs, hcs⟩ := List.exists_cons_of_ne_nil hne
      have hc : c = ' ' := beq_iff_eq.mp (hspaces c (by rw [hcs]; exact List.mem_cons_self ..))
      simp only [spaced, List.flatMap_cons, hcs, hc, List.cons_append, List.head?_cons,
        Option.any_some]
      decide

theorem head?_word {word : String} (hword : IsWord word) (back : List Char) :
    (word.toList ++ back).head?.any (CharSet.singleton ' ').contains = false := by
  obtain ⟨hne, hletters⟩ := hword
  obtain ⟨c, cs, hcs⟩ := List.exists_cons_of_ne_nil hne
  have hc : c.isLower = true := hletters c (by rw [hcs]; exact List.mem_cons_self ..)
  rw [hcs, List.cons_append, List.head?_cons, Option.any_some, ← Bool.not_eq_true,
    CharSet.contains_singleton (by decide)]
  rintro rfl
  cases hc

theorem spans_word (front : List Char) {word : String} (hword : IsWord word)
    {rest : List (String × String)} (hrest : IsSpaced rest) :
    Spans (front ++ word.toList ++ spaced rest).toArray (CharSet.range 'a' 'z') front.length
      word.length := by
  rw [← String.length_toList]
  exact spans_append front hword.contains (head?_spaced hrest)

theorem spans_of_spaced {input : Input} {front : List Char} {blank word : String}
    {rest : List (String × String)} (hblank : IsBlank blank) (hword : IsWord word)
    (hrest : IsSpaced rest) (hinput : input = (front ++ spaced ((blank, word) :: rest)).toArray) :
    input.Spans (CharSet.singleton ' ') front.length blank.length ∧
      input.Spans (CharSet.range 'a' 'z') (front.length + blank.length) word.length := by
  rw [append_spaced] at hinput
  have hletters := spans_word (front ++ blank.toList) hword hrest
  rw [← hinput, List.length_append, String.length_toList] at hletters
  rw [List.append_assoc _ word.toList] at hinput
  have hspaces := spans_append front hblank.contains (head?_word hword (spaced rest))
  rw [← hinput, String.length_toList] at hspaces
  exact ⟨hspaces, hletters⟩

abbrev letterAt (input : Input) (pos : Nat) : Bool := input.meets (CharSet.range 'a' 'z') pos

abbrev spaceAt (input : Input) (pos : Nat) : Bool := input.meets (CharSet.singleton ' ') pos

theorem not_letterAt_of_spaceAt {input : Input} {pos : Nat} (h : input.spaceAt pos = true) :
    input.letterAt pos = false := not_meets_of_char (by decide) (by decide) h

end Input

theorem Lexing.lexemes_scan {g : Grammar} {input : Input} {c pos : Nat} {m : Match}
    (hpos : pos < input.size) (hm : g.topDown input c pos = some m) (hlength : 0 < m.length)
    (fuel : Nat) :
    (scan g input c (fuel + 1) pos).lexemes =
      m :: (scan g input c fuel (pos + m.length)).lexemes := by
  simp [scan, hpos, hm, Option.filter, hlength]

namespace Grammar.IsWordList

variable {g : Grammar} {input : Input} {pos : Nat} {m : Match}

def Lexed (g : Grammar) (input : Input) (pos : Nat) : Prop :=
  ∃ fuel, input.size - pos ≤ fuel ∧
    ∀ m ∈ (Lexing.scan g input 9 fuel pos).lexemes, m ∈ (g.lex input).lexemes

theorem Lexed.next (hlexed : Lexed g input pos) (hg : g.Lawful) {c d : Nat} {set : CharSet}
    (hruns : g.Runs c d set) {i : Nat}
    (htop : g.topDown input 9 pos = some (Match.choose 9 pos (i, m))) (hm : m.Fits g input ⟨c, pos⟩)
    (n : Nat) :
    m.length ≤ Match.lengthOf ((Parse.run g input n).table.view ⟨c, pos⟩) ∧
      Lexed g input (pos + m.length) := by
  obtain ⟨fuel, hfuel, hsub⟩ := hlexed
  have hlength := (hruns.meets_of_fits hm).1
  have hsize := hm.le_size
  obtain ⟨fuel, rfl⟩ := Nat.exists_eq_add_one_of_ne_zero (show fuel ≠ 0 by omega)
  rw [Lexing.lexemes_scan (by omega) htop hlength] at hsub
  obtain ⟨hhere, hlater⟩ := List.forall_mem_cons.mp hsub
  have hmem : m ∈ Match.descendantsAll (g.lex input).lexemes :=
    Match.mem_descendantsAll.mpr ⟨_, hhere, Match.mem_descendants.mpr
      (.inr ⟨m, List.mem_singleton_self m, Match.mem_descendants.mpr (.inl rfl)⟩)⟩
  have hkey : m.key = ⟨c, pos⟩ := by rw [Match.key, hm.clause_eq, hm.start_eq]
  have hmemoized : (g.shape m.clause).isMemoized = true := hm.clause_eq ▸ hruns.isMemoized
  have hkept := Parse.length_le_of_lexeme hg hmem hmemoized (hkey ▸ hruns.greedy input pos) n
  rw [hkey] at hkept
  exact ⟨hkept, fuel, by omega, hlater⟩

variable (h : g.IsWordList)

include h

theorem letterAt_of_word (hm : m.Fits g input ⟨1, pos⟩) : input.letterAt pos = true := by
  obtain ⟨hpos, hmeets⟩ := h.word.meets_of_fits hm
  exact hmeets 0 hpos

theorem spaceAt_of_blank (hm : m.Fits g input ⟨3, pos⟩) : input.spaceAt pos = true := by
  obtain ⟨hpos, hmeets⟩ := h.blank.meets_of_fits hm
  exact hmeets 0 hpos

theorem not_spaceAt_of_word (hm : m.Fits g input ⟨1, pos⟩) : input.spaceAt pos = false := by
  by_contra hspace
  have hletter := h.letterAt_of_word hm
  rw [Input.not_letterAt_of_spaceAt (Bool.not_eq_false _ ▸ hspace)] at hletter
  cases hletter

theorem fits_item (hm : m.Fits g input ⟨4, pos⟩) :
    ∃ s w, s.Fits g input ⟨3, pos⟩ ∧ w.Fits g input ⟨1, pos + s.length⟩ ∧
      m = ⟨4, pos, s.length + w.length, 0, [s, w]⟩ := by
  obtain ⟨_, ⟨s, _, rfl, hs, w, _, rfl, hw, rfl⟩, rfl⟩ := hm.of_seq h.item
  exact ⟨s, w, hs, hw, by simp⟩

theorem fits_items (hm : m.Fits g input ⟨5, pos⟩) :
    ∃ item, item.Fits g input ⟨4, pos⟩ ∧
      (m = ⟨5, pos, item.length, 0, [item]⟩ ∨
        ∃ more, more.Fits g input ⟨5, pos + item.length⟩ ∧
          m = ⟨5, pos, item.length + more.length, 0, [item, more]⟩) := hm.of_oneOrMore h.items

theorem spaceAt_of_items (hm : m.Fits g input ⟨5, pos⟩) : input.spaceAt pos = true := by
  obtain ⟨item, hitem, _⟩ := h.fits_items hm
  obtain ⟨s, _, hs, _⟩ := h.fits_item hitem
  exact h.spaceAt_of_blank hs

theorem fits_rest (hm : m.Fits g input ⟨7, pos⟩) :
    (∃ items, items.Fits g input ⟨5, pos⟩ ∧ m = Match.choose 7 pos (0, items)) ∨
      ∃ none, none.Fits g input ⟨6, pos⟩ ∧ none.length = 0 ∧ m = Match.choose 7 pos (1, none) := by
  rcases hm.of_either h.rest with hitems | ⟨none, hnone, rfl⟩
  · exact .inl hitems
  · exact .inr ⟨none, hnone, hnone.length_of_nothing h.nothing, rfl⟩

theorem fits_words (hm : m.Fits g input ⟨8, pos⟩) :
    ∃ w r, w.Fits g input ⟨1, pos⟩ ∧ r.Fits g input ⟨7, pos + w.length⟩ ∧
      m = ⟨8, pos, w.length + r.length, 0, [w, r]⟩ := by
  obtain ⟨_, ⟨w, _, rfl, hw, r, _, rfl, hr, rfl⟩, rfl⟩ := hm.of_seq h.words
  exact ⟨w, r, hw, hr, by simp⟩

theorem blank_eq {s w s' w' : Match} (hs : s.Fits g input ⟨3, pos⟩)
    (hw : w.Fits g input ⟨1, pos + s.length⟩) (hs' : s'.Fits g input ⟨3, pos⟩)
    (hw' : w'.Fits g input ⟨1, pos + s'.length⟩) : s'.length = s.length :=
  Nat.le_antisymm (h.blank.length_le hs' (h.not_spaceAt_of_word hw))
    (h.blank.length_le hs (h.not_spaceAt_of_word hw'))

theorem item_le {item item' : Match} (hitem : item.Fits g input ⟨4, pos⟩)
    (hafter : input.letterAt (pos + item.length) = false) (hitem' : item'.Fits g input ⟨4, pos⟩) :
    item'.length ≤ item.length := by
  obtain ⟨s, w, hs, hw, rfl⟩ := h.fits_item hitem
  obtain ⟨s', w', hs', hw', rfl⟩ := h.fits_item hitem'
  have hsame := h.blank_eq hs hw hs' hw'
  rw [hsame] at hw'
  have hword := h.word.length_le hw' (by rwa [Nat.add_assoc])
  simp only
  omega

theorem item_le_of_spans {blank word : Nat} (hm : m.Fits g input ⟨4, pos⟩)
    (hspaces : input.Spans (CharSet.singleton ' ') pos blank)
    (hletters : input.Spans (CharSet.range 'a' 'z') (pos + blank) word) :
    m.length ≤ blank + word := by
  obtain ⟨s, w, hs, hw, rfl⟩ := h.fits_item hm
  have hblank := h.blank.length_eq hs (h.not_spaceAt_of_word hw) hspaces
  rw [hblank] at hw
  have hword := h.word.length_le hw hletters.after
  simp only
  omega

theorem item_eq_of_spans {blank word : Nat} (hm : m.Fits g input ⟨4, pos⟩)
    (hend : input.letterAt (pos + m.length) = false)
    (hspaces : input.Spans (CharSet.singleton ' ') pos blank)
    (hletters : input.Spans (CharSet.range 'a' 'z') (pos + blank) word) :
    m.length = blank + word := by
  obtain ⟨s, w, hs, hw, rfl⟩ := h.fits_item hm
  have hblank := h.blank.length_eq hs (h.not_spaceAt_of_word hw) hspaces
  rw [hblank] at hw hend ⊢
  rw [h.word.length_eq hw (by rwa [Nat.add_assoc]) hletters]

theorem item_pos (hm : m.Fits g input ⟨4, pos⟩) : 0 < m.length := by
  obtain ⟨s, w, hs, _, rfl⟩ := h.fits_item hm
  exact Nat.add_pos_left (h.blank.meets_of_fits hs).1 w.length

theorem items_pos (hm : m.Fits g input ⟨5, pos⟩) : 0 < m.length := by
  obtain ⟨item, hitem, rfl | ⟨more, _, rfl⟩⟩ := h.fits_items hm
  · change 0 < item.length
    exact h.item_pos hitem
  · exact Nat.add_pos_left (h.item_pos hitem) more.length

theorem words_pos (hm : m.Fits g input ⟨8, pos⟩) : 0 < m.length := by
  obtain ⟨w, r, hw, _, rfl⟩ := h.fits_words hm
  exact Nat.add_pos_left (h.word.meets_of_fits hw).1 r.length

theorem greedy_item (input : Input) (pos : Nat) : g.Greedy input ⟨4, pos⟩ := by
  refine greedy_seq h.item ?_
  rintro _ _ ⟨s, _, rfl, hs, w, _, rfl, hw, rfl⟩ ⟨s', _, rfl, hs', w', _, rfl, hw', rfl⟩ hlt
  have hsame := h.blank_eq hs hw hs' hw'
  have hless : w.length < w'.length := by
    simp only [Match.totalLength_cons, Match.totalLength_nil] at hlt
    omega
  refine ⟨rfl, ?_⟩
  simp [Match.compareLengths, hsame, Nat.compare_eq_gt.mpr hless]

theorem greedy_items (input : Input) (pos : Nat) : g.Greedy input ⟨5, pos⟩ := by
  refine greedy_oneOrMore h.items fun a b a' b' ha hb ha' hb' => ?_
  have hafter := Input.not_letterAt_of_spaceAt (h.spaceAt_of_items hb)
  have hafter' := Input.not_letterAt_of_spaceAt (h.spaceAt_of_items hb')
  exact Nat.le_antisymm (h.item_le ha' hafter' ha) (h.item_le ha hafter ha')

theorem greedy_rest (input : Input) (pos : Nat) : g.Greedy input ⟨7, pos⟩ := by
  refine greedy_first h.rest (List.pairwise_pair.mpr fun p p' _ hp' => ?_)
  rw [hp'.length_of_nothing h.nothing]
  exact Nat.zero_le _

theorem greedy_words (input : Input) (pos : Nat) : g.Greedy input ⟨8, pos⟩ := by
  refine greedy_seq h.words ?_
  rintro _ _ ⟨w, _, rfl, hw, r, _, rfl, hr, rfl⟩ ⟨w', _, rfl, hw', r', _, rfl, hr', rfl⟩ hlt
  simp only [Match.totalLength_cons, Match.totalLength_nil] at hlt
  refine ⟨rfl, ?_⟩
  rcases Nat.lt_trichotomy w.length w'.length with hless | hsame | hless
  · simp [Match.compareLengths, Nat.compare_eq_gt.mpr hless]
  · have hless : r.length < r'.length := by omega
    simp [Match.compareLengths, hsame, Nat.compare_eq_gt.mpr hless]
  · -- A word cut short is followed by a letter, and nothing more is taken after it.
    rcases h.fits_rest hr' with ⟨items, hitems, _⟩ | ⟨none, _, hnone, rfl⟩
    · have hspace := Input.not_letterAt_of_spaceAt (h.spaceAt_of_items hitems)
      have hle := h.word.length_le hw hspace
      omega
    · simp only [Match.choose, hnone] at hlt
      omega

theorem lexed_zero (input : Input) : Lexed g input 0 := by
  obtain ⟨rule, hrule, hclause⟩ := Option.map_eq_some_iff.mp h.lexical
  refine ⟨input.size, Nat.sub_le .., fun m hm => ?_⟩
  rw [Grammar.lex, hrule]
  rw [← hclause] at hm
  exact hm

theorem lengthOf_word (hlexed : Lexed g input pos) {length : Nat} (hpos : 0 < length)
    (hspans : input.Spans (CharSet.range 'a' 'z') pos length) (n : Nat) :
    length ≤ Match.lengthOf ((Parse.run g input n).table.view ⟨1, pos⟩) ∧
      Lexed g input (pos + length) := by
  obtain ⟨w, hw, hfits, rfl⟩ :=
    h.word.topDown_of_spans h.lawful (h.acyclic 1 (by decide)) hpos hspans
  have hsize := hfits.le_size
  have htop : g.topDown input 9 pos = some (Match.choose 9 pos (0, w)) := by
    rw [topDown_eq h.lawful (h.acyclic 9 (by decide)) (by omega), h.lexeme, Shape.step, Look.first,
      hw]
    rfl
  exact hlexed.next h.lawful h.word htop hfits n

theorem lengthOf_blank (hlexed : Lexed g input pos) {length : Nat} (hpos : 0 < length)
    (hspans : input.Spans (CharSet.singleton ' ') pos length) (n : Nat) :
    length ≤ Match.lengthOf ((Parse.run g input n).table.view ⟨3, pos⟩) ∧
      Lexed g input (pos + length) := by
  obtain ⟨s, hs, hfits, rfl⟩ :=
    h.blank.topDown_of_spans h.lawful (h.acyclic 3 (by decide)) hpos hspans
  have hsize := hfits.le_size
  have hword : g.topDown input 1 pos = none := by
    by_contra hfound
    obtain ⟨w, hw⟩ := Option.ne_none_iff_exists'.mp hfound
    have hletter := h.not_spaceAt_of_word (topDown_sound 1 pos w (by omega) hw)
    rw [h.spaceAt_of_blank hfits] at hletter
    cases hletter
  have htop : g.topDown input 9 pos = some (Match.choose 9 pos (1, s)) := by
    rw [topDown_eq h.lawful (h.acyclic 9 (by decide)) (by omega), h.lexeme, Shape.step, Look.first,
      hword, Look.first, hs]
    rfl
  exact hlexed.next h.lawful h.blank htop hfits n

theorem lookup_items (view : View) (pos : Nat) : g.lookup input view 5 pos = view ⟨5, pos⟩ := by
  have hmemoized : (g.shape 5).isMemoized = true := by
    rw [h.items]
    rfl
  exact lookup_of_not_always hmemoized (h.always 5 (by decide)) view pos

variable {n : Nat} (hconverged : (Parse.run g input n).state.converged = true)

include hconverged

theorem exists_item {blank word : Nat} (hblank : 0 < blank) (hword : 0 < word)
    (hspaces : input.Spans (CharSet.singleton ' ') pos blank)
    (hletters : input.Spans (CharSet.range 'a' 'z') (pos + blank) word)
    (hs : blank ≤ Match.lengthOf ((Parse.run g input n).table.view ⟨3, pos⟩))
    (hw : word ≤ Match.lengthOf ((Parse.run g input n).table.view ⟨1, pos + blank⟩)) :
    ∃ item, (Parse.run g input n).table.view ⟨4, pos⟩ = some item ∧ item.length = blank + word := by
  obtain ⟨s, hs, hsfits, hsle⟩ := Parse.exists_view_of_lengthOf h.lawful hblank hs
  obtain ⟨w, hw, hwfits, hwle⟩ := Parse.exists_view_of_lengthOf h.lawful hword hw
  have hlength := Nat.le_antisymm (h.blank.length_le hsfits hspaces.after) hsle
  rw [← hlength] at hw
  obtain ⟨item, hitem, hfits, hge⟩ := Parse.exists_kept_seq h.lawful hconverged h.item
    (h.seedParents (3, 4) (by simp)) (h.greedy_item input pos) hs
    ⟨w, _, rfl, Parse.lookup_of_view h.lawful hw, rfl⟩
  have hle := h.item_le_of_spans hfits hspaces hletters
  simp only [Match.totalLength_cons, Match.totalLength_nil] at hge
  exact ⟨item, hitem, by omega⟩

theorem lengthOf_items_step {item : Match}
    (hitem : (Parse.run g input n).table.view ⟨4, pos⟩ = some item) :
    item.length + Match.lengthOf ((Parse.run g input n).table.view ⟨5, pos + item.length⟩) ≤
      Match.lengthOf ((Parse.run g input n).table.view ⟨5, pos⟩) := by
  have hfits := Parse.view_sound h.lawful input n _ item hitem
  have hactive : Parse.EverActive g input n ⟨5, pos⟩ :=
    Parse.everActive_of_seedParent (hitem ▸ Option.some_ne_none item)
      (h.seedParents (4, 5) (by simp))
  have hle := Parse.lengthOf_evaluate_le h.lawful hconverged hactive (h.greedy_items input pos)
  rw [evaluate, h.items, Shape.step, Look.lengthOf_repeated
    (Parse.lookup_of_view h.lawful hitem) (h.item_pos hfits), h.lookup_items, Match.stop,
    hfits.start_eq] at hle
  exact hle

theorem exists_rest (hpos : pos ≤ input.size) :
    ∃ r, g.lookup input (Parse.run g input n).table.view 7 pos = some r ∧
      Match.lengthOf ((Parse.run g input n).table.view ⟨5, pos⟩) ≤ r.length := by
  cases hitems : (Parse.run g input n).table.view ⟨5, pos⟩ with
  | none =>
      obtain ⟨r, hr⟩ := Option.isSome_iff_exists.mp (lookup_isSome_of_always h.lawful
        (h.acyclic 7 (by decide)) (h.always 7 (by decide)) hpos (Parse.run g input n).table.view)
      exact ⟨r, hr, Nat.zero_le _⟩
  | some items =>
      obtain ⟨r, hr, _, hle⟩ := Parse.exists_kept_first h.lawful hconverged h.rest
        (h.seedParents (5, 7) (by simp)) (h.greedy_rest input pos) hitems
      exact ⟨r, Parse.lookup_of_view h.lawful hr, hle⟩

theorem exists_words {word : Nat} (hword : 0 < word)
    (hletters : input.Spans (CharSet.range 'a' 'z') pos word)
    (hw : word ≤ Match.lengthOf ((Parse.run g input n).table.view ⟨1, pos⟩)) :
    ∃ m, (Parse.run g input n).table.view ⟨8, pos⟩ = some m ∧ m.Fits g input ⟨8, pos⟩ ∧
      word + Match.lengthOf ((Parse.run g input n).table.view ⟨5, pos + word⟩) ≤ m.length := by
  obtain ⟨w, hw, hwfits, hwle⟩ := Parse.exists_view_of_lengthOf h.lawful hword hw
  have hlength := Nat.le_antisymm (h.word.length_le hwfits hletters.after) hwle
  obtain ⟨r, hr, hrle⟩ := h.exists_rest hconverged hwfits.le_size
  obtain ⟨m, hm, hfits, hle⟩ := Parse.exists_kept_seq h.lawful hconverged h.words
    (h.seedParents (1, 8) (by simp)) (h.greedy_words input pos) hw ⟨r, _, rfl, hr, rfl⟩
  simp only [Match.totalLength_cons, Match.totalLength_nil] at hle
  rw [hlength] at hrle hle
  exact ⟨m, hm, hfits, by omega⟩

theorem lengthOf_items {rest : List (String × String)} (hrest : Input.IsSpaced rest)
    {front : List Char} (hinput : input = (front ++ Input.spaced rest).toArray)
    (hlexed : Lexed g input front.length) :
    (Input.spaced rest).length ≤
      Match.lengthOf ((Parse.run g input n).table.view ⟨5, front.length⟩) := by
  induction rest generalizing front with
  | nil => exact Nat.zero_le _
  | cons p rest ih =>
      obtain ⟨blank, word⟩ := p
      obtain ⟨⟨hblank, hword⟩, hrest⟩ := Input.isSpaced_cons.mp hrest
      obtain ⟨hspaces, hletters⟩ := Input.spans_of_spaced hblank hword hrest hinput
      obtain ⟨hs, hlexed⟩ := h.lengthOf_blank hlexed hblank.length_pos hspaces n
      obtain ⟨hw, hlexed⟩ := h.lengthOf_word hlexed hword.length_pos hletters n
      obtain ⟨item, hitem, hlength⟩ := h.exists_item hconverged hblank.length_pos hword.length_pos
        hspaces hletters hs hw
      have hstep := h.lengthOf_items_step hconverged hitem
      have hfront := Input.length_append_word front blank word
      rw [Input.append_spaced] at hinput
      have hmore := ih hrest hinput (by rwa [hfront, ← Nat.add_assoc])
      rw [hfront, ← hlength] at hmore
      rw [Input.length_spaced_cons]
      omega

end Grammar.IsWordList

def Node.word (pos : Nat) (text : String) : Node := ⟨"word", ⟨pos, pos + text.length⟩, text, []⟩

def Node.words (pos : Nat) : List (String × String) → List Node
  | [] => []
  | (blank, text) :: rest =>
      word (pos + blank.length) text :: words (pos + (blank.length + text.length)) rest

namespace Grammar.IsWordList

variable {g : Grammar} {input : Input} {pos : Nat} {m : Match} (h : g.IsWordList)

include h

theorem wrap_word {word : String} (hm : m.Fits g input ⟨1, pos⟩) (hlength : m.length = word.length)
    (htext : input.text ⟨pos, pos + word.length⟩ = word) :
    m.wrap g input none (m.nodes g input) = [Node.word pos word] := by
  rw [h.word.nodes_eq (h.label 0 (by decide)) hm, Match.wrap, hm.clause_eq, h.label 1 (by decide),
    Match.stop, hm.start_eq, hlength, htext]
  rfl

theorem nodes_item {front back : List Char} {blank word : String}
    (hinput : input = (front ++ blank.toList ++ word.toList ++ back).toArray)
    (hspaces : input.Spans (CharSet.singleton ' ') front.length blank.length)
    (hm : m.Fits g input ⟨4, front.length⟩) (hlength : m.length = blank.length + word.length) :
    m.nodes g input = [Node.word (front.length + blank.length) word] := by
  obtain ⟨s, w, hs, hw, rfl⟩ := h.fits_item hm
  have hblank := h.blank.length_eq hs (h.not_spaceAt_of_word hw) hspaces
  have htext := Input.text_append (front ++ blank.toList) word.toList back
  rw [← hinput, List.length_append, String.length_toList, String.length_toList,
    String.ofList_toList] at htext
  simp only at hlength
  rw [hblank] at hw
  simp only [Match.nodes, h.item, Match.nodesInSlots, h.wrap_word hw (by omega) htext,
    h.blank.nodes_eq (h.label 2 (by decide)) hs, hs.wrap_eq (h.label 3 (by decide))]
  rfl

theorem nodes_items {rest : List (String × String)} (hrest : Input.IsSpaced rest)
    {front : List Char} (hinput : input = (front ++ Input.spaced rest).toArray)
    (hm : m.Fits g input ⟨5, front.length⟩) (hlength : m.length = (Input.spaced rest).length) :
    m.nodes g input = Node.words front.length rest := by
  induction rest generalizing front m with
  | nil => exact absurd hlength (Nat.ne_of_gt (h.items_pos hm))
  | cons p rest ih =>
      obtain ⟨blank, word⟩ := p
      obtain ⟨⟨hblank, hword⟩, hrest⟩ := Input.isSpaced_cons.mp hrest
      obtain ⟨hspaces, hletters⟩ := Input.spans_of_spaced hblank hword hrest hinput
      rw [Input.append_spaced] at hinput
      rw [Input.length_spaced_cons] at hlength
      obtain ⟨item, hitem, rfl | ⟨more, hmore, rfl⟩⟩ := h.fits_items hm
      · have hle := h.item_le_of_spans hitem hspaces hletters
        simp only at hlength
        obtain rfl := Input.eq_nil_of_length_spaced hrest (by omega)
        simp only [Match.nodes, h.items, Match.nodesInHead, Match.nodesInTail,
          h.nodes_item hinput hspaces hitem (by omega), hitem.wrap_eq (h.label 4 (by decide))]
        rfl
      · have hend := Input.not_letterAt_of_spaceAt (h.spaceAt_of_items hmore)
        have hitemLength := h.item_eq_of_spans hitem hend hspaces hletters
        simp only at hlength
        rw [hitemLength, ← Input.length_append_word] at hmore
        have hrestNodes := ih hrest hinput hmore (by omega)
        simp only [Match.nodes, h.items, Match.nodesInHead, Match.nodesInTail,
          h.nodes_item hinput hspaces hitem hitemLength, hitem.wrap_eq (h.label 4 (by decide)),
          hrestNodes, Input.length_append_word]
        rfl

theorem nodes_words {first : String} {rest : List (String × String)} (hfirst : Input.IsWord first)
    (hrest : Input.IsSpaced rest) (hinput : input = (first.toList ++ Input.spaced rest).toArray)
    (hm : m.Fits g input ⟨8, 0⟩) (hlength : m.length = input.size) :
    m.nodes g input = Node.word 0 first :: Node.words first.length rest := by
  have hletters := Input.spans_word [] hfirst hrest
  rw [List.nil_append, ← hinput, List.length_nil] at hletters
  have htext := Input.text_append [] first.toList (Input.spaced rest)
  rw [List.nil_append, ← hinput, List.length_nil, String.length_toList, String.ofList_toList]
    at htext
  have hsize : input.size = first.length + (Input.spaced rest).length := by
    rw [hinput, List.size_toArray, List.length_append, String.length_toList]
  obtain ⟨w, r, hw, hr, rfl⟩ := h.fits_words hm
  simp only [hsize, Nat.zero_add] at hlength hr
  simp only [Match.nodes, h.words, Match.nodesInSlots, hr.wrap_eq (h.label 7 (by decide))]
  rcases h.fits_rest hr with ⟨items, hitems, rfl⟩ | ⟨none, hnone, hzero, rfl⟩
  · have hend := Input.not_letterAt_of_spaceAt (h.spaceAt_of_items hitems)
    have hwlength := h.word.length_eq hw (by rwa [Nat.zero_add]) hletters
    rw [hwlength, ← String.length_toList] at hitems
    simp only [Match.choose] at hlength
    have hitemNodes := h.nodes_items hrest hinput hitems (by omega)
    rw [h.wrap_word hw hwlength htext, Match.nodes_choose h.rest rfl, hitemNodes,
      hitems.wrap_eq (h.label 5 (by decide)), String.length_toList]
    simp
  · simp only [Match.choose, hzero] at hlength
    have hle := h.word.length_le hw hletters.after
    obtain rfl := Input.eq_nil_of_length_spaced hrest (by omega)
    rw [h.wrap_word hw (by simpa [Input.spaced] using hlength) htext, Match.nodes_choose h.rest rfl,
      hnone.nodes_of_terminal h.nothing, hnone.wrap_eq (h.label 6 (by decide))]
    rfl

end Grammar.IsWordList

theorem Input.ofString_spaced (first : String) (rest : List (String × String)) :
    ofString (first ++ String.join (rest.map fun p => p.1 ++ p.2)) =
      (first.toList ++ spaced rest).toArray := by
  simp [ofString, spaced, List.flatMap_map, String.toList_join]

namespace Parse

theorem word_lists_are_parsed (first : String) (rest : List (String × String))
    (hfirst : Input.IsWord first) (hrest : Input.IsSpaced rest) :
    ∃ g, Sample.wordList.compile = .ok g ∧
      let text := first ++ String.join (rest.map fun p => p.1 ++ p.2)
      let p := ofString g text none
      p.converged = true ∧
        ∃ m, p.nonOverlapping "Words" = .ok [m] ∧ m.start = 0 ∧ m.length = p.input.size ∧
          ∀ label, p.tree m label =
            ⟨label, ⟨0, p.input.size⟩, text,
              Node.word 0 first :: Node.words first.length rest⟩ := by
  obtain ⟨g, hok, hg⟩ := Sample.exists_wordList
  refine ⟨g, hok, ?_⟩
  intro text p
  have hinput := Input.ofString_spaced first rest
  obtain ⟨n, hconverged⟩ := exists_converged_of_free hg.lawful hg.free (Input.ofString text)
  have hrun : p = run g (Input.ofString text) n := ofString_eq_run_of_converged hconverged
  have hsize : (Input.ofString text).size = first.length + (Input.spaced rest).length := by
    rw [hinput, List.size_toArray, List.length_append, String.length_toList]
  have hletters := Input.spans_word [] hfirst hrest
  rw [List.nil_append, ← hinput, List.length_nil] at hletters
  obtain ⟨hw, hlexed⟩ := hg.lengthOf_word (hg.lexed_zero _) hfirst.length_pos hletters n
  obtain ⟨m, hm, hfits, hle⟩ := hg.exists_words hconverged hfirst.length_pos hletters hw
  rw [Nat.zero_add, ← String.length_toList] at hlexed hle
  have hitems := hg.lengthOf_items hconverged hrest hinput hlexed
  have hlength : m.length = (Input.ofString text).size := by
    have hbound := hfits.le_size
    rw [String.length_toList] at hitems hle
    omega
  have hbest : (run g (Input.ofString text) n).best? 8 0 = some m := lookup_of_view hg.lawful hm
  have hnodes := hg.nodes_words hfirst hrest hinput hfits hlength
  rw [hrun]
  exact ⟨hconverged, m, nonOverlapping_of_whole hg.lawful hg.rule (fun _ _ => hg.words_pos) hbest
    hlength, hfits.start_eq, hlength, tree_of_whole hfits.start_eq hlength hnodes⟩

theorem spaced_words_are_parsed :
    Input.IsWord "ab" ∧ Input.IsSpaced [("  ", "c"), (" ", "d")] ∧
      ∃ g m, Sample.wordList.compile = .ok g ∧
        (ofString g "ab  c d" none).nonOverlapping "Words" = .ok [m] ∧
        ((ofString g "ab  c d" none).tree m "words").children =
          [Node.word 0 "ab", Node.word 4 "c", Node.word 6 "d"] := by
  have hfirst : Input.IsWord "ab" := by decide
  have hrest : Input.IsSpaced [("  ", "c"), (" ", "d")] := by decide
  obtain ⟨g, hok, _, m, hlist, _, _, htree⟩ := word_lists_are_parsed "ab" _ hfirst hrest
  exact ⟨hfirst, hrest, g, m, hok, hlist, congrArg Node.children (htree "words")⟩

end Parse

end BottomUpPeg
