import BottomUpPeg.Parse.Query
import BottomUpPeg.Proofs.Derivation
import BottomUpPeg.Proofs.Lawful
import BottomUpPeg.Proofs.Rounds
import BottomUpPeg.Sample.Grammars

namespace BottomUpPeg

structure Key.Proper (g : Grammar) (input : Input) (k : Key) : Prop where
  memoized : (g.shape k.clause).isMemoized = true
  start_le : k.start ≤ input.size

theorem Shape.not_isMemoized_cases {s : Shape} (hterminal : ∀ t, s ≠ .terminal t)
    (hnegative : ∀ slot, s ≠ .unary .notFollowedBy slot) : s.isMemoized = true := by
  cases s with
  | terminal t => exact absurd rfl (hterminal t)
  | group kind slots => rfl
  | unary kind slot =>
      cases kind with
      | notFollowedBy => exact absurd rfl (hnegative slot)
      | oneOrMore | followedBy => rfl

section Reads

variable {g : Grammar} {input : Input}

theorem Grammar.lookupReadsWithin_proper (fuel c pos : Nat) (hpos : pos ≤ input.size) :
    ∀ k ∈ g.lookupReadsWithin fuel c pos, k.Proper g input := by
  induction fuel generalizing c with
  | zero => simp [lookupReadsWithin]
  | succ fuel ih =>
      rw [lookupReadsWithin]
      split
      · simp
      · split
        · simp
        · exact ih _
      · rename_i hterminal hnegative
        intro k hk
        rw [List.mem_singleton.mp hk]
        exact ⟨Shape.not_isMemoized_cases hterminal hnegative, hpos⟩

def Look.ProperReads (g : Grammar) (input : Input) (reads : Nat → Nat → List Key) : Prop :=
  ∀ c pos, pos ≤ input.size → ∀ k ∈ reads c pos, k.Proper g input

variable {look : Look} {reads : Nat → Nat → List Key}

theorem Look.chainReads_proper (hlook : look.Sound g input) (hreads : ProperReads g input reads)
    (slots : List Slot) {pos : Nat} (hpos : pos ≤ input.size) :
    ∀ k ∈ look.chainReads reads slots pos, k.Proper g input := by
  induction slots generalizing pos with
  | nil => simp [chainReads]
  | cons s slots ih =>
      intro k hk
      rw [chainReads, List.mem_append] at hk
      rcases hk with hk | hk
      · exact hreads _ _ hpos k hk
      · split at hk
        · cases hk
        · rename_i m hm
          exact ih (hlook _ _ _ hpos hm).wellFormed.stop_le k hk

theorem Look.firstReads_proper (hreads : ProperReads g input reads) (slots : List Slot) {pos : Nat}
    (hpos : pos ≤ input.size) : ∀ k ∈ look.firstReads reads pos slots, k.Proper g input := by
  induction slots with
  | nil => simp [firstReads]
  | cons s slots ih =>
      intro k hk
      rw [firstReads, List.mem_append] at hk
      rcases hk with hk | hk
      · exact hreads _ _ hpos k hk
      · split at hk
        · exact ih k hk
        · cases hk

theorem Look.repeatedReads_proper (hlook : look.Sound g input) (hreads : ProperReads g input reads)
    (c : Nat) (slot : Slot) {pos : Nat} (hpos : pos ≤ input.size) :
    ∀ k ∈ look.repeatedReads reads c slot pos, k.Proper g input := by
  intro k hk
  rw [repeatedReads, List.mem_append] at hk
  rcases hk with hk | hk
  · exact hreads _ _ hpos k hk
  · split at hk
    · cases hk
    · rename_i head hhead
      split at hk
      · cases hk
      · exact hreads _ _ (hlook _ _ _ hpos hhead).wellFormed.stop_le k hk

theorem Shape.stepReads_proper (hlook : look.Sound g input) (hreads : Look.ProperReads g input reads)
    (c : Nat) {pos : Nat} (hpos : pos ≤ input.size) (s : Shape) :
    ∀ k ∈ s.stepReads look reads c pos, k.Proper g input := by
  cases s with
  | terminal t => simp [stepReads]
  | group kind slots =>
      cases kind with
      | seq => exact look.chainReads_proper hlook hreads slots hpos
      | first => exact look.firstReads_proper hreads slots hpos
      | longest =>
          intro k hk
          obtain ⟨s, _, hk⟩ := List.mem_flatMap.mp hk
          exact hreads _ _ hpos k hk
  | unary kind slot =>
      cases kind with
      | oneOrMore => exact look.repeatedReads_proper hlook hreads c slot hpos
      | followedBy | notFollowedBy => exact hreads _ _ hpos

theorem Grammar.evaluateReads_proper {view : View} (hview : SoundView g input view) {k : Key}
    (hk : k.start ≤ input.size) : ∀ r ∈ g.evaluateReads input view k, r.Proper g input :=
  Shape.stepReads_proper (lookup_sound hview)
    (fun c _ hpos => lookupReadsWithin_proper g.size c _ hpos) k.clause hk _

end Reads

namespace Match

mutual

theorem WellFormed.of_mem_descendants {g : Grammar} {input : Input} :
    (m : Match) → WellFormed g input m → ∀ x ∈ m.descendants, WellFormed g input x
  | ⟨c, start, length, index, parts⟩, h => by
      intro x hx
      rw [descendants] at hx
      rcases List.mem_cons.mp hx with rfl | hx
      · exact h
      · refine of_mem_descendantsAll parts ?_ x hx
        cases h with
        | terminal | lookahead => simp
        | seq _ _ _ _ hall => exact hall
        | choice _ _ _ _ hm | once _ _ hm => simpa using hm
        | more _ _ _ _ _ _ hm hrest => simpa using ⟨hm, hrest⟩

theorem WellFormed.of_mem_descendantsAll {g : Grammar} {input : Input} :
    (ms : List Match) → (∀ m ∈ ms, WellFormed g input m) →
      ∀ x ∈ descendantsAll ms, WellFormed g input x
  | [], _ => by simp [descendantsAll]
  | m :: ms, h => by
      intro x hx
      rw [descendantsAll, List.mem_append] at hx
      rcases hx with hx | hx
      · exact of_mem_descendantsAll ms (fun n hn => h n (List.mem_cons_of_mem _ hn)) x hx
      · exact of_mem_descendants m (h m (List.mem_cons_self ..)) x hx

end

end Match

theorem Lexing.scan_valid {g : Grammar} {input : Input} (c fuel pos : Nat) :
    (∀ cut ∈ (scan g input c fuel pos).cuts, cut ≤ input.size) ∧
      ∀ m ∈ (scan g input c fuel pos).lexemes, m.WellFormed g input := by
  induction fuel generalizing pos with
  | zero => simp [scan]
  | succ fuel ih =>
      rw [scan]
      split
      · rename_i hpos
        split
        · rename_i m hm
          obtain ⟨hm, _⟩ := Option.filter_eq_some_iff.mp hm
          obtain ⟨_, hstart, hwf⟩ := Grammar.topDown_sound c pos m (Nat.le_of_lt hpos) hm
          have hstop := hwf.stop_le
          rw [Match.stop, hstart] at hstop
          obtain ⟨hcuts, hlexemes⟩ := ih (pos + m.length)
          exact ⟨List.forall_mem_cons.mpr ⟨hstop, hcuts⟩, List.forall_mem_cons.mpr ⟨hwf, hlexemes⟩⟩
        · obtain ⟨hcuts, hlexemes⟩ := ih (pos + 1)
          exact ⟨List.forall_mem_cons.mpr ⟨hpos, hcuts⟩, hlexemes⟩
      · simp

theorem Grammar.lex_valid (g : Grammar) (input : Input) :
    (∀ cut ∈ (g.lex input).cuts, cut ≤ input.size) ∧
      ∀ m ∈ (g.lex input).lexemes, m.WellFormed g input := by
  rw [lex]
  split
  · exact ⟨fun cut hcut => Nat.le_of_lt_succ (List.mem_range.mp hcut), by simp⟩
  · rename_i rule _
    obtain ⟨hcuts, hlexemes⟩ := Lexing.scan_valid (g := g) rule.clause input.size 0
    exact ⟨List.forall_mem_cons.mpr ⟨Nat.zero_le _, hcuts⟩, hlexemes⟩

structure Proposal.Valid (g : Grammar) (input : Input) (p : Proposal) : Prop where
  key : p.key.Proper g input
  found : ∀ m, p.found = some m → m.Fits g input p.key
  reads : ∀ k ∈ p.reads, k.Proper g input

namespace State

/-- All that a state holds is about proper keys, and every match it keeps is a well-formed match of
its key. -/
structure Valid (g : Grammar) (input : Input) (s : State) : Prop where
  keys : ∀ k ∈ s.table, k.Proper g input
  readers : ∀ k, ∀ x ∈ (s.table.entry k).readers, x.Proper g input
  best : g.SoundView input s.table.view
  active : ∀ k ∈ s.active, k.Proper g input

variable {g : Grammar} {input : Input}

theorem Valid.commit (hg : g.Lawful) {s : State} (hs : s.Valid g input) {ps : List Proposal}
    (hps : ∀ p ∈ ps, p.Valid g input) : (s.commit g ps).Valid g input := by
  have htaken := commit_taken g ps s
  have hreaders : ∀ k, ∀ x ∈ ((s.noted ps).table.entry k).readers, x.Proper g input := by
    intro k x hx
    rcases (mem_readers_noted ps s k x).mp hx with ⟨p, hp, _, rfl⟩ | hx
    · exact (hps p hp).key
    · exact hs.readers k x hx
  refine ⟨fun k hk => ?_, fun k x hx => ?_, fun k m hm => ?_, fun x hx => ?_⟩
  · rcases htaken.mem k hk with hk | ⟨p, hp, rfl⟩
    · rcases (mem_noted ps s k).mp hk with ⟨p, hp, hk⟩ | hk
      · exact (hps p hp).reads k hk
      · exact hs.keys k hk
    · exact (hps p hp).key
  · rw [htaken.readers] at hx
    exact hreaders k x hx
  · rcases htaken.best k m hm with hm | ⟨p, hp, rfl, hfound⟩
    · rw [view_noted] at hm
      exact hs.best k m hm
    · exact (hps p hp).found m hfound
  · rcases htaken.active x hx with hx | ⟨k, _, ⟨p, hp, rfl⟩, hdep⟩
    · exact hs.active x hx
    · rcases mem_dependents.mp hdep with hx | ⟨c, hc, rfl⟩
      · exact hreaders _ x hx
      · exact ⟨((hg.mem_seedParents _ c).mp hc).1, (hps p hp).key.start_le⟩

theorem seeds_proper (hg : g.Lawful) {positions : List Nat}
    (hpos : ∀ pos ∈ positions, pos ≤ input.size) :
    ∀ k ∈ seeds g input positions, k.Proper g input := by
  intro k hk
  simp only [seeds, List.mem_flatMap] at hk
  obtain ⟨c, _, pos, hmem, hk⟩ := hk
  split at hk
  · obtain ⟨parent, hparent, rfl⟩ := List.mem_map.mp hk
    exact ⟨((hg.mem_seedParents c parent).mp hparent).1, hpos pos hmem⟩
  · cases hk

theorem lexemeProposals_valid {lexemes : List Match} (h : ∀ m ∈ lexemes, m.WellFormed g input) :
    ∀ p ∈ lexemeProposals g lexemes, p.Valid g input := by
  intro p hp
  simp only [lexemeProposals, List.mem_map, List.mem_filter] at hp
  obtain ⟨m, ⟨hm, hmemoized⟩, rfl⟩ := hp
  have hwf := Match.WellFormed.of_mem_descendantsAll lexemes h m hm
  have hstop := hwf.stop_le
  refine ⟨⟨hmemoized, ?_⟩, ?_, by simp [Proposal.ofMatch]⟩
  · simp only [Match.stop, Proposal.ofMatch, Match.key] at hstop ⊢
    omega
  · intro n hn
    cases hn
    exact ⟨rfl, rfl, hwf⟩

theorem initial_valid (hg : g.Lawful) (input : Input) : (initial g input).Valid g input := by
  obtain ⟨hcuts, hlexemes⟩ := g.lex_valid input
  rw [initial_eq]
  apply Valid.commit hg _ (lexemeProposals_valid hlexemes)
  refine ⟨fun k hk => ?_, fun k x hx => ?_, fun k m hm => ?_, fun k hk => ?_⟩
  · rw [table_seeded] at hk
    exact absurd hk Std.ExtTreeMap.not_mem_empty
  · rw [entry_seeded] at hx
    exact absurd hx Std.ExtTreeSet.not_mem_empty
  · rw [view_seeded] at hm
    cases hm
  · exact seeds_proper hg hcuts k (mem_active_seeded.mp hk)

theorem Valid.round (hg : g.Lawful) {s : State} (hs : s.Valid g input) :
    (s.round g input).Valid g input := by
  rw [round_eq]
  apply Valid.commit hg
  · exact ⟨hs.keys, hs.readers, hs.best, fun k hk => hs.active k (mem_waiting.mp hk).1⟩
  · intro p hp
    obtain ⟨k, hk, rfl⟩ := mem_proposals.mp hp
    have hproper := hs.active k (mem_due.mp hk).1
    exact ⟨hproper, fun m hm => Grammar.evaluate_fits hs.best hproper.start_le hm,
      Grammar.evaluateReads_proper hs.best hproper.start_le⟩

theorem advance_valid (hg : g.Lawful) (limit : Nat) :
    ((initial g input).advance g input limit).Valid g input :=
  advance_invariant (fun _ hs _ => hs.round hg) (initial_valid hg input) limit

end State

theorem Parse.ofString_valid {g : Grammar} (hg : g.Lawful) (input : String) (limit : Option Nat) :
    (ofString g input limit).state.Valid g (Input.ofString input) := by
  rw [(state_ofString g input limit).1]
  exact State.advance_valid hg _

theorem Parse.best?_ofString (g : Grammar) (input : String) (limit : Option Nat) {pos : Nat}
    (hpos : pos ≤ (Input.ofString input).size) (c : Nat) :
    (ofString g input limit).best? c pos =
      g.lookup (Input.ofString input) (ofString g input limit).table.view c pos := by
  rw [best?, input_ofString, grammar_ofString, if_neg (Nat.not_lt.mpr hpos)]

theorem Parse.matches_are_well_formed {source : Source} {g : Grammar}
    (h : source.compile = .ok g) (input : String) (limit : Option Nat) :
    (∀ k ∈ (ofString g input limit).table, k.clause < g.size ∧
        (g.shape k.clause).isMemoized = true ∧ k.start ≤ (Input.ofString input).size) ∧
      (∀ k m, (ofString g input limit).table.view k = some m →
        m.Fits g (Input.ofString input) k ∧ m.stop ≤ (Input.ofString input).size) ∧
      ∀ c pos m, pos ≤ (Input.ofString input).size → (ofString g input limit).best? c pos = some m →
        m.Fits g (Input.ofString input) ⟨c, pos⟩ ∧ m.stop ≤ (Input.ofString input).size := by
  have hvalid := ofString_valid (Source.compile_lawful h) input limit
  refine ⟨fun k hk => ?_, fun k m hm => ?_, fun c pos m hpos hm => ?_⟩
  · have hproper := hvalid.keys k hk
    exact ⟨Grammar.lt_size_of_isMemoized hproper.memoized, hproper.memoized, hproper.start_le⟩
  · have hfits := hvalid.best k m hm
    exact ⟨hfits, hfits.wellFormed.stop_le⟩
  · rw [best?, input_ofString, grammar_ofString, if_neg (Nat.not_lt.mpr hpos)] at hm
    have hfits := Grammar.lookup_sound hvalid.best c pos m hpos hm
    exact ⟨hfits, hfits.wellFormed.stop_le⟩

theorem Parse.words_are_well_formed :
    ∃ g m, Sample.wordList.compile = .ok g ∧ (ofString g "ab c" (some 8)).best? 8 0 = some m ∧
      m.Fits g (Input.ofString "ab c") ⟨8, 0⟩ := by
  have hfound : (Sample.wordList.compile.toOption.bind fun g =>
      (ofString g "ab c" (some 8)).best? 8 0).isSome = true := by decide +kernel
  cases hg : Sample.wordList.compile with
  | error e => simp [hg, Except.toOption] at hfound
  | ok g =>
      obtain ⟨m, hm⟩ := Option.isSome_iff_exists.mp (by simpa [hg, Except.toOption] using hfound)
      have hpos : 0 ≤ (Input.ofString "ab c").size := Nat.zero_le _
      exact ⟨g, m, rfl, hm, ((matches_are_well_formed hg "ab c" (some 8)).2.2 8 0 m hpos hm).1⟩

end BottomUpPeg
