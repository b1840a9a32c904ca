import BottomUpPeg.Proofs.Agreement
import BottomUpPeg.Proofs.Strata
import BottomUpPeg.Proofs.Vacancy

namespace BottomUpPeg

namespace Grammar

variable {g : Grammar} {input : Input}

theorem lookupWithin_stable (hg : g.Lawful) (view : View) {fuel fuel' c : Nat} {path : List Nat}
    (hc : c < g.size) (hpath : ∀ v ∈ path, v < g.size ∧ (g.clause c).stratum < (g.clause v).stratum)
    (hnodup : path.Nodup) (hfuel : g.size ≤ path.length + fuel) (hle : fuel ≤ fuel') (pos : Nat) :
    g.lookupWithin input view fuel c pos = g.lookupWithin input view fuel' c pos := by
  have hstep : (c :: path).Nodup :=
    List.nodup_cons.mpr ⟨fun hmem => Nat.lt_irrefl _ (hpath c hmem).2, hnodup⟩
  cases fuel with
  | zero =>
      have hcount := Graph.length_le_of_nodup hstep
        (List.forall_mem_cons.mpr ⟨hc, fun v hv => (hpath v hv).1⟩)
      rw [List.length_cons] at hcount
      omega
  | succ fuel =>
      obtain ⟨fuel', rfl⟩ := Nat.exists_eq_add_one_of_ne_zero (n := fuel') (by omega)
      rw [lookupWithin, lookupWithin]
      split
      · rfl
      · rename_i slot hshape
        cases hacyclic : (g.clause slot.clause).acyclic with
        | true => rfl
        | false =>
            -- The strata fall along the path, so that no clause stands on it twice.
            have hlt := hg.stratum_lt c slot hshape hacyclic
            have hinner := lookupWithin_stable hg view (hg.bounded c _ (mem_next_of_unary hshape))
              (List.forall_mem_cons.mpr
                ⟨⟨hc, hlt⟩, fun v hv => ⟨(hpath v hv).1, hlt.trans (hpath v hv).2⟩⟩)
              hstep (by rw [List.length_cons]; omega) (Nat.le_of_succ_le_succ hle) pos
            simp only [Bool.false_eq_true, if_false, hinner]
      · rfl

theorem lookup_negative_of_cyclic (hg : g.Lawful) {n : Nat} {slot : Slot}
    (hshape : g.shape n = .unary .notFollowedBy slot)
    (hcyclic : (g.clause slot.clause).acyclic = false) (view : View) (pos : Nat) :
    g.lookup input view n pos =
      if (g.lookup input view slot.clause pos).isSome then none else some (Match.leaf n pos 0) := by
  have hnext := mem_next_of_unary hshape
  have hlt := lt_size_of_mem_next hnext
  obtain ⟨size, hsize⟩ := Nat.exists_eq_add_one_of_ne_zero (Nat.ne_zero_of_lt hlt)
  have hbelow : ∀ v ∈ [n], v < g.size ∧ (g.clause slot.clause).stratum < (g.clause v).stratum := by
    simpa [hlt] using hg.stratum_lt n slot hshape hcyclic
  have hinner : g.lookupWithin input view size slot.clause pos =
      g.lookup input view slot.clause pos :=
    lookupWithin_stable hg view (hg.bounded n _ hnext) hbelow (List.nodup_singleton n)
      (by rw [List.length_singleton]; omega) (by omega) pos
  rw [lookup, hsize, lookupWithin, hshape]
  cases hfound : g.lookup input view slot.clause pos <;> simp [hcyclic, hinner, hfound]

theorem nested_of_late (hg : g.Lawful) {view : View} {j pos : Nat} (hnegative : g.Negative j)
    (hfirst : g.lookup input (fun _ => none) j pos = none)
    (hlast : g.lookup input view j pos ≠ none) :
    ∃ slot inner, g.shape j = .unary .notFollowedBy slot ∧
      g.shape slot.clause = .unary .notFollowedBy inner ∧
      (g.clause slot.clause).acyclic = false := by
  obtain ⟨slot, hshape⟩ := hnegative
  have hlt := hg.bounded j _ (mem_next_of_unary hshape)
  cases hacyclic : (g.clause slot.clause).acyclic with
  | true =>
      rw [lookup_negative_of_acyclic hshape hacyclic] at hfirst hlast
      exact absurd hfirst hlast
  | false =>
      rw [lookup_negative_of_cyclic hg hshape hacyclic] at hfirst hlast
      have hinner : g.lookup input view slot.clause pos = none := by
        cases hm : g.lookup input view slot.clause pos with
        | none => rfl
        | some m =>
            rw [hm] at hlast
            exact absurd rfl hlast
      have hkept : (g.shape slot.clause).isMemoized = true → False := by
        intro hmemoized
        rw [lookup_of_isMemoized hmemoized, Option.or_eq_none_iff] at hinner
        rw [lookup_of_isMemoized hmemoized, Option.none_or, hinner.2] at hfirst
        cases hfirst
      cases hs : g.shape slot.clause with
      | terminal t =>
          rw [lookup_terminal hlt hs] at hinner
          rw [lookup_terminal hlt hs, hinner] at hfirst
          cases hfirst
      | group kind slots => exact (hkept (by rw [hs]; rfl)).elim
      | unary kind inner =>
          cases kind with
          | oneOrMore | followedBy => exact (hkept (by rw [hs]; rfl)).elim
          | notFollowedBy => exact ⟨slot, inner, hshape, hs, hacyclic⟩

theorem always_of_chain (hg : g.Lawful) {look : Look} (hlook : look.Sound g input)
    {slots : List Slot} {pos stop : Nat} {parts : List Match} (hpos : pos ≤ input.size)
    (h : ∀ j ∈ Shape.leading g.zero slots, ∀ x, look j pos = some x →
      (g.clause j).always = true ∧ x.length = 0)
    (hchain : look.chain slots pos = some (parts, stop)) :
    ∀ s ∈ slots, (g.clause s.clause).always = true := by
  induction slots generalizing parts stop with
  | nil => simp
  | cons s slots ih =>
      rw [Look.chain] at hchain
      split at hchain
      · cases hchain
      rename_i x hx
      split at hchain
      · cases hchain
      rename_i rest last hrest
      have hhead : s.clause ∈ Shape.leading g.zero (s :: slots) := by
        rw [Shape.leading]
        split <;> simp
      obtain ⟨halways, hlength⟩ := h s.clause hhead x hx
      have hstop : x.stop = pos := by
        rw [Match.stop, hlength, (hlook _ _ _ hpos hx).start_eq]
        rfl
      have hzero : g.zero s.clause = true := hg.coherent s.clause halways
      rw [hstop] at hrest
      refine List.forall_mem_cons.mpr ⟨halways, ih (fun j hj => h j ?_) hrest⟩
      rw [Shape.leading, if_pos hzero]
      exact List.mem_cons_of_mem _ hj

theorem always_of_step (hg : g.Lawful) {look : Look} (hlook : look.Sound g input)
    {tail : Nat → Option Match} {c pos : Nat} (hmemoized : (g.shape c).isMemoized = true)
    (hpos : pos ≤ input.size)
    (h : ∀ j ∈ (g.shape c).seedChildren g.zero, ∀ x, look j pos = some x →
      (g.clause j).always = true ∧ x.length = 0)
    {m : Match} (hstep : (g.shape c).step input look tail c pos = some m) :
    (g.clause c).always = true := by
  have hflags : (g.clause c).always = ((g.shape c).flags g.flags).always :=
    congrArg Flags.always (hg.flags_eq c (lt_size_of_isMemoized hmemoized))
  have hsome := Option.isSome_of_eq_some hstep
  rw [hflags]
  cases hshape : g.shape c with
  | terminal t =>
      rw [hshape] at hmemoized
      cases hmemoized
  | group kind slots =>
      rw [hshape] at h hstep hsome
      have hany : (slots.any fun s => (look s.clause pos).isSome) = true →
          kind ≠ .seq → (slots.any fun s => (g.flags s.clause).always) = true := by
        intro hfound hkind
        obtain ⟨s, hs, hx⟩ := List.any_eq_true.mp hfound
        obtain ⟨x, hx⟩ := Option.isSome_iff_exists.mp hx
        refine List.any_eq_true.mpr ⟨s, hs, (h s.clause ?_ x hx).1⟩
        cases kind with
        | seq => exact absurd rfl hkind
        | first | longest => exact List.mem_map_of_mem hs
      cases kind with
      | seq =>
          obtain ⟨⟨parts, stop⟩, hchain, _⟩ := Option.map_eq_some_iff.mp hstep
          exact List.all_eq_true.mpr (always_of_chain hg hlook hpos h hchain)
      | first =>
          rw [Shape.step, Option.isSome_map, Look.first_isSome] at hsome
          exact hany hsome (by simp)
      | longest =>
          rw [Shape.step, Option.isSome_map, Look.longest_isSome] at hsome
          exact hany hsome (by simp)
  | unary kind slot =>
      rw [hshape] at h hsome
      have hslot : (look slot.clause pos).isSome = true → (g.clause slot.clause).always = true := by
        intro hx
        obtain ⟨x, hx⟩ := Option.isSome_iff_exists.mp hx
        exact (h slot.clause (List.mem_singleton_self _) x hx).1
      cases kind with
      | oneOrMore =>
          rw [Shape.step, Look.repeated_isSome] at hsome
          exact hslot hsome
      | followedBy =>
          rw [Shape.step, Option.isSome_map] at hsome
          exact hslot hsome
      | notFollowedBy =>
          rw [hshape] at hmemoized
          cases hmemoized

end Grammar

namespace State

variable {g : Grammar} {input : Input}

def Triggers (g : Grammar) (input : Input) (s : State) (j pos : Nat) : Prop :=
  s.table.view ⟨j, pos⟩ ≠ none ∨
    Grammar.isSeed (g.clause j) = true ∧ g.lookup input (fun _ => none) j pos ≠ none

def Triggered (g : Grammar) (input : Input) (s : State) (k : Key) : Prop :=
  ∃ j ∈ (g.shape k.clause).seedChildren g.zero, s.Triggers g input j k.start

theorem Triggered.mono {s s' : State} {k : Key} (h : s.Triggered g input k)
    (hview : ∀ k', s.table.view k' ≠ none → s'.table.view k' ≠ none) : s'.Triggered g input k := by
  obtain ⟨j, hj, htriggers⟩ := h
  exact ⟨j, hj, htriggers.imp_left (hview _)⟩

theorem triggered_of_seedParent (hg : g.Lawful) {s : State} {r : Key} {c : Nat}
    (hview : s.table.view r ≠ none) (hc : c ∈ (g.clause r.clause).seedParents) :
    s.Triggered g input ⟨c, r.start⟩ :=
  ⟨r.clause, ((hg.mem_seedParents _ c).mp hc).2, .inl hview⟩

structure Prompted (g : Grammar) (input : Input) (s : State) : Prop where
  active : ∀ k ∈ s.active, s.Triggered g input k
  readers : ∀ r, ∀ k ∈ (s.table.entry r).readers, s.Triggered g input k

theorem initial_prompted (hg : g.Lawful) (input : Input) : (initial g input).Prompted g input := by
  refine ⟨fun k hk => ?_, fun r k hk => absurd hk (readers_initial g input r k)⟩
  rw [initial_eq] at hk
  rcases (commit_taken g _ _).active k hk with hk | ⟨r, hview, _, hdep⟩
  · have hseed := mem_active_seeded.mp hk
    simp only [seeds, Grammar.seedClauses, List.mem_flatMap, List.mem_filter] at hseed
    obtain ⟨i, ⟨_, hi⟩, pos, _, hk⟩ := hseed
    split at hk
    · rename_i m hm
      obtain ⟨c, hc, rfl⟩ := List.mem_map.mp hk
      exact ⟨i, ((hg.mem_seedParents i c).mp hc).2, .inr ⟨hi, hm ▸ Option.some_ne_none m⟩⟩
    · cases hk
  · rcases mem_dependents.mp hdep with hreader | ⟨c, hc, rfl⟩
    · rw [← (commit_taken g _ _).readers, ← initial_eq] at hreader
      exact absurd hreader (readers_initial g input r k)
    · rw [← initial_eq] at hview
      exact triggered_of_seedParent hg hview hc

theorem Prompted.round (hg : g.Lawful) {s : State} (hs : s.Prompted g input) :
    (s.round g input).Prompted g input := by
  have htaken := round_taken g input s
  have hlater : ∀ {k : Key}, s.Triggered g input k → (s.round g input).Triggered g input k :=
    fun h => h.mono fun _ hview hnone => hview (view_eq_none_of_round hnone)
  have hreaders : ∀ r, ∀ k ∈ (((s.waiting g).noted (s.proposals g input)).table.entry r).readers,
      (s.round g input).Triggered g input k := by
    intro r k hk
    rcases (mem_readers_noted _ _ r k).mp hk with ⟨p, hp, _, rfl⟩ | hk
    · obtain ⟨k, hdue, rfl⟩ := mem_proposals.mp hp
      exact hlater (hs.active k (mem_due.mp hdue).1)
    · exact hlater (hs.readers r k hk)
  refine ⟨fun k hk => ?_, fun r k hk => ?_⟩
  · rcases htaken.active k hk with hk | ⟨r, hview, _, hdep⟩
    · exact hlater (hs.active k (mem_waiting.mp hk).1)
    · rcases mem_dependents.mp hdep with hk | ⟨c, hc, rfl⟩
      · exact hreaders r k hk
      · exact triggered_of_seedParent hg hview hc
  · rw [htaken.readers] at hk
    exact hreaders r k hk

end State

namespace Parse

variable {g : Grammar} {input : Input}

theorem run_prompted (hg : g.Lawful) (input : Input) (n : Nat) :
    (run g input n).state.Prompted g input :=
  State.advance_invariant (fun _ hs _ => hs.round hg) (State.initial_prompted hg input) n

theorem EverActive.triggered (hg : g.Lawful) {n : Nat} {k : Key} (h : EverActive g input n k) :
    (run g input n).state.Triggered g input k := by
  obtain ⟨i, hi, hk⟩ := h
  exact ((run_prompted hg input i).active k hk).mono fun _ => view_ne_none_mono hi

theorem everActive_of_triggered (hg : g.Lawful) (hlexical : g.lexical = none) {n : Nat} {k : Key}
    (hk : k.Proper g input) (h : (run g input n).state.Triggered g input k) :
    EverActive g input n k := by
  obtain ⟨j, hj, htriggers⟩ := h
  have hparent : k.clause ∈ (g.clause j).seedParents :=
    (hg.mem_seedParents j k.clause).mpr ⟨hk.memoized, hj⟩
  rcases htriggers with hview | ⟨hseed, hfound⟩
  · have hactive := everActive_of_seedParent hview hparent
    exact hactive
  · have hcut : k.start ∈ (g.lex input).cuts := by
      rw [Grammar.lex, hlexical]
      exact List.mem_range.mpr (Nat.lt_succ_of_le hk.start_le)
    exact everActive_of_seed hseed (hg.bounded _ j (Shape.seedChildren_subset _ _ j hj)) hcut hfound
      hparent

theorem lookup_of_not_triggers (hg : g.Lawful) {n : Nat} {k : Key} (hk : k.Proper g input) {j : Nat}
    (hj : j ∈ (g.shape k.clause).seedChildren g.zero)
    (hnot : ¬(run g input n).state.Triggers g input j k.start) {x : Match}
    (hx : g.lookup input (run g input n).table.view j k.start = some x) :
    (g.clause j).always = true ∧ x.length = 0 ∨
      g.Negative j ∧ g.lookup input (fun _ => none) j k.start = none := by
  have hparent : k.clause ∈ (g.clause j).seedParents :=
    (hg.mem_seedParents j k.clause).mpr ⟨hk.memoized, hj⟩
  have hlt : j < g.size := hg.bounded _ j (Shape.seedChildren_subset _ _ j hj)
  cases hmemoized : (g.shape j).isMemoized with
  | true =>
      have hview : (run g input n).table.view ⟨j, k.start⟩ = none := by
        by_contra hview
        exact hnot (.inl hview)
      rw [Grammar.lookup_of_isMemoized hmemoized, hview, Option.none_or] at hx
      exact .inl ⟨Grammar.always_of_emptyMatch hx, (Grammar.emptyMatch_fits hk.start_le _ _ _ hx).2⟩
  | false =>
      by_cases hnothing : g.shape j = .terminal .nothing
      · have hflags := congrArg Flags.always (hg.flags_eq j hlt)
        rw [hnothing] at hflags
        rw [Grammar.lookup_terminal hlt hnothing] at hx
        obtain ⟨length, hlength, rfl⟩ := Option.map_eq_some_iff.mp hx
        exact .inl ⟨hflags, ((Terminal.length?_eq_some_iff input k.start length _).mp hlength).1⟩
      · have hseed := isSeed_of_seedParents hmemoized hnothing hparent
        have hfirst : g.lookup input (fun _ => none) j k.start = none := by
          by_contra hfound
          exact hnot (.inr ⟨hseed, hfound⟩)
        refine .inr ⟨?_, hfirst⟩
        cases hshape : g.shape j with
        | terminal t =>
            rw [Grammar.lookup_terminal hlt hshape] at hfirst hx
            rw [hfirst] at hx
            cases hx
        | group kind slots =>
            rw [hshape] at hmemoized
            cases hmemoized
        | unary kind slot =>
            cases kind with
            | oneOrMore | followedBy =>
                rw [hshape] at hmemoized
                cases hmemoized
            | notFollowedBy => exact ⟨slot, hshape⟩

theorem exists_late_of_not_triggered (hg : g.Lawful) {n : Nat} {k : Key} (hk : k.Proper g input)
    (hnot : ¬(run g input n).state.Triggered g input k) (halways : (g.clause k.clause).always = false)
    {m : Match} (hm : g.evaluate input (run g input n).table.view k = some m) :
    ∃ j ∈ (g.shape k.clause).seedChildren g.zero, g.Negative j ∧
      g.lookup input (fun _ => none) j k.start = none ∧
      g.lookup input (run g input n).table.view j k.start ≠ none := by
  by_contra hnone
  push Not at hnone
  have hsound : Look.Sound g input (g.lookup input (run g input n).table.view) :=
    Grammar.lookup_sound (State.advance_valid hg n).best
  have hset := Grammar.always_of_step hg hsound hk.memoized hk.start_le (fun j hj x hx => ?_) hm
  · rw [halways] at hset
    cases hset
  · rcases lookup_of_not_triggers hg hk hj (fun h => hnot ⟨j, hj, h⟩) hx with h | ⟨hneg, hfirst⟩
    · exact h
    · rw [hnone j hj hneg hfirst] at hx
      cases hx

theorem lookup_eq_none_iff (hg : g.Lawful) (hlexical : g.lexical = none) {height : Nat}
    (hfounded : ∀ i, (g.flags i).Le (Flags.stage g.shape height i)) {n : Nat} {k : Key}
    (hconverged : (run g input n).state.converged = true) (hk : k.Proper g input) {m : Match}
    (hm : g.evaluate input (run g input n).table.view k = some m) :
    g.lookup input (run g input n).table.view k.clause k.start = none ↔
      (g.clause k.clause).always = false ∧ ¬(run g input n).state.Triggered g input k := by
  constructor
  · intro hnone
    have halways : (g.clause k.clause).always = false := by
      by_contra halways
      have hsome : (g.lookup input (run g input n).table.view k.clause k.start).isSome = true :=
        Grammar.lookup_isSome_of_flag hg hfounded hk.memoized (by simpa using halways) _
      rw [hnone] at hsome
      cases hsome
    refine ⟨halways, fun htriggered => ?_⟩
    have hview : (run g input n).table.view k = none := by
      rwa [Grammar.lookup_of_not_always hk.memoized halways] at hnone
    have hsettled := (everActive_of_triggered hg hlexical hk htriggered).settled_of_converged
      hconverged
    obtain ⟨kept, hkept, _⟩ := hsettled.exists_kept hm
    cases hkept.symm.trans hview
  · rintro ⟨halways, hnot⟩
    rw [Grammar.lookup_of_not_always hk.memoized halways]
    by_contra hview
    exact hnot ((everActive_of_view hlexical hview).triggered hg)

theorem match_is_missed_iff {source : Source} (h : source.compile = .ok g)
    (hlexical : g.lexical = none) (input : String) (limit : Option Nat)
    (hconverged : (ofString g input limit).converged = true) {c pos : Nat}
    (hmemoized : (g.shape c).isMemoized = true) (hpos : pos ≤ (Input.ofString input).size) {m : Match}
    (hm : g.evaluate (Input.ofString input) (ofString g input limit).table.view ⟨c, pos⟩ = some m) :
    let p := ofString g input limit
    (p.best? c pos = none ↔ (g.clause c).always = false ∧
      ∀ j ∈ (g.shape c).seedChildren g.zero, ¬p.state.Triggers g p.input j pos) ∧
    (p.best? c pos = none → ∃ j ∈ (g.shape c).seedChildren g.zero, ∃ slot inner,
      g.shape j = .unary .notFollowedBy slot ∧
      g.shape slot.clause = .unary .notFollowedBy inner ∧
      (g.clause slot.clause).acyclic = false ∧
      g.lookup p.input (fun _ => none) j pos = none ∧ p.best? j pos ≠ none) := by
  intro p
  have hg := Source.compile_lawful h
  obtain ⟨height, hfounded⟩ := Source.compile_founded h
  have hinput : p.input = Input.ofString input := input_ofString g input limit
  obtain ⟨n, hstate⟩ : ∃ n, p.state = (run g (Input.ofString input) n).state :=
    ⟨_, (state_ofString g input limit).1⟩
  have htable : p.table = (run g (Input.ofString input) n).table := congrArg State.table hstate
  have hended : (run g (Input.ofString input) n).state.converged = true := hstate ▸ hconverged
  have hproper : (⟨c, pos⟩ : Key).Proper g (Input.ofString input) := ⟨hmemoized, hpos⟩
  have hbest : ∀ j, p.best? j pos = g.lookup (Input.ofString input) p.table.view j pos :=
    best?_ofString g input limit hpos
  rw [show (ofString g input limit).table = _ from htable] at hm
  have hmissed := lookup_eq_none_iff hg hlexical hfounded hended hproper hm
  simp only [hbest, hinput, htable, hstate]
  refine ⟨?_, fun hnone => ?_⟩
  · simpa only [State.Triggered, not_exists, not_and] using hmissed
  · obtain ⟨halways, hnot⟩ := hmissed.mp hnone
    obtain ⟨j, hj, hnegative, hfirst, hlast⟩ :=
      exists_late_of_not_triggered hg hproper hnot halways hm
    obtain ⟨slot, inner, hshape, hinner, hcyclic⟩ :=
      Grammar.nested_of_late hg hnegative hfirst hlast
    exact ⟨j, hj, slot, inner, hshape, hinner, hcyclic, hfirst, hlast⟩

/-- A doubled negation whose clause is found only after the negations were tried. -/
def doubledNegation : Source where
  definitions := [
    .plain "S" (.followedBy (.notFollowedBy (.notFollowedBy (.reference "X")))),
    .plain "X" (.first [.seq [.reference "X", .char 'a'], .char 'a'])]
  lexical := none

theorem doubledNegation_run :
    ∃ g m, doubledNegation.compile = .ok g ∧ g.lexical = none ∧
      (ofString g "a" none).converged = true ∧ (g.shape 5).isMemoized = true ∧
      g.evaluate (Input.ofString "a") (ofString g "a" none).table.view ⟨5, 0⟩ = some m ∧
      (ofString g "a" none).best? 5 0 = none := by
  have hrun : (doubledNegation.compile.toOption.any fun g =>
      g.lexical.isNone && (run g (Input.ofString "a") 4).converged && (g.shape 5).isMemoized &&
        (g.evaluate (Input.ofString "a") (run g (Input.ofString "a") 4).table.view ⟨5, 0⟩).isSome &&
        ((run g (Input.ofString "a") 4).best? 5 0).isNone) = true := by
    decide +kernel
  cases hg : doubledNegation.compile with
  | error e => simp [hg, Except.toOption] at hrun
  | ok g =>
      simp only [hg, Except.toOption, Option.any_some, Bool.and_eq_true,
        Option.isNone_iff_eq_none] at hrun
      obtain ⟨⟨⟨⟨hlexical, hconverged⟩, hmemoized⟩, hevaluate⟩, hbest⟩ := hrun
      obtain ⟨m, hm⟩ := Option.isSome_iff_exists.mp hevaluate
      refine ⟨g, m, rfl, hlexical, ?_⟩
      rw [ofString_eq_run_of_converged hconverged]
      exact ⟨hconverged, hmemoized, hm, hbest⟩

theorem doubled_negation_comes_late :
    ∃ g j, doubledNegation.compile = .ok g ∧ j ∈ (g.shape 5).seedChildren g.zero ∧
      g.lookup (Input.ofString "a") (fun _ => none) j 0 = none ∧
      (ofString g "a" none).best? j 0 ≠ none := by
  obtain ⟨g, m, hg, hlexical, hconverged, hmemoized, hm, hbest⟩ := doubledNegation_run
  obtain ⟨j, hj, _, _, _, _, _, hfirst, hlast⟩ := (match_is_missed_iff hg hlexical "a" none
    hconverged hmemoized (Nat.zero_le _) hm).2 hbest
  rw [input_ofString] at hfirst
  exact ⟨g, j, hg, hj, hfirst, hlast⟩

theorem doubled_negation_is_missed :
    ∃ g, doubledNegation.compile = .ok g ∧ g.lexical = none ∧
      (ofString g "a" none).converged = true ∧
      ¬∀ c pos m, (g.shape c).isMemoized = true → pos ≤ (Input.ofString "a").size →
        g.evaluate (Input.ofString "a") (ofString g "a" none).table.view ⟨c, pos⟩ = some m →
        (ofString g "a" none).best? c pos ≠ none := by
  obtain ⟨g, m, hg, hlexical, hconverged, hmemoized, hm, hbest⟩ := doubledNegation_run
  exact ⟨g, hg, hlexical, hconverged, fun h => h 5 0 m hmemoized (Nat.zero_le _) hm hbest⟩

end Parse

end BottomUpPeg
