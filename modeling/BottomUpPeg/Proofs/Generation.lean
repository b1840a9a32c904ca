import BottomUpPeg.Proofs.Nesting
import BottomUpPeg.Proofs.Recurrence
import BottomUpPeg.Proofs.Sampling
import BottomUpPeg.Sample.Generate
import BottomUpPeg.Sample.Grammars

namespace BottomUpPeg

def Terminal.Holds (ch : Char) : Terminal → Prop
  | .chars set => set.contains ch = true
  | .literal text _ => ch ∈ text.toList
  | .nothing => False
  | .start => False

namespace Grammar

def Spells (g : Grammar) (root : Nat) (ch : Char) : Prop :=
  ∃ i t, Graph.Reaches g.next root i ∧ g.shape i = .terminal t ∧ t.Holds ch

def Overruns (g : Grammar) (root : Nat) (e : Overflow) : Prop :=
  ∃ i set n, Graph.Reaches g.next root i ∧ g.shape i = .terminal (.chars set) ∧ set.Overflows n e

end Grammar

namespace Sample

structure Expansion where
  out : Output
  depth : Nat
  parts : List Nat

def expand (g : Grammar) (limits : Limits) (depth : Nat) (out : Output) (clause : Nat) :
    Except Overflow Expansion :=
  if limits.maxDepth < depth then .ok ⟨out, depth, []⟩
  else
    let depth := if (g.clause clause).ruleNames.isEmpty then depth else depth + 1
    match g.shape clause with
    | .terminal (.chars set) =>
        (set.sample out.draw.1).map fun c => ⟨out.draw.2.write c.toList, depth, []⟩
    | .terminal (.literal text _) => .ok ⟨out.write text.toList, depth, []⟩
    | .terminal _ => .ok ⟨out, depth, []⟩
    | .group .seq slots => .ok ⟨out, depth, slots.map (·.clause)⟩
    | .group _ slots =>
        if slots.isEmpty then .ok ⟨out, depth, []⟩
        else
          let choice := pickAlternative limits depth slots.length out
          .ok ⟨choice.2, depth, (slots[choice.1]?.map (·.clause)).toList⟩
    | .unary .oneOrMore slot =>
        .ok ⟨out.draw.2, depth,
          List.replicate (1 + out.draw.1.toNat % max limits.maxRepetitions 1) slot.clause⟩
    | .unary _ _ => .ok ⟨out, depth, []⟩

/-- What comes of writing clauses one after the other, with no bound on how deep they stand inside
each other: an output or the sum that a draw fails at. -/
inductive Writes (g : Grammar) (limits : Limits) :
    Nat → Output → List Nat → Except Overflow Output → Prop
  | done {depth : Nat} {out : Output} : Writes g limits depth out [] (.ok out)
  | fails {depth c : Nat} {out : Output} {rest : List Nat} {e : Overflow} :
      expand g limits depth out c = .error e → Writes g limits depth out (c :: rest) (.error e)
  | failsInside {depth c : Nat} {out : Output} {rest : List Nat} {x : Expansion} {e : Overflow} :
      expand g limits depth out c = .ok x → Writes g limits x.depth x.out x.parts (.error e) →
      Writes g limits depth out (c :: rest) (.error e)
  | goesOn {depth c : Nat} {out out' : Output} {rest : List Nat} {x : Expansion}
      {result : Except Overflow Output} :
      expand g limits depth out c = .ok x → Writes g limits x.depth x.out x.parts (.ok out') →
      Writes g limits depth out' rest result → Writes g limits depth out (c :: rest) result

variable {g : Grammar} {limits : Limits} {depth c fuel : Nat} {out : Output}

theorem Writes.unique {cs : List Nat} {result result' : Except Overflow Output}
    (h : Writes g limits depth out cs result) (h' : Writes g limits depth out cs result') :
    result = result' := by
  induction h generalizing result' with
  | done =>
      cases h'
      rfl
  | fails hx =>
      cases h' with
      | fails hx' =>
          cases hx.symm.trans hx'
          rfl
      | failsInside hx' | goesOn hx' => cases hx.symm.trans hx'
  | failsInside hx _ ih =>
      cases h' with
      | fails hx' => cases hx.symm.trans hx'
      | failsInside hx' hin' =>
          cases hx.symm.trans hx'
          exact ih hin'
      | goesOn hx' hin' =>
          cases hx.symm.trans hx'
          cases ih hin'
  | goesOn hx _ _ ihin ih =>
      cases h' with
      | fails hx' => cases hx.symm.trans hx'
      | failsInside hx' hin' =>
          cases hx.symm.trans hx'
          cases ihin hin'
      | goesOn hx' hin' hrest' =>
          cases hx.symm.trans hx'
          cases ihin hin'
          exact ih hrest'

theorem Writes.cons {cs : List Nat} {out' : Output} {result : Except Overflow Output}
    (h : Writes g limits depth out [c] (.ok out')) (hrest : Writes g limits depth out' cs result) :
    Writes g limits depth out (c :: cs) result := by
  cases h with
  | goesOn hx hin hdone =>
      cases hdone
      exact .goesOn hx hin hrest

theorem Writes.cons_error {e : Overflow} (h : Writes g limits depth out [c] (.error e))
    (cs : List Nat) : Writes g limits depth out (c :: cs) (.error e) := by
  cases h with
  | fails hx => exact .fails hx
  | failsInside hx hin => exact .failsInside hx hin
  | goesOn _ _ hdone => cases hdone

theorem write_succ (g : Grammar) (limits : Limits) (fuel depth : Nat) (out : Output) (c : Nat) :
    write g limits (fuel + 1) depth out c =
      match expand g limits depth out c with
      | .error e => .error (.overflow e)
      | .ok x => x.parts.foldlM (write g limits fuel x.depth) x.out := by
  rw [write, expand]
  by_cases hdeep : limits.maxDepth < depth
  · rw [if_pos hdeep, if_pos hdeep]
    rfl
  · rw [if_neg hdeep, if_neg hdeep]
    cases g.shape c with
    | terminal t =>
        cases t with
        | chars set =>
            dsimp only
            cases set.sample out.draw.1 <;> rfl
        | literal | nothing | start => rfl
    | unary kind slot => cases kind <;> rfl
    | group kind slots =>
        generalize (if (g.clause c).ruleNames.isEmpty then depth else depth + 1) = inside
        cases kind with
        | seq => exact List.foldlM_map.symm
        | first | longest =>
            dsimp only
            split
            · rfl
            · cases slots[(pickAlternative limits inside slots.length out).1]? with
              | none => rfl
              | some s => exact (bind_pure _).symm

theorem expand_error {e : Overflow} (h : expand g limits depth out c = .error e) :
    ∃ set, g.shape c = .terminal (.chars set) ∧ set.Overflows out.draw.1 e := by
  rw [expand] at h
  split at h
  · cases h
  · dsimp only at h
    split at h
    · rename_i set hshape
      cases hsample : set.sample out.draw.1 with
      | error e' =>
          rw [hsample] at h
          cases h
          exact ⟨set, hshape, CharSet.overflows_of_sample hsample⟩
      | ok found =>
          rw [hsample] at h
          cases h
    all_goals first | cases h | (split at h <;> cases h)

structure Expansion.Proper (g : Grammar) (limits : Limits) (depth c : Nat) (out : Output)
    (x : Expansion) : Prop where
  le_of_part : x.parts ≠ [] → depth ≤ limits.maxDepth
  depth_eq : x.parts ≠ [] → x.depth = if (g.clause c).ruleNames.isEmpty then depth else depth + 1
  subset : ∀ j ∈ x.parts, j ∈ g.next c
  written : ∀ ch ∈ x.out.chars, ch ∈ out.chars ∨ ∃ t, g.shape c = .terminal t ∧ t.Holds ch

theorem chars_pickAlternative (limits : Limits) (depth count : Nat) (out : Output) :
    (pickAlternative limits depth count out).2.chars = out.chars := by
  rw [pickAlternative]
  split <;> rfl

theorem Expansion.Proper.leaf {out' : Output}
    (h : ∀ ch ∈ out'.chars, ch ∈ out.chars ∨ ∃ t, g.shape c = .terminal t ∧ t.Holds ch) (d : Nat) :
    Proper g limits depth c out ⟨out', d, []⟩ :=
  ⟨by simp, by simp, by simp, h⟩

theorem Expansion.Proper.inside {out' : Output} {parts : List Nat}
    (hle : depth ≤ limits.maxDepth) (hparts : ∀ j ∈ parts, j ∈ g.next c)
    (hout : out'.chars = out.chars) :
    Proper g limits depth c out
      ⟨out', if (g.clause c).ruleNames.isEmpty then depth else depth + 1, parts⟩ :=
  ⟨fun _ => hle, fun _ => rfl, hparts, fun _ hch => .inl (hout ▸ hch)⟩

theorem expand_proper {x : Expansion} (h : expand g limits depth out c = .ok x) :
    x.Proper g limits depth c out := by
  have hsame : ∀ ch ∈ out.chars, ch ∈ out.chars ∨ ∃ t, g.shape c = .terminal t ∧ t.Holds ch :=
    fun _ => .inl
  rw [expand] at h
  split at h
  · cases h
    exact .leaf hsame _
  · rename_i hdeep
    have hle := Nat.le_of_not_lt hdeep
    cases hshape : g.shape c with
    | terminal t =>
        cases t with
        | chars set =>
            simp only [hshape] at h
            cases hsample : set.sample out.draw.1 with
            | error e => simp [hsample, Except.map] at h
            | ok found =>
                rw [hsample] at h
                cases h
                refine .leaf (fun ch hch => ?_) _
                rcases List.mem_append.mp hch with hch | hch
                · obtain rfl : found = some ch := by simpa using hch
                  exact .inr ⟨_, hshape, CharSet.contains_of_sample hsample⟩
                · exact .inl hch
        | literal text ignoreCase =>
            simp only [hshape] at h
            cases h
            refine .leaf (fun ch hch => ?_) _
            rcases List.mem_append.mp hch with hch | hch
            · exact .inr ⟨_, hshape, List.mem_reverse.mp hch⟩
            · exact .inl hch
        | nothing | start =>
            simp only [hshape] at h
            cases h
            exact .leaf hsame _
    | group kind slots =>
        have hnext : ∀ s ∈ slots, s.clause ∈ g.next c :=
          fun s hs => Grammar.mem_next_of_group hshape hs
        cases kind with
        | seq =>
            simp only [hshape] at h
            cases h
            exact .inside hle (List.forall_mem_map.mpr hnext) rfl
        | first | longest =>
            simp only [hshape] at h
            split at h
            · cases h
              exact .leaf hsame _
            · cases h
              refine .inside hle (fun j hj => ?_) (chars_pickAlternative ..)
              obtain ⟨s, hs, rfl⟩ := Option.map_eq_some_iff.mp (Option.mem_toList.mp hj)
              exact hnext s (List.mem_of_getElem? hs)
    | unary kind slot =>
        cases kind with
        | oneOrMore =>
            simp only [hshape] at h
            cases h
            refine .inside hle (fun j hj => ?_) rfl
            rw [List.eq_of_mem_replicate hj]
            exact Grammar.mem_next_of_unary hshape
        | followedBy | notFollowedBy =>
            simp only [hshape] at h
            cases h
            exact .leaf hsame _

theorem Writes.spelled {root : Nat} {cs : List Nat} {result : Except Overflow Output}
    (h : Writes g limits depth out cs result) (hroot : ∀ c ∈ cs, Graph.Reaches g.next root c) :
    match result with
    | .ok out' => ∀ ch ∈ out'.chars, ch ∈ out.chars ∨ g.Spells root ch
    | .error e => g.Overruns root e := by
  have hinside : ∀ {depth c out x}, expand g limits depth out c = .ok x →
      Graph.Reaches g.next root c → ∀ j ∈ x.parts, Graph.Reaches g.next root j :=
    fun hx hc j hj => hc.tail ((expand_proper hx).subset j hj)
  induction h with
  | done => exact fun _ => .inl
  | fails hx =>
      obtain ⟨set, hshape, hoverflows⟩ := expand_error hx
      exact ⟨_, set, _, hroot _ (List.mem_cons_self ..), hshape, hoverflows⟩
  | failsInside hx _ ih => exact ih (hinside hx (hroot _ (List.mem_cons_self ..)))
  | @goesOn depth c out out' rest x result hx _ _ ihin ih =>
      obtain ⟨hc, hrest⟩ := List.forall_mem_cons.mp hroot
      have hin : ∀ ch ∈ out'.chars, ch ∈ out.chars ∨ g.Spells root ch := by
        intro ch hch
        rcases ihin (hinside hx hc) ch hch with hch | hch
        · refine ((expand_proper hx).written ch hch).imp_right fun ⟨t, hshape, ht⟩ => ?_
          exact ⟨c, t, hc, hshape, ht⟩
        · exact .inr hch
      have hout := ih hrest
      cases result with
      | error e => exact hout
      | ok out'' =>
          intro ch hch
          exact (hout ch hch).elim (hin ch) .inr

def need (g : Grammar) (limits : Limits) (depth c : Nat) : Nat :=
  if limits.maxDepth < depth then 1
  else (limits.maxDepth - depth) * (g.size + 1) + Graph.rank g.inner g.size c + 2

theorem need_lt {source : Source} (hg : source.compile = .ok g) {x : Expansion}
    (h : expand g limits depth out c = .ok x) {j : Nat} (hj : j ∈ x.parts) :
    need g limits x.depth j < need g limits depth c := by
  have hbounded := Grammar.inner_bounded (Source.compile_lawful hg)
  have hproper := expand_proper h
  have hparts : x.parts ≠ [] := List.ne_nil_of_mem hj
  have hle := hproper.le_of_part hparts
  have hrank := Graph.rank_le hbounded j
  rw [hproper.depth_eq hparts, need, need, if_neg (Nat.not_lt.mpr hle)]
  split
  · rename_i hunnamed
    have hinner : j ∈ g.inner c :=
      Grammar.mem_inner.mpr ⟨List.isEmpty_iff.mp hunnamed, hproper.subset j hj⟩
    have hlt := Graph.rank_lt hbounded (Grammar.not_leadsTo_inner_self hg) hinner
    rw [if_neg (Nat.not_lt.mpr hle)]
    omega
  · split
    · omega
    · have hstep : limits.maxDepth - depth = (limits.maxDepth - (depth + 1)) + 1 := by omega
      rw [hstep, Nat.add_mul]
      omega

theorem exists_writes_parts {cs : List Nat}
    (h : ∀ c ∈ cs, ∀ out, ∃ result, write g limits fuel depth out c = result.mapError .overflow ∧
      Writes g limits depth out [c] result) (out : Output) :
    ∃ result, cs.foldlM (write g limits fuel depth) out = result.mapError .overflow ∧
      Writes g limits depth out cs result := by
  induction cs generalizing out with
  | nil => exact ⟨.ok out, rfl, .done⟩
  | cons c cs ih =>
      obtain ⟨hc, h⟩ := List.forall_mem_cons.mp h
      obtain ⟨result, hwrite, hwrites⟩ := hc out
      rw [List.foldlM_cons, hwrite]
      cases result with
      | error e => exact ⟨.error e, rfl, hwrites.cons_error cs⟩
      | ok out' =>
          obtain ⟨result, hfold, hrest⟩ := ih h out'
          exact ⟨result, hfold, hwrites.cons hrest⟩

theorem exists_writes {source : Source} (hg : source.compile = .ok g)
    (hfuel : need g limits depth c ≤ fuel) (out : Output) :
    ∃ result, write g limits fuel depth out c = result.mapError .overflow ∧
      Writes g limits depth out [c] result := by
  induction fuel generalizing depth c out with
  | zero =>
      rw [need] at hfuel
      split at hfuel <;> omega
  | succ fuel ih =>
      rw [write_succ]
      cases hx : expand g limits depth out c with
      | error e => exact ⟨.error e, rfl, .fails hx⟩
      | ok x =>
          have hparts : ∀ j ∈ x.parts, need g limits x.depth j ≤ fuel := fun j hj =>
            Nat.le_of_lt_succ (Nat.lt_of_lt_of_le (need_lt hg hx hj) hfuel)
          obtain ⟨result, hfold, hwrites⟩ :=
            exists_writes_parts (fun j hj => ih (hparts j hj)) x.out
          refine ⟨result, hfold, ?_⟩
          cases result with
          | error e => exact .failsInside hx hwrites
          | ok out' => exact .goesOn hx hwrites .done

theorem need_start_le (g : Grammar) (limits : Limits) {source : Source}
    (hg : source.compile = .ok g) (c : Nat) :
    need g limits 0 c ≤ (limits.maxDepth + 2) * (g.size + 1) := by
  have hrank := Graph.rank_le (Grammar.inner_bounded (Source.compile_lawful hg)) c
  rw [need, if_neg (Nat.not_lt_zero _), Nat.sub_zero, Nat.add_mul]
  omega

def handedOut (result : Except Overflow Output) : Except Fault String :=
  (result.mapError .overflow).map fun out => String.ofList out.chars.reverse

theorem generate_eq_none_iff {name : String} {seed : UInt64} :
    generate g limits name seed = none ↔ ∀ rule ∈ g.rules, rule.name ≠ name := by
  rw [generate, Option.map_eq_none_iff, Grammar.rule?, List.find?_eq_none]
  simp

theorem exists_generate {source : Source} (hg : source.compile = .ok g) (limits : Limits)
    {name : String} {rule : Rule} (hrule : g.rule? name = some rule) (seed : UInt64) :
    ∃ result, Writes g limits 0 ⟨[], .ofSeed seed⟩ [rule.clause] result ∧
      generate g limits name seed = some (handedOut result) := by
  obtain ⟨result, hwrite, hwrites⟩ :=
    exists_writes hg (need_start_le g limits hg rule.clause) ⟨[], .ofSeed seed⟩
  refine ⟨result, hwrites, ?_⟩
  rw [generate, hrule, Option.map_some, hwrite]
  rfl

theorem spelled_or_overrun {root : Nat} {seed : UInt64} {result : Except Overflow Output}
    (h : Writes g limits 0 ⟨[], .ofSeed seed⟩ [root] result) :
    (∃ text, handedOut result = .ok text ∧ ∀ ch ∈ text.toList, g.Spells root ch) ∨
      ∃ e, handedOut result = .error (.overflow e) ∧ g.Overruns root e := by
  have hroot : ∀ c ∈ [root], Graph.Reaches g.next root c :=
    fun c hc => List.mem_singleton.mp hc ▸ .refl
  have hspelled := h.spelled hroot
  cases result with
  | error e => exact .inr ⟨e, rfl, hspelled⟩
  | ok out =>
      refine .inl ⟨_, rfl, fun ch hch => ?_⟩
      have hmem : ch ∈ out.chars := by simpa using hch
      exact (hspelled ch hmem).resolve_left List.not_mem_nil

theorem not_overruns {root : Nat}
    (h : ∀ i set, Graph.Reaches g.next root i → g.shape i = .terminal (.chars set) →
      set.inverted = true → set.contains 'C' = true) (e : Overflow) : ¬g.Overruns root e := by
  rintro ⟨i, set, n, hreach, hshape, hoverflows⟩
  have hcontains := h i set hreach hshape hoverflows.inverted
  rw [hoverflows.not_contains] at hcontains
  cases hcontains

theorem generation_ends {source : Source} {g : Grammar} (hg : source.compile = .ok g) :
    (∀ i path, (i :: path).IsChain (Graph.Edge g.next) → path.getLast? = some i →
        ∃ j ∈ path, (g.clause j).ruleNames ≠ []) ∧
      ∀ limits name seed,
        (generate g limits name seed = none ↔ ∀ rule ∈ g.rules, rule.name ≠ name) ∧
          ∀ rule, g.rule? name = some rule →
            (∃ result, generate g limits name seed = some (handedOut result) ∧
              ∀ result', Writes g limits 0 ⟨[], .ofSeed seed⟩ [rule.clause] result' ↔
                result' = result) ∧
            ((∃ text, generate g limits name seed = some (.ok text) ∧
                ∀ ch ∈ text.toList, g.Spells rule.clause ch) ∨
              ∃ e, generate g limits name seed = some (.error (.overflow e)) ∧
                g.Overruns rule.clause e) ∧
            ((∀ i set, Graph.Reaches g.next rule.clause i → g.shape i = .terminal (.chars set) →
                set.inverted = true → set.contains 'C' = true) →
              ∃ text, generate g limits name seed = some (.ok text)) := by
  refine ⟨fun i path hchain hlast => Grammar.exists_named_on_cycle hg hchain hlast,
    fun limits name seed => ⟨generate_eq_none_iff, fun rule hrule => ?_⟩⟩
  obtain ⟨result, hwrites, hgenerate⟩ := exists_generate hg limits hrule seed
  have hcases := spelled_or_overrun hwrites
  rw [hgenerate]
  refine ⟨⟨result, rfl, fun result' => ⟨fun h => h.unique hwrites, fun h => h ▸ hwrites⟩⟩, ?_,
    fun hsets => ?_⟩
  · simpa using hcases
  · rcases hcases with ⟨text, htext, _⟩ | ⟨e, _, hoverruns⟩
    · exact ⟨text, by rw [htext]⟩
    · exact absurd hoverruns (not_overruns hsets e)

theorem sums_are_generated :
    ∃ g rule text, arithmetic.compile = .ok g ∧ g.rule? "Sum" = some rule ∧
      generate g {} "Sum" 7 = some (.ok text) ∧ ∀ ch ∈ text.toList, g.Spells rule.clause ch := by
  have hrun : (arithmetic.compile.toOption.any fun g =>
      (g.rule? "Sum").isSome && (generate g {} "Sum" 7).any fun r => r.toOption.isSome) = true := by
    decide +kernel
  obtain ⟨g, hg, hrun⟩ := Source.exists_of_compile_any hrun
  rw [Bool.and_eq_true] at hrun
  obtain ⟨rule, hrule⟩ := Option.isSome_iff_exists.mp hrun.1
  obtain ⟨_, hall⟩ := generation_ends hg
  obtain ⟨_, hknown⟩ := hall {} "Sum" 7
  obtain ⟨_, ⟨text, htext, hspells⟩ | ⟨e, he, _⟩, _⟩ := hknown rule hrule
  · exact ⟨g, rule, text, hg, hrule, htext, hspells⟩
  · rw [he] at hrun
    cases hrun.2

def unprintable : Source where
  definitions := [.plain "S" (.charSet (CharSet.range ' ' '~').invert)]
  lexical := none

theorem last_word_overruns :
    ∃ g, unprintable.compile = .ok g ∧ (∃ rule ∈ g.rules, rule.name = "S") ∧
      generate g {} "S" 17228265852584228703 = some (.error (.overflow ⟨UInt64.size - 1, 1⟩)) ∧
      generate g {} "S" 17228265852584228704 = some (.ok "") := by
  have hrun : (unprintable.compile.toOption.any fun g =>
      g.rules.map (·.name) = ["S"] &&
        generate g {} "S" 17228265852584228703 = some (.error (.overflow ⟨UInt64.size - 1, 1⟩)) &&
        generate g {} "S" 17228265852584228704 = some (.ok "")) = true := by
    decide +kernel
  obtain ⟨g, hg, hrun⟩ := Source.exists_of_compile_any hrun
  simp only [Bool.and_eq_true, decide_eq_true_eq] at hrun
  obtain ⟨⟨hnames, herror⟩, hempty⟩ := hrun
  have hmem : "S" ∈ g.rules.map (·.name) := hnames ▸ List.mem_singleton_self "S"
  exact ⟨g, hg, List.mem_map.mp hmem, herror, hempty⟩

end Sample

end BottomUpPeg
