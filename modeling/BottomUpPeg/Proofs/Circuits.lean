import BottomUpPeg.Proofs.DescentRuns
import BottomUpPeg.Proofs.Stratification
import BottomUpPeg.Proofs.Triggers

namespace BottomUpPeg

namespace Graph

variable {next : Nat → List Nat} {size : Nat}

/-- A finite run of the search for a cycle over a list of nodes, with what it ends in: the first
node met again on its own path, or all nodes with no cycle beyond them. -/
inductive Visits (next : Nat → List Nat) :
    List Nat → List Nat → List Nat → Except Nat (List Nat) → Prop
  | nil {path done : List Nat} : Visits next path done [] (.ok done)
  | closes {path done vs : List Nat} {v : Nat} : v ∈ path →
      Visits next path done (v :: vs) (.error v)
  | known {path done vs : List Nat} {v : Nat} {outcome : Except Nat (List Nat)} : v ∉ path →
      v ∈ done → Visits next path done vs outcome → Visits next path done (v :: vs) outcome
  | fails {path done vs : List Nat} {v w : Nat} : v ∉ path → v ∉ done →
      Visits next (v :: path) done (next v) (.error w) → Visits next path done (v :: vs) (.error w)
  | leaves {path done inner vs : List Nat} {v : Nat} {outcome : Except Nat (List Nat)} : v ∉ path →
      v ∉ done → Visits next (v :: path) done (next v) (.ok inner) →
      Visits next path (v :: inner) vs outcome → Visits next path done (v :: vs) outcome

theorem visits_explore (hb : Bounded next size) {fuel : Nat} {path : List Nat} (hpath : path.Nodup)
    (hlt : ∀ u ∈ path, u < size) (hfuel : size < path.length + fuel) {vs : List Nat}
    (hvs : ∀ v ∈ vs, v < size) (done : List Nat) :
    Visits next path done vs (vs.foldlM (explore next fuel path) done) := by
  induction fuel generalizing path vs done with
  | zero =>
      have hle := length_le_of_nodup hpath hlt
      omega
  | succ fuel ih =>
      induction vs generalizing done with
      | nil => exact .nil
      | cons v vs ihvs =>
          obtain ⟨hv, hvs⟩ := List.forall_mem_cons.mp hvs
          rw [List.foldlM_cons, explore]
          by_cases hmem : v ∈ path
          · simp only [hmem, if_true]
            exact .closes hmem
          by_cases hdone : v ∈ done
          · simp only [hmem, hdone, if_true, if_false]
            exact .known hmem hdone (ihvs hvs done)
          have hinner := ih (List.nodup_cons.mpr ⟨hmem, hpath⟩)
            (List.forall_mem_cons.mpr ⟨hv, hlt⟩) (by rw [List.length_cons]; omega) (hb v) done
          simp only [hmem, hdone, if_false]
          cases hfold : (next v).foldlM (explore next fuel (v :: path)) done with
          | error w =>
              rw [hfold] at hinner
              exact .fails hmem hdone hinner
          | ok inner =>
              rw [hfold] at hinner
              exact .leaves hmem hdone hinner (ihvs hvs (v :: inner))

theorem Visits.unique {path done vs : List Nat} {outcome outcome' : Except Nat (List Nat)}
    (h : Visits next path done vs outcome) (h' : Visits next path done vs outcome') :
    outcome' = outcome := by
  induction h generalizing outcome' with
  | nil =>
      cases h'
      rfl
  | closes hmem =>
      cases h' with
      | closes _ => rfl
      | known hnot | fails hnot | leaves hnot => exact absurd hmem hnot
  | known hnot hdone _ ih =>
      cases h' with
      | closes hmem => exact absurd hmem hnot
      | known _ _ hrest => exact ih hrest
      | fails _ hnew | leaves _ hnew => exact absurd hdone hnew
  | fails hnot hnew _ ih =>
      cases h' with
      | closes hmem => exact absurd hmem hnot
      | known _ hdone => exact absurd hdone hnew
      | fails _ _ hinner => exact ih hinner
      | leaves _ _ hinner => cases ih hinner
  | leaves hnot hnew _ _ ihinner ih =>
      cases h' with
      | closes hmem => exact absurd hmem hnot
      | known _ hdone => exact absurd hdone hnew
      | fails _ _ hinner => cases ihinner hinner
      | leaves _ _ hinner hrest =>
          cases ihinner hinner
          exact ih hrest

-- Every node of the path leads to what is still to be visited, so a node met again closes a cycle.
theorem Visits.leadsTo_self {path done vs : List Nat} {w : Nat}
    (h : Visits next path done vs (.error w)) (hpath : ∀ u ∈ path, ∀ v ∈ vs, LeadsTo next u v) :
    LeadsTo next w w ∧ ∃ v ∈ vs, Reaches next v w := by
  generalize houtcome : (Except.error w : Except Nat (List Nat)) = outcome at h
  induction h with
  | nil => cases houtcome
  | @closes path done vs v hmem =>
      cases houtcome
      exact ⟨hpath w hmem w (List.mem_cons_self ..), w, List.mem_cons_self .., .refl⟩
  | known _ _ _ ih | leaves _ _ _ _ _ ih =>
      obtain ⟨hw, u, hu, hreach⟩ :=
        ih (fun u hu x hx => hpath u hu x (List.mem_cons_of_mem _ hx)) houtcome
      exact ⟨hw, u, List.mem_cons_of_mem _ hu, hreach⟩
  | @fails path done vs v w' _ _ _ ih =>
      cases houtcome
      have hinner : ∀ u ∈ v :: path, ∀ x ∈ next v, LeadsTo next u x := by
        intro u hu x hx
        rcases List.mem_cons.mp hu with rfl | hu
        · exact .single hx
        · exact .tail (hpath u hu v (List.mem_cons_self ..)) hx
      obtain ⟨hw, x, hx, hreach⟩ := ih hinner rfl
      exact ⟨hw, v, List.mem_cons_self .., .head hx hreach⟩

theorem exists_visits (hb : Bounded next size) {root : Nat} (hroot : root < size) :
    ∃ outcome, Visits next [] [] [root] outcome ∧
      cycleFrom? next size root = match outcome with
        | .error v => some v
        | .ok _ => none := by
  have hvisits : Visits next [] [] [root] ([root].foldlM (explore next (size + 1) []) []) :=
    visits_explore hb List.nodup_nil (by simp) (by simp) (by simpa using hroot) []
  simp only [List.foldlM_cons, List.foldlM_nil, bind_pure] at hvisits
  exact ⟨_, hvisits, rfl⟩

theorem cycleFrom?_eq_some {root v : Nat} (hb : Bounded next size) (hroot : root < size)
    (h : cycleFrom? next size root = some v) : Reaches next root v ∧ LeadsTo next v v := by
  obtain ⟨outcome, hvisits, heq⟩ := exists_visits hb hroot
  rw [heq] at h
  cases outcome with
  | ok done => cases h
  | error w =>
      cases h
      obtain ⟨hcycle, u, hu, hreach⟩ := hvisits.leadsTo_self (by simp)
      rw [List.mem_singleton.mp hu] at hreach
      exact ⟨hreach, hcycle⟩

theorem cycleFrom?_eq_none_iff {root : Nat} (hb : Bounded next size) (hroot : root < size) :
    cycleFrom? next size root = none ↔ ∀ v, Reaches next root v → ¬LeadsTo next v v := by
  refine ⟨fun h v => not_leadsTo_self_of_cycleFrom? hb hroot h, fun h => ?_⟩
  cases hfound : cycleFrom? next size root with
  | none => rfl
  | some v =>
      obtain ⟨hreach, hcycle⟩ := cycleFrom?_eq_some hb hroot hfound
      exact absurd hcycle (h v hreach)

end Graph

theorem checkLexical_eq_ok_iff {clauses : Array Linked} {rule : Rule} :
    checkLexical clauses (some rule) = .ok () ↔
      Graph.cycleFrom? (Linked.next clauses) clauses.size rule.clause = none := by
  rw [checkLexical]
  split
  · rename_i hfound
    simp [hfound]
  · rename_i hfound
    simp [hfound]

namespace Layer

variable {clauses : Array Linked} (hb : Graph.Bounded (Linked.next clauses) clauses.size)
  {rule : Rule} (hrule : rule.clause < clauses.size)

include hb hrule

theorem checkLexical_iff_free : checkLexical clauses (some rule) = .ok () ↔
    ∀ v, Graph.Reaches (Linked.next clauses) rule.clause v →
      ¬Graph.LeadsTo (Linked.next clauses) v v := by
  rw [checkLexical_eq_ok_iff, Graph.cycleFrom?_eq_none_iff hb hrule]

theorem checkLexical_iff_cyclic : checkLexical clauses (some rule) = .ok () ↔
    ∀ v, Graph.Reaches (Linked.next clauses) rule.clause v →
      (cyclic clauses)[v]?.getD false = false := by
  rw [checkLexical_iff_free hb hrule]
  refine forall_congr' fun v => imp_congr_right fun hreach => ?_
  have hv : v < clauses.size := by
    rcases Relation.reflTransGen_iff_eq_or_transGen.mp hreach with rfl | hleads
    · exact hrule
    · exact hb.lt_of_leadsTo hleads
  rw [← cyclic_iff hb hv, Bool.not_eq_true]

theorem checkLexical_of_acyclic {layers : Array Layer} (h : table clauses = .ok layers)
    (hacyclic : (layers[rule.clause]?.getD default).acyclic = true) :
    checkLexical clauses (some rule) = .ok () := by
  rw [(table_ok hb h).2.2.1] at hacyclic
  exact (checkLexical_iff_free hb hrule).mpr (not_leadsTo_self_of_isMarked hb hacyclic)

theorem acyclic_iff_checkLexical (hfirst : Linked.PartsFirst clauses) {layers : Array Layer}
    (h : table clauses = .ok layers) :
    (layers[rule.clause]?.getD default).acyclic = true ↔
      checkLexical clauses (some rule) = .ok () := by
  rw [(table_ok hb h).2.2.1, isMarked_iff hb hfirst hrule, checkLexical_iff_free hb hrule]

end Layer

namespace Grammar

variable {g : Grammar} {input : Input} {view : View}

structure Grounded (g : Grammar) (input : Input) (k : Key) : Prop where
  acyclic : ∀ j, Graph.Reaches g.next k.clause j → ¬Graph.LeadsTo g.next j j
  descends : ∀ found, g.Descends input k found ↔ found = g.topDown input k.clause k.start

theorem grounded_of_acyclic (hg : g.Lawful) {k : Key} (hk : (g.clause k.clause).acyclic = true) :
    g.Grounded input k where
  acyclic := (hg.acyclic_iff k.clause (lt_size_of_acyclic hk)).mp hk
  descends := by
    refine fun found => ⟨Descends.eq_topDown hg hk, ?_⟩
    rintro rfl
    exact descends_topDown hg hk k.start

def negate (k : Key) (found : Option Match) : Option Match :=
  if found.isSome then none else some (Match.leaf k.clause k.start 0)

/-- A finite run of looking up a key, with the calls of recursive descent that it makes and what it
finds. -/
inductive Looks (g : Grammar) (input : Input) (view : View) : Key → List Key → Option Match → Prop
  | terminal {k : Key} {t : Terminal} : g.shape k.clause = .terminal t →
      Looks g input view k [] ((t.length? input k.start).map (Match.leaf k.clause k.start))
  | kept {k : Key} : (g.shape k.clause).isMemoized = true →
      Looks g input view k [] ((view k).or (g.emptyMatch k.start g.size [] k.clause))
  | descent {k : Key} {slot : Slot} {found : Option Match} :
      g.shape k.clause = .unary .notFollowedBy slot → (g.clause slot.clause).acyclic = true →
      g.Descends input ⟨slot.clause, k.start⟩ found →
      Looks g input view k [⟨slot.clause, k.start⟩] (negate k found)
  | inner {k : Key} {slot : Slot} {calls : List Key} {found : Option Match} :
      g.shape k.clause = .unary .notFollowedBy slot → (g.clause slot.clause).acyclic = false →
      Looks g input view ⟨slot.clause, k.start⟩ calls found →
      Looks g input view k calls (negate k found)

theorem Looks.acyclic {k : Key} {calls : List Key} {found : Option Match}
    (h : g.Looks input view k calls found) : ∀ r ∈ calls, (g.clause r.clause).acyclic = true := by
  induction h with
  | terminal _ => simp
  | kept _ => simp
  | descent _ hslot _ => simpa using hslot
  | inner _ _ _ ih => exact ih

theorem Looks.calls_eq {k : Key} {calls : List Key} {found : Option Match}
    (h : g.Looks input view k calls found) {slot : Slot}
    (hshape : g.shape k.clause = .unary .notFollowedBy slot)
    (hslot : (g.clause slot.clause).acyclic = true) : calls = [⟨slot.clause, k.start⟩] := by
  cases h with
  | terminal hshape' =>
      rw [hshape] at hshape'
      cases hshape'
  | kept hmemoized =>
      rw [hshape] at hmemoized
      cases hmemoized
  | descent hshape' =>
      rw [hshape] at hshape'
      cases hshape'
      rfl
  | inner hshape' hslot' =>
      rw [hshape] at hshape'
      cases hshape'
      rw [hslot] at hslot'
      cases hslot'

-- Each lookahead over a clause that is not acyclic lies a stratum higher than what it looks up.
theorem exists_looks (hg : g.Lawful) (view : View) {c : Nat} (hc : c < g.size) (pos : Nat) :
    ∃ calls, g.Looks input view ⟨c, pos⟩ calls (g.lookup input view c pos) := by
  induction hstratum : (g.clause c).stratum using Nat.strong_induction_on generalizing c with
  | _ stratum ih =>
      have hkept : (g.shape c).isMemoized = true →
          ∃ calls, g.Looks input view ⟨c, pos⟩ calls (g.lookup input view c pos) := by
        intro hmemoized
        rw [lookup_of_isMemoized hmemoized]
        exact ⟨[], .kept hmemoized⟩
      cases hshape : g.shape c with
      | terminal t =>
          rw [lookup_terminal hc hshape]
          exact ⟨[], .terminal hshape⟩
      | group kind slots => exact hkept (by rw [hshape]; rfl)
      | unary kind slot =>
          cases kind with
          | oneOrMore | followedBy => exact hkept (by rw [hshape]; rfl)
          | notFollowedBy =>
              cases hslot : (g.clause slot.clause).acyclic with
              | true =>
                  have hrun : g.Descends input ⟨slot.clause, pos⟩
                      (g.topDown input slot.clause pos) := descends_topDown hg hslot pos
                  have heq : g.lookup input view c pos =
                      negate ⟨c, pos⟩ (g.topDown input slot.clause pos) := by
                    rw [lookup_negative_of_acyclic hshape hslot]
                    cases g.topDown input slot.clause pos <;> rfl
                  rw [heq]
                  exact ⟨_, .descent hshape hslot hrun⟩
              | false =>
                  have hlt := hg.stratum_lt c slot hshape hslot
                  have hnext := hg.bounded c _ (mem_next_of_unary hshape)
                  obtain ⟨calls, hlooks⟩ := ih _ (hstratum ▸ hlt) hnext rfl
                  rw [lookup_negative_of_cyclic hg hshape hslot]
                  exact ⟨calls, .inner hshape hslot hlooks⟩

end Grammar

namespace Parse

/-- The lookups of a parse, with the table each of them reads: those that look for a start, those
that a round makes to evaluate its keys, and those that are asked for at the end. -/
inductive Looked (p : Parse) : View → Key → Prop
  | seed {c pos : Nat} : c ∈ p.grammar.seedClauses → pos ∈ (p.grammar.lex p.input).cuts →
      Looked p (fun _ => none) ⟨c, pos⟩
  | part {i : Nat} {k r : Key} : i < p.state.rounds →
      k ∈ (run p.grammar p.input i).state.due p.grammar →
      r ∈ (p.grammar.shape k.clause).calls
        (p.grammar.lookup p.input (run p.grammar p.input i).table.view) k.clause k.start →
      Looked p (run p.grammar p.input i).table.view r
  | query {c pos : Nat} : c < p.grammar.size → pos ≤ p.input.size → Looked p p.table.view ⟨c, pos⟩

theorem Looked.lt_size {p : Parse} (hg : p.grammar.Lawful) {view : View} {k : Key}
    (h : p.Looked view k) : k.clause < p.grammar.size := by
  cases h with
  | seed hc _ => exact List.mem_range.mp (List.mem_filter.mp hc).1
  | query hc _ => exact hc
  | @part i k _ _ hk hr =>
      obtain ⟨j, q, hr, hj⟩ := Shape.mem_stepReads hr
      rw [List.mem_singleton.mp hr]
      rcases hj with hj | ⟨rfl, _⟩
      · exact hg.bounded _ j hj
      · have hvalid : (run p.grammar p.input i).state.Valid p.grammar p.input :=
          State.advance_valid hg i
        exact Grammar.lt_size_of_isMemoized (hvalid.active k (State.mem_due.mp hk).1).memoized

end Parse

theorem cycles_are_found_and_descent_is_finite :
    (∀ (clauses : Array Linked) (rule : Rule),
      Graph.Bounded (Linked.next clauses) clauses.size → rule.clause < clauses.size →
      ∃ outcome, (∀ o, Graph.Visits (Linked.next clauses) [] [] [rule.clause] o ↔ o = outcome) ∧
        checkLexical clauses (some rule) = (match outcome with
          | .error v => .error (.lexicalCycle rule.name (Linked.clause clauses v).form)
          | .ok _ => .ok ()) ∧
        ((∃ v, outcome = .error v) ↔ ∃ v, Graph.Reaches (Linked.next clauses) rule.clause v ∧
          Graph.LeadsTo (Linked.next clauses) v v) ∧
        (∀ v, outcome = .error v → Graph.Reaches (Linked.next clauses) rule.clause v ∧
          Graph.LeadsTo (Linked.next clauses) v v) ∧
        (checkLexical clauses (some rule) = .ok () ↔
          ∀ v, Graph.Reaches (Linked.next clauses) rule.clause v →
            (Layer.cyclic clauses)[v]?.getD false = false) ∧
        ∀ layers, Layer.table clauses = .ok layers →
          ((layers[rule.clause]?.getD default).acyclic = true →
            checkLexical clauses (some rule) = .ok ()) ∧
          (Linked.PartsFirst clauses → ((layers[rule.clause]?.getD default).acyclic = true ↔
            checkLexical clauses (some rule) = .ok ()))) ∧
      ∀ (source : Source) (g : Grammar) (input : String) (limit : Option Nat),
        source.compile = .ok g →
        let p := Parse.ofString g input limit
        (∀ rule, g.lexical = some rule → (g.clause rule.clause).acyclic = true ∧
          ∀ pos, g.Grounded p.input ⟨rule.clause, pos⟩) ∧
        ∀ view k, p.Looked view k →
          (∃ calls, g.Looks p.input view k calls (g.lookup p.input view k.clause k.start)) ∧
            ∀ calls found, g.Looks p.input view k calls found →
              ∀ r ∈ calls, g.Grounded p.input r := by
  constructor
  · intro clauses rule hb hrule
    obtain ⟨outcome, hvisits, heq⟩ := Graph.exists_visits hb hrule
    have hnamed : ∀ v, outcome = .error v → Graph.Reaches (Linked.next clauses) rule.clause v ∧
        Graph.LeadsTo (Linked.next clauses) v v := by
      rintro v rfl
      exact Graph.cycleFrom?_eq_some hb hrule heq
    refine ⟨outcome, fun o => ⟨hvisits.unique, fun ho => ho ▸ hvisits⟩, ?_, ⟨?_, ?_⟩, hnamed,
      Layer.checkLexical_iff_cyclic hb hrule, fun layers hlayers =>
        ⟨Layer.checkLexical_of_acyclic hb hrule hlayers,
          fun hfirst => Layer.acyclic_iff_checkLexical hb hrule hfirst hlayers⟩⟩
    · cases outcome <;> simp only [checkLexical, heq]
    · rintro ⟨v, hv⟩
      exact ⟨v, hnamed v hv⟩
    · rintro ⟨v, hreach, hcycle⟩
      cases outcome with
      | error w => exact ⟨w, rfl⟩
      | ok done => exact absurd hcycle ((Graph.cycleFrom?_eq_none_iff hb hrule).mp heq v hreach)
  · intro source g input limit h p
    have hg := Source.compile_lawful h
    refine ⟨fun rule hrule => ?_, fun view k hk => ?_⟩
    · have hc := hg.lexical rule hrule
      exact ⟨hc, fun pos => Grammar.grounded_of_acyclic hg hc⟩
    · have hgrammar : p.grammar = g := Parse.grammar_ofString g input limit
      have hlt := hk.lt_size (hgrammar ▸ hg)
      refine ⟨Grammar.exists_looks hg view (hgrammar ▸ hlt) k.start, ?_⟩
      intro calls found hlooks r hr
      exact Grammar.grounded_of_acyclic hg (hlooks.acyclic r hr)

def brackets : List Definition :=
  [.plain "Lexeme" (.first [.seq [.char '(', .reference "Lexeme", .char ')'], .char 'a'])]

/-- Words other than one, in an input cut into words. -/
def unreserved : Source where
  definitions := [
    .plain "Name" (.seq [.notFollowedBy (.literal "if"), .reference "Word"]),
    .plain "Word" (.oneOrMore (.charRange 'a' 'z')),
    .plain "Lexeme" (.first [.reference "Word", .char ' '])]
  lexical := some "Lexeme"

theorem brackets_close_a_cycle_and_words_do_not :
    (∃ clauses roots rule v, linkDefinitions brackets = .ok (clauses, roots) ∧
      rule.clause < clauses.size ∧
      checkLexical clauses (some rule) =
        .error (.lexicalCycle rule.name (Linked.clause clauses v).form) ∧
      Graph.LeadsTo (Linked.next clauses) v v) ∧
    ∃ g rule c slot, unreserved.compile = .ok g ∧ g.lexical = some rule ∧
      g.Grounded (Input.ofString "if a") ⟨rule.clause, 0⟩ ∧
      g.shape c = .unary .notFollowedBy slot ∧
      g.Looks (Input.ofString "if a") (Parse.ofString g "if a" (some 9)).table.view ⟨c, 0⟩
        [⟨slot.clause, 0⟩] none ∧
      g.Grounded (Input.ofString "if a") ⟨slot.clause, 0⟩ := by
  obtain ⟨harenas, hgrammars⟩ := cycles_are_found_and_descent_is_finite
  constructor
  · have hfacts : ((linkDefinitions brackets).toOption.any fun linked =>
        linked.2.any fun root =>
          (checkLexical linked.1 (some ⟨"Lexeme", none, root, none, ""⟩)).toOption.isNone) = true := by
      decide +kernel
    cases hlinked : linkDefinitions brackets with
    | error e => simp [hlinked, Except.toOption] at hfacts
    | ok linked =>
        obtain ⟨clauses, roots⟩ := linked
        simp only [hlinked, Except.toOption, Option.any_some, List.any_eq_true] at hfacts
        obtain ⟨root, hroot, hfails⟩ := hfacts
        obtain ⟨hb, hlt⟩ := linkDefinitions_lt hlinked
        obtain ⟨outcome, _, hcheck, _, hnamed, _⟩ :=
          harenas clauses ⟨"Lexeme", none, root, none, ""⟩ hb (hlt root hroot)
        cases outcome with
        | ok done => simp [hcheck] at hfails
        | error v => exact ⟨clauses, roots, _, v, rfl, hlt root hroot, hcheck, (hnamed v rfl).2⟩
  · have hfacts : (unreserved.compile.toOption.any fun g =>
        g.lexical.isSome && (List.range g.size).any fun c => (g.shape c).slots.any fun slot =>
          decide (g.shape c = .unary .notFollowedBy slot) && (g.clause slot.clause).acyclic &&
            ((Parse.ofString g "if a" (some 9)).best? c 0).isNone) = true := by
      decide +kernel
    obtain ⟨g, hg, hfacts⟩ := Source.exists_of_compile_any hfacts
    simp only [Bool.and_eq_true, List.any_eq_true, List.mem_range, Option.isSome_iff_exists,
      decide_eq_true_eq] at hfacts
    obtain ⟨⟨rule, hrule⟩, c, hc, slot, _, ⟨hshape, hslot⟩, hnone⟩ := hfacts
    obtain ⟨hlexical, hlooked⟩ := hgrammars unreserved g "if a" (some 9) hg
    obtain ⟨⟨calls, hlooks⟩, hcalls⟩ := hlooked _ ⟨c, 0⟩ (.query hc (Nat.zero_le _))
    rw [Option.isNone_iff_eq_none, Parse.best?_ofString g _ _ (Nat.zero_le _)] at hnone
    rw [hlooks.calls_eq hshape hslot] at hlooks
    refine ⟨g, rule, c, slot, hg, hrule, (hlexical rule hrule).2 0, hshape, ?_,
      hcalls _ _ hlooks _ (List.mem_singleton_self _)⟩
    exact hnone ▸ hlooks

end BottomUpPeg
