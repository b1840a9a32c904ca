import BottomUpPeg.Proofs.Growth
import BottomUpPeg.Proofs.Nesting
import BottomUpPeg.Proofs.Vacancy

namespace BottomUpPeg

namespace Grammar

variable {g : Grammar} {input : Input}

theorem acyclic_of_terminal (hg : g.Lawful) {c : Nat} {t : Terminal} (hc : c < g.size)
    (hshape : g.shape c = .terminal t) : (g.clause c).acyclic = true := by
  have hnext : g.next c = [] := by simp [next, hshape, Shape.children, Shape.slots]
  have hleaf : ∀ j, ¬Graph.LeadsTo g.next c j := by
    intro j hj
    obtain ⟨d, hd, _⟩ := Relation.TransGen.head'_iff.mp hj
    rw [Graph.Edge, hnext] at hd
    cases hd
  refine (hg.acyclic_iff c hc).mpr fun j hj => ?_
  rcases Relation.reflTransGen_iff_eq_or_transGen.mp hj with rfl | hj
  · exact hleaf j
  · exact absurd hj (hleaf j)

theorem lt_size_of_always {c : Nat} (h : (g.clause c).always = true) : c < g.size := by
  by_contra hc
  rw [clause_of_size_le (Nat.le_of_not_lt hc)] at h
  cases h

theorem always_eq (hg : g.Lawful) {c : Nat} (hc : c < g.size) {s : Shape} (hshape : g.shape c = s) :
    (g.clause c).always = (s.flags g.flags).always :=
  hshape ▸ congrArg Flags.always (hg.flags_eq c hc)

theorem lookup_isSome_of_mark (hg : g.Lawful) {height : Nat}
    (hfounded : ∀ i, (g.flags i).Le (Flags.stage g.shape height i)) {c pos : Nat}
    (halways : (g.clause c).always = true) (hpos : pos ≤ input.size) (view : View) :
    (g.lookup input view c pos).isSome = true := by
  have hc := lt_size_of_always halways
  cases hshape : g.shape c with
  | terminal t =>
      exact lookup_isSome_of_always hg (acyclic_of_terminal hg hc hshape) halways hpos view
  | group kind slots =>
      exact lookup_isSome_of_flag hg hfounded (by rw [hshape]; rfl) halways view
  | unary kind slot =>
      cases kind with
      | oneOrMore | followedBy =>
          exact lookup_isSome_of_flag hg hfounded (by rw [hshape]; rfl) halways view
      | notFollowedBy =>
          rw [always_eq hg hc hshape] at halways
          cases halways

end Grammar

namespace Parse

variable {g : Grammar} {input : Input}

/-- A match that comes up in a parse: one that is kept after so many rounds, read from what is kept
then or proposed for an active key, found on the empty table or by descent, or part of another. -/
inductive Occurs (g : Grammar) (input : Input) : Match → Prop
  | kept {n : Nat} {k : Key} {m : Match} :
      (run g input n).table.view k = some m → Occurs g input m
  | read {n c pos : Nat} {m : Match} : c < g.size → pos ≤ input.size →
      g.lookup input (run g input n).table.view c pos = some m → Occurs g input m
  | proposed {n : Nat} {k : Key} {m : Match} : k ∈ (run g input n).state.active →
      g.evaluate input (run g input n).table.view k = some m → Occurs g input m
  | seeding {c pos : Nat} {m : Match} : c < g.size → pos ≤ input.size →
      g.lookup input (fun _ => none) c pos = some m → Occurs g input m
  | descended {c pos : Nat} {m : Match} : c < g.size → pos ≤ input.size →
      g.topDown input c pos = some m → Occurs g input m
  | part {m x : Match} : Occurs g input m → x ∈ m.parts → Occurs g input x

theorem Occurs.wellFormed (hg : g.Lawful) {m : Match} (h : Occurs g input m) :
    m.WellFormed g input ∧ m.clause < g.size := by
  have hfits : ∀ {k : Key} {m : Match}, k.clause < g.size → m.Fits g input k →
      m.WellFormed g input ∧ m.clause < g.size := fun hk hm =>
    ⟨hm.wellFormed, hm.clause_eq ▸ hk⟩
  induction h with
  | @kept n k m hm =>
      have hvalid := run_valid hg input n
      have hproper := hvalid.keys k (Table.mem_of_view hm)
      exact hfits (Grammar.lt_size_of_isMemoized hproper.memoized) (hvalid.best k m hm)
  | @read n c pos m hc hpos hm =>
      exact hfits hc (Grammar.lookup_sound (view_sound hg input n) c pos m hpos hm)
  | @proposed n k m hk hm =>
      have hvalid := run_valid hg input n
      have hproper := hvalid.active k hk
      exact hfits (Grammar.lt_size_of_isMemoized hproper.memoized)
        (Grammar.evaluate_fits hvalid.best hproper.start_le hm)
  | @seeding c pos m hc hpos hm =>
      exact hfits hc (Grammar.lookup_sound (fun _ _ h => by cases h) c pos m hpos hm)
  | @descended c pos m hc hpos hm => exact hfits hc (Grammar.topDown_sound c pos m hpos hm)
  | part _ hx ih =>
      obtain ⟨hwf, hlt, _⟩ := ih.1.of_mem_parts hg ih.2 hx
      exact ⟨hwf, hlt⟩

theorem flags_are_sound {source : Source} (h : source.compile = .ok g) (input : String) :
    (∀ c pos, (g.clause c).always = true → pos ≤ (Input.ofString input).size →
      (∀ view, (g.lookup (Input.ofString input) view c pos).isSome = true) ∧
        (g.emptyMatch pos g.size [] c).isSome = true) ∧
    ∀ m, Occurs g (Input.ofString input) m → m.length = 0 → (g.clause m.clause).zero = true := by
  have hg := Source.compile_lawful h
  obtain ⟨height, hfounded⟩ := Source.compile_founded h
  refine ⟨fun c pos halways hpos => ⟨?_, ?_⟩, fun m hm hlength => ?_⟩
  · exact Grammar.lookup_isSome_of_mark hg hfounded halways hpos
  · exact Grammar.emptyMatch_isSome_of_stage hg pos (Grammar.lt_size_of_always halways)
      ((hfounded c).1 halways) (by simp) List.nodup_nil (by simp)
  · obtain ⟨hwf, hlt⟩ := hm.wellFormed hg
    exact hwf.zero_of_length hg hlt hlength

end Parse

/-- Two rules that stand in each other's way: each tries the other before it is left with what it
has of its own. -/
def entwined : Source where
  definitions := [
    .plain "A" (.longest [.reference "B", .nothing]),
    .plain "B" (.longest [.seq [.reference "A", .reference "A"], .char 'b'])]
  lexical := none

theorem Parse.entwined_always_match :
    ∃ g a b, entwined.compile = .ok g ∧ (g.rule? "A").map (·.clause) = some a ∧
      (g.rule? "B").map (·.clause) = some b ∧ (g.clause a).acyclic = false ∧
      (g.clause b).acyclic = false ∧
      ∀ c ∈ [a, b], (g.emptyMatch 1 g.size [] c).isSome = true ∧
        (g.lookup (Input.ofString "b") (fun _ => none) c 1).isSome = true := by
  have hfacts : (entwined.compile.toOption.any fun g =>
      (g.rule? "A").any fun a => (g.rule? "B").any fun b =>
        [a.clause, b.clause].all fun c => (g.clause c).always && !(g.clause c).acyclic) = true := by
    decide +kernel
  obtain ⟨g, hg, hfacts⟩ := Source.exists_of_compile_any hfacts
  obtain ⟨a, ha, hfacts⟩ := (Option.any_eq_true ..).mp hfacts
  obtain ⟨b, hb, hfacts⟩ := (Option.any_eq_true ..).mp hfacts
  simp only [List.all_eq_true, Bool.and_eq_true, Bool.not_eq_true'] at hfacts
  refine ⟨g, a.clause, b.clause, hg, by rw [ha, Option.map_some], by rw [hb, Option.map_some],
    (hfacts a.clause (by simp)).2, (hfacts b.clause (by simp)).2, fun c hc => ?_⟩
  have hsound := (flags_are_sound hg "b").1 c 1 (hfacts c hc).1 (by decide)
  exact ⟨hsound.2, hsound.1 _⟩

end BottomUpPeg
