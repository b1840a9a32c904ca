import BottomUpPeg.Proofs.Agreement

namespace BottomUpPeg

/-- A repetition without characters ends the loop, and is only taken where it is the first. -/
def Look.gather (look : Look) (slot : Slot) : Nat → List Match → Nat → List Match
  | 0, taken, _ => taken
  | fuel + 1, taken, pos =>
      match look slot.clause pos with
      | none => taken
      | some m =>
          if m.length = 0 then if taken.isEmpty then [m] else taken
          else gather look slot fuel (taken ++ [m]) m.stop

def Match.nest (clause : Nat) : List Match → Option Match
  | [] => none
  | m :: rest =>
      match nest clause rest with
      | none => some ⟨clause, m.start, m.length, 0, [m]⟩
      | some tail => some ⟨clause, m.start, m.length + tail.length, 0, [m, tail]⟩

def Match.consumes (m : Match) : Bool := m.length != 0

section Loop

variable {g : Grammar} {input : Input} {look : Look} {c : Nat} {slot : Slot}

theorem Look.nest_cons {fuel pos : Nat} {m : Match} {rest : List Match}
    (hm : look slot.clause pos = some m) (hstart : m.start = pos) (hlength : m.length ≠ 0)
    (hrest : Match.nest c rest = (look.repetition c slot fuel m.stop).filter Match.consumes) :
    Match.nest c (m :: rest) = look.repetition c slot (fuel + 1) pos := by
  rw [repetition, repeated, hm, Match.nest, hrest, hstart]
  simp only [if_neg hlength]
  cases look.repetition c slot fuel m.stop with
  | none => rfl
  | some tail =>
      by_cases hzero : tail.length = 0
      · simp [Option.filter, Match.consumes, hzero]
      · simp [Option.filter, Match.consumes, hzero]

theorem Look.repetition_consumes {fuel pos : Nat} {m n : Match}
    (hm : look slot.clause pos = some m) (hlength : m.length ≠ 0)
    (h : look.repetition c slot (fuel + 1) pos = some n) : n.consumes = true := by
  rw [repetition, repeated, hm] at h
  simp only [if_neg hlength] at h
  split at h
  · cases h
    simpa [Match.consumes] using hlength
  · split at h <;> cases h
    · simpa [Match.consumes] using hlength
    · simp [Match.consumes, hlength]

-- Once something is taken, the loop goes on as the recursion does, less a match without characters.
theorem Look.exists_gather (hlook : look.Sound g input) (c : Nat) (slot : Slot) (fuel : Nat)
    {pos : Nat} (hpos : pos ≤ input.size) (taken : List Match) (htaken : taken.isEmpty = false) :
    ∃ rest, look.gather slot fuel taken pos = taken ++ rest ∧
      Match.nest c rest = (look.repetition c slot fuel pos).filter Match.consumes := by
  induction fuel generalizing taken pos with
  | zero => exact ⟨[], (List.append_nil taken).symm, rfl⟩
  | succ fuel ih =>
      rw [gather]
      cases hm : look slot.clause pos with
      | none =>
          refine ⟨[], (List.append_nil taken).symm, ?_⟩
          rw [repetition, repeated, hm]
          rfl
      | some m =>
          obtain ⟨_, hstart, hwf⟩ := hlook _ _ _ hpos hm
          by_cases hlength : m.length = 0
          · refine ⟨[], by simp [hlength, htaken], ?_⟩
            rw [repetition, repeated, hm]
            simp [hlength, Match.nest, Option.filter, Match.consumes]
          · obtain ⟨rest, hgather, hrest⟩ := ih hwf.stop_le (taken ++ [m]) (by simp)
            refine ⟨m :: rest, by simp [hlength, hgather], ?_⟩
            rw [nest_cons hm hstart hlength hrest]
            cases hn : look.repetition c slot (fuel + 1) pos with
            | none => rfl
            | some n => simp [Option.filter, repetition_consumes hm hlength hn]

theorem Look.nest_gather (hlook : look.Sound g input) (c fuel : Nat) {pos : Nat}
    (hpos : pos ≤ input.size) :
    Match.nest c (look.gather slot fuel [] pos) = look.repetition c slot fuel pos := by
  cases fuel with
  | zero => rfl
  | succ fuel =>
      rw [gather]
      cases hm : look slot.clause pos with
      | none =>
          rw [repetition, repeated, hm]
          rfl
      | some m =>
          obtain ⟨_, hstart, hwf⟩ := hlook _ _ _ hpos hm
          by_cases hlength : m.length = 0
          · rw [repetition, repeated, hm]
            simp only [hlength, if_true, List.isEmpty_nil, Match.nest, hstart]
          · obtain ⟨rest, hgather, hrest⟩ := exists_gather hlook c slot fuel hwf.stop_le [m] rfl
            simp only [if_neg hlength, List.nil_append, hgather, List.singleton_append]
            exact nest_cons hm hstart hlength hrest

end Loop

namespace Grammar

variable {g : Grammar}

theorem acyclic_of_reaches (hg : g.Lawful) {c d : Nat} (hc : (g.clause c).acyclic = true)
    (h : Graph.Reaches g.next c d) : (g.clause d).acyclic = true := by
  induction h with
  | refl => exact hc
  | tail _ hstep ih => exact acyclic_of_mem_next hg ih hstep

theorem descent_is_fixed_point {source : Source} (h : source.compile = .ok g) (input : Input)
    (view : View) {c pos : Nat} (hc : (g.clause c).acyclic = true) (hpos : pos ≤ input.size)
    (hagree : ∀ d, Graph.Reaches g.next c d → ∀ q, pos ≤ q → q ≤ input.size →
      g.lookup input view d q = g.topDown input d q) :
    g.evaluate input view ⟨c, pos⟩ = g.topDown input c pos ∧
      ∀ slot, g.shape c = .unary .oneOrMore slot →
        g.topDown input c pos = Match.nest c
          (Look.gather (g.topDown input) slot (input.size - pos + 1) [] pos) := by
  have hg := Source.compile_lawful h
  constructor
  · refine evaluate_eq_topDown hg hc hpos (fun j hj q hle hq => ?_) fun q hlt hq => ?_
    · exact hagree j (.single hj) q hle hq
    · exact hagree c .refl q (Nat.le_of_lt hlt) hq
  · intro slot hshape
    rw [topDown_eq_repetition hg hc hshape, Look.nest_gather topDown_sound c _ hpos]

/-- A repetition whose part takes no character where it looks ahead. -/
def glancing : Source where
  definitions := [
    .plain "R" (.oneOrMore (.first [.char 'a', .followedBy (.char 'b')]))]
  lexical := none

theorem glances_are_a_fixed_point :
    ∃ g, glancing.compile = .ok g ∧ ∃ view : View,
      (∀ d, Graph.Reaches g.next 4 d → ∀ q, 0 ≤ q → q ≤ (Input.ofString "aab").size →
        g.lookup (Input.ofString "aab") view d q = g.topDown (Input.ofString "aab") d q) ∧
      g.evaluate (Input.ofString "aab") view ⟨4, 0⟩ = g.topDown (Input.ofString "aab") 4 0 ∧
      (g.topDown (Input.ofString "aab") 4 0).map (·.length) = some 2 := by
  have hfacts : (glancing.compile.toOption.any fun g =>
      (g.clause 4).acyclic && ((List.range g.size).all fun c => !(g.clause c).always) &&
        decide ((g.topDown (Input.ofString "aab") 4 0).map (·.length) = some 2)) = true := by
    decide +kernel
  obtain ⟨g, hg, hfacts⟩ := Source.exists_of_compile_any hfacts
  simp only [Bool.and_eq_true, List.all_eq_true, List.mem_range, Bool.not_eq_true',
    decide_eq_true_eq] at hfacts
  obtain ⟨⟨hc, halways⟩, hlength⟩ := hfacts
  -- The table that holds the exact match of every key.
  let view : View := fun k => g.topDown (Input.ofString "aab") k.clause k.start
  have hagree : ∀ d, Graph.Reaches g.next 4 d → ∀ q, 0 ≤ q → q ≤ (Input.ofString "aab").size →
      g.lookup (Input.ofString "aab") view d q = g.topDown (Input.ofString "aab") d q := by
    intro d hd q _ hq
    have hacyclic := acyclic_of_reaches (Source.compile_lawful hg) hc hd
    cases hmemoized : (g.shape d).isMemoized with
    | true => exact lookup_of_not_always hmemoized (halways d (lt_size_of_acyclic hacyclic)) view q
    | false => exact lookup_of_not_isMemoized (Source.compile_lawful hg) hacyclic hmemoized hq view
  exact ⟨g, hg, view, hagree,
    (descent_is_fixed_point hg _ view hc (Nat.zero_le _) hagree).1, hlength⟩

end Grammar

end BottomUpPeg
