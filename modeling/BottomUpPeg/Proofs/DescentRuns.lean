import BottomUpPeg.Proofs.FixedPoint
import BottomUpPeg.Proofs.Settling
import BottomUpPeg.Proofs.Strata

namespace BottomUpPeg

namespace Look

variable {look : Look} {tail : Nat → Option Match} {c pos : Nat} {slot : Slot} {m : Match}

theorem repeated_key (h : look.repeated tail c slot pos = some m) : m.key = ⟨c, pos⟩ := by
  rw [repeated] at h
  split at h
  · cases h
  split at h
  · cases h
    rfl
  split at h
  · cases h
    rfl
  split at h <;> cases h <;> rfl

theorem chain_stop_of_empty {slots : List Slot} {stop : Nat} {parts : List Match}
    (hlook : ∀ j m, look j pos = some m → m.stop = pos)
    (h : look.chain slots pos = some (parts, stop)) : stop = pos := by
  induction slots generalizing parts with
  | nil =>
      cases h
      rfl
  | cons s slots ih =>
      rw [chain] at h
      split at h
      · cases h
      rename_i m hm
      rw [hlook _ m hm] at h
      split at h <;> cases h
      rename_i hrest
      exact ih hrest

end Look

namespace Shape

variable {input : Input} {look : Look} {tail tail' : Nat → Option Match} {c pos : Nat} {s : Shape}
  {m : Match}

theorem step_key (h : s.step input look tail c pos = some m) : m.key = ⟨c, pos⟩ := by
  cases s with
  | terminal t =>
      obtain ⟨_, _, rfl⟩ := Option.map_eq_some_iff.mp h
      rfl
  | group kind slots =>
      cases kind with
      | seq | first | longest =>
          obtain ⟨_, _, rfl⟩ := Option.map_eq_some_iff.mp h
          rfl
  | unary kind slot =>
      cases kind with
      | oneOrMore => exact Look.repeated_key h
      | followedBy =>
          obtain ⟨_, _, rfl⟩ := Option.map_eq_some_iff.mp h
          rfl
      | notFollowedBy =>
          rw [step] at h
          split at h <;> cases h
          rfl

theorem step_congr_tail (h : ∀ slot head, s = .unary .oneOrMore slot →
      look slot.clause pos = some head → 0 < head.length → tail head.stop = tail' head.stop) :
    s.step input look tail c pos = s.step input look tail' c pos := by
  cases s with
  | terminal t => rfl
  | group kind slots => cases kind <;> rfl
  | unary kind slot =>
      cases kind with
      | oneOrMore => exact Look.repeated_congr rfl (h slot · rfl) c
      | followedBy | notFollowedBy => rfl

-- Past the end no terminal matches, and what matches without one takes no characters.
theorem step_length_of_size_lt (hpos : input.size < pos)
    (hlook : ∀ j m, look j pos = some m → m.start = pos ∧ m.length = 0)
    (h : s.step input look tail c pos = some m) : m.length = 0 := by
  cases s with
  | terminal t =>
      obtain ⟨length, hlength, rfl⟩ := Option.map_eq_some_iff.mp h
      have hle := ((Terminal.length?_eq_some_iff input pos length t).mp hlength).le_size
      omega
  | group kind slots =>
      cases kind with
      | seq =>
          obtain ⟨⟨parts, stop⟩, hchain, rfl⟩ := Option.map_eq_some_iff.mp h
          have hstop : ∀ j m, look j pos = some m → m.stop = pos := by
            intro j m hm
            obtain ⟨hstart, hlength⟩ := hlook j m hm
            simp only [Match.stop, hstart, hlength, Nat.add_zero]
          simp only [Look.chain_stop_of_empty hstop hchain, Nat.sub_self]
      | first =>
          obtain ⟨⟨i, n⟩, hfirst, rfl⟩ := Option.map_eq_some_iff.mp h
          obtain ⟨_, slot, _, _, hn⟩ := look.first_spec pos slots 0 hfirst
          exact (hlook _ n hn).2
      | longest =>
          obtain ⟨⟨i, n⟩, hlongest, rfl⟩ := Option.map_eq_some_iff.mp h
          obtain ⟨_, slot, _, _, hn⟩ := look.longest_spec pos slots 0 hlongest
          exact (hlook _ n hn).2
  | unary kind slot =>
      cases kind with
      | oneOrMore =>
          rw [step, Look.repeated] at h
          split at h
          · cases h
          · rename_i head hhead
            simp only [(hlook _ head hhead).2, if_true] at h
            cases h
            rfl
      | followedBy =>
          obtain ⟨_, _, rfl⟩ := Option.map_eq_some_iff.mp h
          rfl
      | notFollowedBy =>
          rw [step] at h
          split at h <;> cases h
          rfl

end Shape

namespace Grammar

variable {g : Grammar} {input : Input}

theorem exists_descend_eq_step (g : Grammar) (input : Input) (depth c pos : Nat) :
    ∃ tail, g.descend input (depth + 1) c pos =
      (g.shape c).step input (g.descend input depth) tail c pos := by
  rw [descend]
  split
  · rename_i slot hshape
    exact ⟨Look.repetition (g.descend input depth) c slot (input.size - pos), by rw [hshape]; rfl⟩
  · exact ⟨fun _ => none, rfl⟩

theorem descend_key {depth c pos : Nat} {m : Match} (h : g.descend input depth c pos = some m) :
    m.key = ⟨c, pos⟩ := by
  cases depth with
  | zero => cases h
  | succ depth =>
      obtain ⟨tail, htail⟩ := g.exists_descend_eq_step input depth c pos
      rw [htail] at h
      exact Shape.step_key h

theorem topDown_key {c pos : Nat} {m : Match} (h : g.topDown input c pos = some m) :
    m.key = ⟨c, pos⟩ := descend_key h

theorem descend_length_of_size_lt {depth c pos : Nat} {m : Match} (hpos : input.size < pos)
    (h : g.descend input depth c pos = some m) : m.length = 0 := by
  induction depth generalizing c m with
  | zero => cases h
  | succ depth ih =>
      obtain ⟨tail, htail⟩ := g.exists_descend_eq_step input depth c pos
      rw [htail] at h
      refine Shape.step_length_of_size_lt hpos (fun j n hn => ?_) h
      exact ⟨congrArg Key.start (descend_key hn), ih hn⟩

theorem topDown_stop_of_pos {c pos : Nat} {m : Match} (h : g.topDown input c pos = some m)
    (hlength : 0 < m.length) : pos < m.stop ∧ m.stop ≤ input.size := by
  have hstart : m.start = pos := congrArg Key.start (topDown_key h)
  by_cases hpos : pos ≤ input.size
  · have hstop := (topDown_sound _ _ _ hpos h).wellFormed.stop_le
    simp only [Match.stop] at hstop ⊢
    omega
  · have hzero := descend_length_of_size_lt (Nat.lt_of_not_le hpos) h
    omega

theorem topDown_step (hg : g.Lawful) {c : Nat} (hc : (g.clause c).acyclic = true) (pos : Nat) :
    g.topDown input c pos =
      (g.shape c).step input (g.topDown input) (g.topDown input c) c pos := by
  by_cases hpos : pos ≤ input.size
  · exact topDown_eq hg hc hpos
  · obtain ⟨tail, htail⟩ := g.exists_descend_eq_step input g.size c pos
    refine (topDown_eq_descend_succ hg hc pos).trans (htail.trans ?_)
    refine Shape.step_congr_tail fun slot head _ hhead hlength => ?_
    have hstop := topDown_stop_of_pos hhead hlength
    omega

theorem topDown_of_mem_parts (hg : g.Lawful) {c pos : Nat} (hc : (g.clause c).acyclic = true)
    {m x : Match} (h : g.topDown input c pos = some m) (hx : x ∈ m.parts) :
    (g.clause x.clause).acyclic = true ∧ g.topDown input x.clause x.start = some x := by
  -- What the recursion returns stands under the key it was called with.
  have hself : ∀ {j q}, (g.clause j).acyclic = true → g.topDown input j q = some x →
      (g.clause x.clause).acyclic = true ∧ g.topDown input x.clause x.start = some x := by
    intro j q hj hq
    obtain ⟨rfl, rfl⟩ := Key.mk.inj (topDown_key hq)
    exact ⟨hj, hq⟩
  rw [topDown_step hg hc] at h
  rcases (Shape.step_parts h).2 x hx with ⟨j, hj, q, hq⟩ | ⟨q, hq⟩
  · exact hself (acyclic_of_mem_next hg hc hj) hq
  · exact hself hc hq

theorem topDown_of_mem_descendants (hg : g.Lawful) {x : Match} :
    (m : Match) → {c pos : Nat} → (g.clause c).acyclic = true → g.topDown input c pos = some m →
      x ∈ m.descendants →
      (g.clause x.clause).acyclic = true ∧ g.topDown input x.clause x.start = some x
  | ⟨clause, start, length, index, parts⟩, c, pos, hc, h, hx => by
      rcases Match.mem_descendants.mp hx with rfl | ⟨p, hp, hx⟩
      · obtain ⟨rfl, rfl⟩ := Key.mk.inj (topDown_key h)
        exact ⟨hc, h⟩
      · have : sizeOf p < sizeOf parts := List.sizeOf_lt_of_mem hp
        obtain ⟨hp', hdown⟩ := topDown_of_mem_parts hg hc h hp
        exact topDown_of_mem_descendants hg p hp' hdown hx

end Grammar

def Shape.calls (look : Look) (c pos : Nat) (s : Shape) : List Key :=
  s.stepReads look (fun j q => [⟨j, q⟩]) c pos

theorem Shape.step_congr_calls {look look' : Look} {s : Shape} {c pos : Nat}
    (h : ∀ r ∈ s.calls look c pos, look r.clause r.start = look' r.clause r.start) (input : Input) :
    s.step input look (look c) c pos = s.step input look' (look' c) c pos := by
  have hlook : ∀ j q, (∀ r ∈ [(⟨j, q⟩ : Key)], look r.clause r.start = look' r.clause r.start) →
      look j q = look' j q := fun j q hr => hr ⟨j, q⟩ (List.mem_singleton_self _)
  exact (stepReads_congr hlook input h).1

theorem Shape.mem_children_of_mem_calls {look : Look} {s : Shape} {c pos : Nat} {r : Key}
    (hs : ∀ slot, s ≠ .unary .oneOrMore slot) (h : r ∈ s.calls look c pos) :
    r.clause ∈ s.children := by
  cases s with
  | terminal t => cases h
  | group kind slots =>
      cases kind with
      | seq =>
          obtain ⟨t, ht, q, hr⟩ := look.mem_chainReads h
          rw [List.mem_singleton.mp hr]
          exact List.mem_map_of_mem ht
      | first =>
          obtain ⟨t, ht, hr⟩ := look.mem_firstReads h
          rw [List.mem_singleton.mp hr]
          exact List.mem_map_of_mem ht
      | longest =>
          obtain ⟨t, ht, hr⟩ := List.mem_flatMap.mp h
          rw [List.mem_singleton.mp hr]
          exact List.mem_map_of_mem ht
  | unary kind slot =>
      cases kind with
      | oneOrMore => exact absurd rfl (hs slot)
      | followedBy | notFollowedBy =>
          rw [List.mem_singleton.mp h]
          exact List.mem_singleton_self _

namespace Grammar

variable {g : Grammar} {input : Input}

mutual

/-- A finite run of recursive descent on a key, with what it returns: every call it makes has a
finite run of its own, and a repetition is a loop that comes to an end. -/
inductive Descends (g : Grammar) (input : Input) : Key → Option Match → Prop
  | step {k : Key} {look : Look} : (∀ slot, g.shape k.clause ≠ .unary .oneOrMore slot) →
      (∀ r ∈ (g.shape k.clause).calls look k.clause k.start,
        Descends g input r (look r.clause r.start)) →
      Descends g input k
        ((g.shape k.clause).step input look (look k.clause) k.clause k.start)
  | loop {k : Key} {slot : Slot} {taken : List Match} :
      g.shape k.clause = .unary .oneOrMore slot → Loops g input slot [] k.start taken →
      Descends g input k (Match.nest k.clause taken)

inductive Loops (g : Grammar) (input : Input) : Slot → List Match → Nat → List Match → Prop
  | fails {slot : Slot} {taken : List Match} {pos : Nat} :
      Descends g input ⟨slot.clause, pos⟩ none → Loops g input slot taken pos taken
  | rests {slot : Slot} {taken : List Match} {pos : Nat} {m : Match} :
      Descends g input ⟨slot.clause, pos⟩ (some m) → m.length = 0 →
      Loops g input slot taken pos (if taken.isEmpty then [m] else taken)
  | takes {slot : Slot} {taken all : List Match} {pos : Nat} {m : Match} :
      Descends g input ⟨slot.clause, pos⟩ (some m) → m.length ≠ 0 →
      Loops g input slot (taken ++ [m]) m.stop all → Loops g input slot taken pos all

end

theorem topDown_eq_nest (hg : g.Lawful) {c : Nat} {slot : Slot} (hc : (g.clause c).acyclic = true)
    (hshape : g.shape c = .unary .oneOrMore slot) (pos : Nat) :
    g.topDown input c pos =
      Match.nest c (Look.gather (g.topDown input) slot (input.size - pos + 1) [] pos) := by
  rw [topDown_eq_repetition hg hc hshape]
  by_cases hpos : pos ≤ input.size
  · exact (Look.nest_gather topDown_sound c _ hpos).symm
  · rw [Look.repetition, Look.repeated, Look.gather]
    cases hhead : g.topDown input slot.clause pos with
    | none => rfl
    | some head =>
        have hzero := descend_length_of_size_lt (Nat.lt_of_not_le hpos) hhead
        have hstart : head.start = pos := congrArg Key.start (topDown_key hhead)
        simp only [hzero, if_true, List.isEmpty_nil, Match.nest, hstart]

theorem loops_gather {slot : Slot}
    (hslot : ∀ pos, g.Descends input ⟨slot.clause, pos⟩ (g.topDown input slot.clause pos))
    {fuel pos : Nat} (hfuel : input.size - pos < fuel) (taken : List Match) :
    g.Loops input slot taken pos (Look.gather (g.topDown input) slot fuel taken pos) := by
  induction fuel generalizing pos taken with
  | zero => omega
  | succ fuel ih =>
      have hrun := hslot pos
      rw [Look.gather]
      cases hm : g.topDown input slot.clause pos with
      | none =>
          rw [hm] at hrun
          exact .fails hrun
      | some m =>
          rw [hm] at hrun
          by_cases hlength : m.length = 0
          · simp only [hlength, if_true]
            exact .rests hrun hlength
          · simp only [hlength, if_false]
            have hstop := topDown_stop_of_pos hm (Nat.pos_of_ne_zero hlength)
            exact .takes hrun hlength (ih (by omega) _)

theorem descends_of_fathoms (hg : g.Lawful) {depth c : Nat} (hc : (g.clause c).acyclic = true)
    (hdepth : g.Fathoms depth c) (pos : Nat) :
    g.Descends input ⟨c, pos⟩ (g.topDown input c pos) := by
  induction depth generalizing c pos with
  | zero => exact hdepth.elim
  | succ depth ih =>
      have hnext : ∀ j ∈ g.next c, ∀ q, g.Descends input ⟨j, q⟩ (g.topDown input j q) :=
        fun j hj => ih (acyclic_of_mem_next hg hc hj) (hdepth j hj)
      by_cases hshape : ∃ slot, g.shape c = .unary .oneOrMore slot
      · obtain ⟨slot, hshape⟩ := hshape
        rw [topDown_eq_nest hg hc hshape]
        exact .loop hshape (loops_gather (hnext _ (mem_next_of_unary hshape)) (Nat.lt_succ_self _) [])
      · have hshape := not_exists.mp hshape
        rw [topDown_step hg hc]
        exact .step hshape fun r hr => hnext _ (Shape.mem_children_of_mem_calls hshape hr) r.start

theorem descends_topDown (hg : g.Lawful) {c : Nat} (hc : (g.clause c).acyclic = true) (pos : Nat) :
    g.Descends input ⟨c, pos⟩ (g.topDown input c pos) :=
  descends_of_fathoms hg hc (fathoms_size hg hc) pos

mutual

theorem Descends.eq_topDown (hg : g.Lawful) {k : Key} {found : Option Match}
    (hk : (g.clause k.clause).acyclic = true) :
    g.Descends input k found → found = g.topDown input k.clause k.start
  | .step hshape hcalls => by
      rw [topDown_step hg hk]
      refine Shape.step_congr_calls (fun r hr => ?_) input
      have hnext := Shape.mem_children_of_mem_calls hshape hr
      exact Descends.eq_topDown hg (acyclic_of_mem_next hg hk hnext) (hcalls r hr)
  | .loop hshape hloop => by
      have hslot := acyclic_of_mem_next hg hk (mem_next_of_unary hshape)
      rw [topDown_eq_nest hg hk hshape, Loops.eq_gather hg hslot (Nat.lt_succ_self _) hloop]

theorem Loops.eq_gather (hg : g.Lawful) {slot : Slot} {taken all : List Match} {pos fuel : Nat}
    (hslot : (g.clause slot.clause).acyclic = true) (hfuel : input.size - pos < fuel + 1) :
    g.Loops input slot taken pos all →
      all = Look.gather (g.topDown input) slot (fuel + 1) taken pos
  | .fails hrun => by
      rw [Look.gather, ← Descends.eq_topDown hg hslot hrun]
  | .rests hrun hlength => by
      rw [Look.gather, ← Descends.eq_topDown hg hslot hrun]
      simp only [hlength, if_true]
  | .takes hrun hlength hrest => by
      have hm : g.topDown input slot.clause pos = some _ :=
        (Descends.eq_topDown hg hslot hrun).symm
      have hstop := topDown_stop_of_pos hm (Nat.pos_of_ne_zero hlength)
      obtain ⟨fuel, rfl⟩ := Nat.exists_eq_add_one_of_ne_zero (show fuel ≠ 0 by omega)
      rw [Look.gather, hm]
      simp only [hlength, if_false]
      exact Loops.eq_gather hg hslot (by omega) hrest

end

end Grammar

end BottomUpPeg
