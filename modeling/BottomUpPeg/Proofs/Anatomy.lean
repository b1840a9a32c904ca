import BottomUpPeg.Proofs.Ranking
import BottomUpPeg.Tree.Extract

namespace BottomUpPeg

def Input.meets (input : Input) (set : CharSet) (pos : Nat) : Bool := input[pos]?.any set.contains

namespace Input

theorem takes_chars_iff {input : Input} {set : CharSet} {pos length : Nat} :
    (Terminal.chars set).Takes input pos length ↔ length = 1 ∧ input.meets set pos = true := by
  rw [Terminal.Takes, meets]
  cases input[pos]? <;> simp

end Input

namespace Match

variable {g : Grammar} {input : Input} {c pos : Nat} {m : Match}

@[simp] theorem totalLength_nil : totalLength [] = 0 := rfl

@[simp] theorem totalLength_cons (m : Match) (parts : List Match) :
    totalLength (m :: parts) = m.length + totalLength parts := by
  simp [totalLength]

def Line (g : Grammar) (input : Input) : List Slot → Nat → List Match → Prop
  | [], _, parts => parts = []
  | s :: slots, pos, parts =>
      ∃ m rest, parts = m :: rest ∧ m.Fits g input ⟨s.clause, pos⟩ ∧
        Line g input slots (pos + m.length) rest

theorem line_of_endToEnd {slots : List Slot} {parts : List Match}
    (hclauses : parts.map (·.clause) = slots.map (·.clause)) (hends : EndToEnd pos parts)
    (hall : ∀ p ∈ parts, p.WellFormed g input) : Line g input slots pos parts := by
  induction slots generalizing pos parts with
  | nil => exact List.map_eq_nil_iff.mp hclauses
  | cons s slots ih =>
      cases parts with
      | nil => cases hclauses
      | cons p parts =>
          obtain ⟨hclause, hrest⟩ := List.cons.inj hclauses
          obtain ⟨hstart, hends⟩ := hends
          obtain ⟨hp, hall⟩ := List.forall_mem_cons.mp hall
          rw [stop, hstart] at hends
          exact ⟨p, parts, rfl, ⟨hclause, hstart, hp⟩, ih hrest hends hall⟩

theorem Fits.le_size (h : m.Fits g input ⟨c, pos⟩) : pos + m.length ≤ input.size := by
  have hstop := h.wellFormed.stop_le
  rwa [stop, h.start_eq] at hstop

theorem Fits.of_chars {set : CharSet} (hshape : g.shape c = .terminal (.chars set))
    (h : m.Fits g input ⟨c, pos⟩) : m = leaf c pos 1 ∧ input.meets set pos = true := by
  obtain ⟨hclause, hstart, hwf⟩ := h
  obtain ⟨htakes, hindex, hparts⟩ := hwf.composed_of_shape hclause hshape
  obtain ⟨hlength, hmeets⟩ := Input.takes_chars_iff.mp htakes
  rw [hstart] at hmeets
  exact ⟨ext_fields hclause.symm hstart.symm hlength hindex hparts, hmeets⟩

theorem Fits.length_of_nothing (hshape : g.shape c = .terminal .nothing)
    (h : m.Fits g input ⟨c, pos⟩) : m.length = 0 :=
  (h.wellFormed.composed_of_shape h.clause_eq hshape).1.1

theorem nodes_choose {slots : List Slot} (hshape : g.shape c = .group .first slots) {i : Nat}
    {slot : Slot} (hslot : slots[i]? = some slot) (p : Match) :
    (choose c pos (i, p)).nodes g input = p.wrap g input slot.label (p.nodes g input) := by
  simp only [nodes, choose, hshape, hslot, nodesInHead]

theorem Fits.nodes_of_terminal {t : Terminal} (hshape : g.shape c = .terminal t)
    (h : m.Fits g input ⟨c, pos⟩) : m.nodes g input = [] := by
  obtain ⟨clause, start, length, index, parts⟩ := m
  obtain rfl : clause = c := h.clause_eq
  rw [nodes, hshape]

theorem Fits.wrap_eq (hlabel : (g.clause c).label = none) (h : m.Fits g input ⟨c, pos⟩)
    (nodes : List Node) : m.wrap g input none nodes = nodes := by
  rw [wrap, h.clause_eq, hlabel, Option.none_or]

theorem Fits.of_seq {slots : List Slot} (hshape : g.shape c = .group .seq slots)
    (h : m.Fits g input ⟨c, pos⟩) :
    ∃ parts, Line g input slots pos parts ∧ m = ⟨c, pos, totalLength parts, 0, parts⟩ := by
  obtain ⟨hclause, hstart, hwf⟩ := h
  obtain ⟨hindex, hlength, hclauses, hends, hall⟩ := hwf.composed_of_shape hclause hshape
  rw [hstart] at hends
  exact ⟨m.parts, line_of_endToEnd hclauses hends hall,
    ext_fields hclause.symm hstart.symm hlength hindex rfl⟩

theorem Fits.of_first {slots : List Slot} (hshape : g.shape c = .group .first slots)
    (h : m.Fits g input ⟨c, pos⟩) :
    ∃ i slot p, slots[i]? = some slot ∧ p.Fits g input ⟨slot.clause, pos⟩ ∧
      m = choose c pos (i, p) := by
  obtain ⟨hclause, hstart, hwf⟩ := h
  obtain ⟨slot, p, hslot, hfits, hlength, hparts⟩ := hwf.composed_of_shape hclause hshape
  rw [hstart] at hfits
  exact ⟨m.index, slot, p, hslot, hfits, ext_fields hclause.symm hstart.symm hlength rfl hparts⟩

theorem Fits.of_either {s s' : Slot} (hshape : g.shape c = .group .first [s, s'])
    (h : m.Fits g input ⟨c, pos⟩) :
    (∃ p, p.Fits g input ⟨s.clause, pos⟩ ∧ m = choose c pos (0, p)) ∨
      ∃ p, p.Fits g input ⟨s'.clause, pos⟩ ∧ m = choose c pos (1, p) := by
  obtain ⟨i, slot, p, hslot, hp, rfl⟩ := h.of_first hshape
  rcases i with _ | _ | i <;> cases hslot
  · exact .inl ⟨p, hp, rfl⟩
  · exact .inr ⟨p, hp, rfl⟩

theorem Fits.of_oneOrMore {slot : Slot} (hshape : g.shape c = .unary .oneOrMore slot)
    (h : m.Fits g input ⟨c, pos⟩) :
    ∃ head, head.Fits g input ⟨slot.clause, pos⟩ ∧
      (m = ⟨c, pos, head.length, 0, [head]⟩ ∨
        ∃ rest, rest.Fits g input ⟨c, pos + head.length⟩ ∧
          m = ⟨c, pos, head.length + rest.length, 0, [head, rest]⟩) := by
  obtain ⟨hclause, hstart, hwf⟩ := h
  obtain ⟨head, hhead, hindex, hcases⟩ := hwf.composed_of_shape hclause hshape
  rw [hstart] at hhead
  have hstop : head.stop = pos + head.length := by rw [stop, hhead.start_eq]
  refine ⟨head, hhead, ?_⟩
  rcases hcases with ⟨hlength, hparts⟩ | ⟨rest, hrest, hlength, hparts⟩
  · exact .inl (ext_fields hclause.symm hstart.symm hlength hindex hparts)
  · rw [hclause, hstop] at hrest
    exact .inr ⟨rest, hrest, ext_fields hclause.symm hstart.symm hlength hindex hparts⟩

end Match

end BottomUpPeg
