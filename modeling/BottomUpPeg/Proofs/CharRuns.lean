import BottomUpPeg.Proofs.Greedy

namespace BottomUpPeg

namespace Input

theorem meets_append (set : CharSet) (front back : List Char) :
    meets (front ++ back).toArray set front.length = back.head?.any set.contains := by
  rw [meets, List.getElem?_toArray, List.getElem?_append_right (Nat.le_refl _), Nat.sub_self,
    List.head?_eq_getElem?]

theorem meets_of_mem (set : CharSet) (front text back : List Char)
    (htext : ∀ c ∈ text, set.contains c = true) :
    ∀ j < text.length, meets (front ++ text ++ back).toArray set (front.length + j) = true := by
  intro j hj
  rw [meets, List.getElem?_toArray, List.append_assoc, List.getElem?_append_right (by omega),
    Nat.add_sub_cancel_left, List.getElem?_append_left hj, List.getElem?_eq_getElem hj]
  exact htext _ (List.getElem_mem hj)

structure Spans (input : Input) (set : CharSet) (pos length : Nat) : Prop where
  inside : ∀ j < length, input.meets set (pos + j) = true
  after : input.meets set (pos + length) = false

theorem spans_append {set : CharSet} (front : List Char) {text back : List Char}
    (htext : ∀ c ∈ text, set.contains c = true)
    (hback : back.head?.any set.contains = false) :
    Spans (front ++ text ++ back).toArray set front.length text.length := by
  refine ⟨meets_of_mem set front text back htext, ?_⟩
  rw [← List.length_append, meets_append]
  exact hback

end Input

namespace CharSet

theorem contains_range_iff {a b : Char} (hab : a.toNat ≤ b.toNat) (hb : b.toNat < 0xD000)
    (c : Char) : (CharSet.range a b).contains c = true ↔ a.toNat ≤ c.toNat ∧ c.toNat ≤ b.toNat := by
  have hrank : ∀ x : Char, x.toNat < 0xD000 → rank x = x.toNat := fun x hx => by
    rw [rank, if_pos (by omega)]
  have ha := hrank a (hab.trans_lt hb)
  rw [contains_range (by rw [ha, hrank b hb]; exact hab), ha, hrank b hb,
    le_rank_iff (hab.trans_lt hb), rank_le_iff hb]

theorem contains_singleton {c x : Char} (hx : x.toNat < 0xD000) :
    (CharSet.singleton x).contains c = true ↔ c = x := by
  rw [singleton, contains_range_iff (Nat.le_refl _) hx]
  constructor
  · rintro ⟨hle, hge⟩
    exact Char.toNat_inj.mp (Nat.le_antisymm hge hle)
  · rintro rfl
    exact ⟨Nat.le_refl _, Nat.le_refl _⟩

end CharSet

theorem Input.not_meets_of_char {input : Input} {set : CharSet} {pos : Nat} {x : Char}
    (hx : x.toNat < 0xD000) (hset : set.contains x = false)
    (h : input.meets (CharSet.singleton x) pos = true) : input.meets set pos = false := by
  rw [meets] at h ⊢
  cases hc : input[pos]? with
  | none => rfl
  | some c =>
      rw [hc, Option.any_some, CharSet.contains_singleton hx] at h
      rwa [h]

namespace Grammar

variable {g : Grammar} {input : Input} {c d pos : Nat} {set : CharSet}

theorem lookup_chars (hlt : c < g.size) (hshape : g.shape c = .terminal (.chars set)) (view : View)
    (hmeets : input.meets set pos = true) :
    g.lookup input view c pos = some (Match.leaf c pos 1) := by
  have htakes := Input.takes_chars_iff.mpr ⟨rfl, hmeets⟩
  rw [lookup_terminal hlt hshape, (Terminal.length?_eq_some_iff ..).mpr htakes]
  rfl

structure Runs (g : Grammar) (c d : Nat) (set : CharSet) : Prop where
  run : g.shape c = .unary .oneOrMore ⟨d, none⟩
  char : g.shape d = .terminal (.chars set)

namespace Runs

variable (h : g.Runs c d set)

include h

theorem isMemoized : (g.shape c).isMemoized = true := by
  rw [h.run]
  rfl

theorem greedy (input : Input) (pos : Nat) : g.Greedy input ⟨c, pos⟩ := by
  refine greedy_oneOrMore h.run fun a b a' b' ha _ ha' _ => ?_
  rw [(ha.of_chars h.char).1, (ha'.of_chars h.char).1]

theorem meets_of_fits {m : Match} (hm : m.Fits g input ⟨c, pos⟩) :
    0 < m.length ∧ ∀ j < m.length, input.meets set (pos + j) = true := by
  induction hlength : m.length using Nat.strong_induction_on generalizing m pos with
  | _ length ih =>
      obtain ⟨head, hhead, hcases⟩ := hm.of_oneOrMore h.run
      obtain ⟨rfl, hmeets⟩ := hhead.of_chars h.char
      rcases hcases with rfl | ⟨rest, hrest, rfl⟩
      · subst hlength
        refine ⟨Nat.one_pos, fun j hj => ?_⟩
        rwa [show j = 0 from Nat.lt_one_iff.mp hj]
      · change 1 + rest.length = length at hlength
        obtain ⟨_, hmore⟩ := ih rest.length (by omega) hrest rfl
        refine ⟨by omega, fun j hj => ?_⟩
        cases j with
        | zero => exact hmeets
        | succ j =>
            rw [show pos + (j + 1) = pos + 1 + j by omega]
            exact hmore j (by omega)

theorem length_le {m : Match} (hm : m.Fits g input ⟨c, pos⟩) {length : Nat}
    (hstop : input.meets set (pos + length) = false) : m.length ≤ length := by
  by_contra hlt
  rw [(h.meets_of_fits hm).2 length (Nat.lt_of_not_le hlt)] at hstop
  cases hstop

theorem length_eq {m : Match} (hm : m.Fits g input ⟨c, pos⟩)
    (hend : input.meets set (pos + m.length) = false) {length : Nat}
    (hspans : input.Spans set pos length) : m.length = length := by
  apply Nat.le_antisymm (h.length_le hm hspans.after)
  by_contra hlt
  rw [hspans.inside m.length (Nat.lt_of_not_le hlt)] at hend
  cases hend

theorem nodes_eq (hlabel : (g.clause d).label = none) {m : Match} (hm : m.Fits g input ⟨c, pos⟩) :
    m.nodes g input = [] := by
  induction hlength : m.length using Nat.strong_induction_on generalizing m pos with
  | _ length ih =>
      obtain ⟨head, hhead, hcases⟩ := hm.of_oneOrMore h.run
      have hnone : head.wrap g input none (head.nodes g input) = [] := by
        rw [hhead.nodes_of_terminal h.char, hhead.wrap_eq hlabel]
      rcases hcases with rfl | ⟨rest, hrest, rfl⟩
      · simp only [Match.nodes, h.run, Match.nodesInHead, Match.nodesInTail, hnone, List.append_nil]
      · have hpos : head.length = 1 := congrArg Match.length (hhead.of_chars h.char).1
        have hmore := ih rest.length (by simp only at hlength; omega) hrest rfl
        simp only [Match.nodes, h.run, Match.nodesInHead, Match.nodesInTail, hnone, hmore,
          List.append_nil]

theorem le_lengthOf_topDown (hg : g.Lawful) (hc : (g.clause c).acyclic = true) {length : Nat}
    (hmeets : ∀ j < length, input.meets set (pos + j) = true) :
    length ≤ Match.lengthOf (g.topDown input c pos) := by
  induction length generalizing pos with
  | zero => exact Nat.zero_le _
  | succ length ih =>
      have hd := acyclic_of_mem_next hg hc (mem_next_of_unary h.run)
      have hhere := hmeets 0 (Nat.succ_pos _)
      have htakes : (Terminal.chars set).Takes input pos 1 := Input.takes_chars_iff.mpr ⟨rfl, hhere⟩
      have hsize := htakes.le_size
      have hhead : g.topDown input d pos = some (Match.leaf d pos 1) := by
        rw [topDown_eq hg hd (by omega), h.char, Shape.step,
          (Terminal.length?_eq_some_iff ..).mpr htakes]
        rfl
      have hafter : ∀ j < length, input.meets set (pos + 1 + j) = true := by
        intro j hj
        rw [show pos + 1 + j = pos + (j + 1) by omega]
        exact hmeets (j + 1) (by omega)
      have hrest := ih hafter
      rw [topDown_eq hg hc (by omega), h.run, Shape.step,
        Look.lengthOf_repeated hhead Nat.one_pos]
      change length + 1 ≤ 1 + Match.lengthOf (g.topDown input c (pos + 1))
      omega

theorem topDown_of_spans (hg : g.Lawful) (hc : (g.clause c).acyclic = true) {length : Nat}
    (hpos : 0 < length) (hspans : input.Spans set pos length) :
    ∃ m, g.topDown input c pos = some m ∧ m.Fits g input ⟨c, pos⟩ ∧ m.length = length := by
  have htakes := Input.takes_chars_iff.mpr ⟨rfl, hspans.inside 0 hpos⟩
  have hle := h.le_lengthOf_topDown hg hc hspans.inside
  cases hm : g.topDown input c pos with
  | none =>
      rw [hm] at hle
      exact absurd hle (Nat.not_le.mpr hpos)
  | some m =>
      rw [hm] at hle
      have hsize := htakes.le_size
      have hfits := topDown_sound c pos m (by omega) hm
      exact ⟨m, rfl, hfits, Nat.le_antisymm (h.length_le hfits hspans.after) hle⟩

end Runs

end Grammar

end BottomUpPeg
