import BottomUpPeg.Proofs.Lawful
import BottomUpPeg.Proofs.Ranking
import Mathlib.Algebra.Order.BigOperators.Group.List
import Mathlib.Algebra.Order.Group.Nat

namespace BottomUpPeg

namespace Match

mutual

def height : Match → Nat
  | ⟨_, _, _, _, parts⟩ => heightAll parts + 1

def heightAll : List Match → Nat
  | [] => 0
  | m :: rest => max (height m) (heightAll rest)

end

theorem height_eq (m : Match) : m.height = heightAll m.parts + 1 := by
  cases m
  rw [height]

theorem heightAll_le_iff {ms : List Match} {bound : Nat} :
    heightAll ms ≤ bound ↔ ∀ m ∈ ms, m.height ≤ bound := by
  induction ms with
  | nil => simp [heightAll]
  | cons m ms ih => rw [heightAll, max_le_iff, ih, List.forall_mem_cons]

theorem height_lt_of_mem {m x : Match} (hx : x ∈ m.parts) : x.height < m.height := by
  rw [height_eq m]
  exact Nat.lt_succ_of_le (heightAll_le_iff.mp (Nat.le_refl _) x hx)

end Match

namespace Graph

variable {next : Nat → List Nat} {size : Nat}

def rank (next : Nat → List Nat) (size v : Nat) : Nat := (beyond next size v).toFinset.card

theorem rank_le (hb : Bounded next size) (v : Nat) : rank next size v ≤ size := by
  have hsub : (beyond next size v).toFinset ⊆ Finset.range size := by
    intro w hw
    rw [List.mem_toFinset, mem_beyond hb] at hw
    exact Finset.mem_range.mpr (hb.lt_of_leadsTo hw)
  have hcard := Finset.card_le_card hsub
  rwa [Finset.card_range] at hcard

theorem rank_lt (hb : Bounded next size) (hfree : ∀ v, ¬LeadsTo next v v) {v w : Nat}
    (h : w ∈ next v) : rank next size w < rank next size v := by
  apply Finset.card_lt_card
  constructor
  · intro u hu
    rw [List.mem_toFinset, mem_beyond hb] at hu ⊢
    exact .head h hu
  · intro hsub
    have hmem : w ∈ (beyond next size v).toFinset := by
      rw [List.mem_toFinset, mem_beyond hb]
      exact .single h
    have hself := hsub hmem
    rw [List.mem_toFinset, mem_beyond hb] at hself
    exact hfree w hself

theorem not_leadsTo_self_of_onCycle (hb : Bounded next size)
    (h : ∀ v < size, onCycle next size v = false) (v : Nat) : ¬LeadsTo next v v := by
  intro hcycle
  have hset := h v (hb.lt_of_leadsTo hcycle)
  rw [(onCycle_iff hb v).mpr hcycle] at hset
  cases hset

end Graph

namespace Shape

def spanning (zero : Nat → Bool) : List Slot → List Nat
  | [] => []
  | s :: rest =>
      (if rest.all fun t => zero t.clause then [s.clause] else []) ++
        if zero s.clause then spanning zero rest else []

def fillers (zero : Nat → Bool) : Shape → List Nat
  | .terminal _ => []
  | .group .seq slots => spanning zero slots
  | .group _ slots => slots.map (·.clause)
  | .unary .oneOrMore slot => [slot.clause]
  | .unary _ _ => []

theorem spanning_subset (zero : Nat → Bool) (slots : List Slot) :
    ∀ c ∈ spanning zero slots, c ∈ slots.map (·.clause) := by
  induction slots with
  | nil => simp [spanning]
  | cons s slots ih =>
      intro c hc
      rw [spanning, List.mem_append] at hc
      rw [List.map_cons, List.mem_cons]
      rcases hc with hc | hc
      · split at hc
        · exact .inl (List.mem_singleton.mp hc)
        · cases hc
      · split at hc
        · exact .inr (ih c hc)
        · cases hc

theorem fillers_subset (zero : Nat → Bool) (s : Shape) : ∀ c ∈ s.fillers zero, c ∈ s.children := by
  cases s with
  | terminal t => simp [fillers]
  | group kind slots =>
      cases kind with
      | seq => exact spanning_subset zero slots
      | first | longest => exact fun _ hc => hc
  | unary kind slot =>
      cases kind with
      | oneOrMore => exact fun _ hc => hc
      | followedBy | notFollowedBy => simp [fillers]

end Shape

namespace Match

theorem length_le_totalLength {parts : List Match} {x : Match} (hx : x ∈ parts) :
    x.length ≤ totalLength parts := List.le_sum_of_mem (List.mem_map_of_mem hx)

theorem mem_spanning {zero : Nat → Bool} {slots : List Slot} {parts : List Match}
    (hclauses : parts.map (·.clause) = slots.map (·.clause))
    (hzero : ∀ p ∈ parts, p.length = 0 → zero p.clause = true) {x : Match} (hx : x ∈ parts)
    (hlength : x.length = totalLength parts) : x.clause ∈ Shape.spanning zero slots := by
  induction parts generalizing slots with
  | nil => cases hx
  | cons p parts ih =>
      cases slots with
      | nil => cases hclauses
      | cons s slots =>
          rw [List.map_cons, List.map_cons, List.cons.injEq] at hclauses
          obtain ⟨hhead, htail⟩ := hclauses
          obtain ⟨hzerohead, hzerotail⟩ := List.forall_mem_cons.mp hzero
          have htotal : totalLength (p :: parts) = p.length + totalLength parts := by
            simp [totalLength]
          rw [Shape.spanning, List.mem_append]
          rcases List.mem_cons.mp hx with rfl | hx
          · left
            have hclauses : ∀ c ∈ slots.map (·.clause), zero c = true := by
              rw [← htail]
              intro c hc
              obtain ⟨q, hq, rfl⟩ := List.mem_map.mp hc
              have hle := length_le_totalLength hq
              exact hzerotail q hq (by omega)
            have hall : (slots.all fun t => zero t.clause) = true := by simpa using hclauses
            rw [if_pos hall, hhead]
            exact List.mem_singleton_self _
          · right
            have hle := length_le_totalLength hx
            have hempty : zero s.clause = true := hhead ▸ hzerohead (by omega)
            rw [if_pos hempty]
            exact ih htail hzerotail hx (by omega)

end Match

namespace Grammar

variable {g : Grammar} {input : Input}

def fills (g : Grammar) (c : Nat) : List Nat := (g.shape c).fillers g.zero

theorem zero_of_shape (hg : g.Lawful) {c : Nat} (hc : c < g.size) {s : Shape}
    (hshape : g.shape c = s) : g.zero c = (s.flags g.flags).zero :=
  hshape ▸ congrArg Flags.zero (hg.flags_eq c hc)

theorem fills_bounded (hg : g.Lawful) : Graph.Bounded g.fills g.size := fun c d hd =>
  hg.bounded c d (Shape.fillers_subset _ _ d hd)

end Grammar

namespace Match

variable {g : Grammar} {input : Input} {m : Match}

theorem WellFormed.zero_of_length (hg : g.Lawful) (h : m.WellFormed g input) (hc : m.clause < g.size)
    (hlength : m.length = 0) : g.zero m.clause = true := by
  induction h with
  | @terminal c pos length t hshape htakes =>
      rw [Grammar.zero_of_shape hg hc hshape]
      cases t with
      | chars set => exact absurd (htakes.1.symm.trans hlength) Nat.one_ne_zero
      | literal text ignoreCase =>
          exact List.isEmpty_iff_length_eq_zero.mpr (htakes.1.symm.trans hlength)
      | nothing | start => rfl
  | @seq c pos slots parts hshape _ hclauses _ _ ih =>
      rw [Grammar.zero_of_shape hg hc hshape]
      refine List.all_eq_true.mpr fun s hs => ?_
      have hmem : s.clause ∈ parts.map (·.clause) := hclauses ▸ List.mem_map_of_mem hs
      obtain ⟨p, hp, hclause⟩ := List.mem_map.mp hmem
      have hle := length_le_totalLength hp
      have hlt := hg.bounded c s.clause (Grammar.mem_next_of_group hshape hs)
      rw [← hclause] at hlt ⊢
      exact ih p hp hlt (Nat.le_zero.mp (hlength ▸ hle))
  | @choice c i kind slots slot p hshape hkind hslot hclause _ ih =>
      have hmem := List.mem_of_getElem? hslot
      have hlt := hg.bounded c slot.clause (Grammar.mem_next_of_group hshape hmem)
      have hany : (slots.any fun s => (g.flags s.clause).zero) = true := by
        rw [← hclause] at hlt
        exact List.any_eq_true.mpr ⟨slot, hmem, hclause ▸ ih hlt hlength⟩
      rw [Grammar.zero_of_shape hg hc hshape]
      cases kind with
      | seq => exact absurd rfl hkind
      | first | longest => exact hany
  | @once c slot p hshape hclause _ ih =>
      have hlt := hg.bounded c slot.clause (Grammar.mem_next_of_unary hshape)
      rw [← hclause] at hlt
      have hzero := ih hlt hlength
      rw [hclause] at hzero
      rw [Grammar.zero_of_shape hg hc hshape]
      exact hzero
  | more _ _ _ _ hpos =>
      simp only at hlength
      omega
  | @lookahead c pos kind slot hshape hkind _ =>
      rw [Grammar.zero_of_shape hg hc hshape]
      cases kind with
      | oneOrMore => exact absurd rfl hkind
      | followedBy | notFollowedBy => rfl

theorem WellFormed.of_mem_parts (hg : g.Lawful) (h : m.WellFormed g input) (hc : m.clause < g.size)
    {x : Match} (hx : x ∈ m.parts) :
    x.WellFormed g input ∧ x.clause < g.size ∧
      (x.length < m.length ∨ x.length = m.length ∧ x.clause ∈ g.fills m.clause) := by
  cases h with
  | terminal | lookahead => cases hx
  | @seq c pos slots parts hshape _ hclauses _ hall =>
      have hlt : ∀ p ∈ parts, p.clause < g.size := by
        intro p hp
        have hmem : p.clause ∈ slots.map (·.clause) := hclauses ▸ List.mem_map_of_mem hp
        obtain ⟨s, hs, hclause⟩ := List.mem_map.mp hmem
        exact hclause ▸ hg.bounded c s.clause (Grammar.mem_next_of_group hshape hs)
      refine ⟨hall x hx, hlt x hx, ?_⟩
      rcases Nat.lt_or_eq_of_le (length_le_totalLength hx) with hless | heq
      · exact .inl hless
      · refine .inr ⟨heq, ?_⟩
        rw [Grammar.fills, hshape]
        exact mem_spanning hclauses (fun p hp => (hall p hp).zero_of_length hg (hlt p hp)) hx heq
  | @choice c i kind slots slot p hshape hkind hslot hclause hp =>
      obtain rfl := List.mem_singleton.mp hx
      have hmem := List.mem_of_getElem? hslot
      have hnext := Grammar.mem_next_of_group hshape hmem
      refine ⟨hp, hclause ▸ hg.bounded c _ hnext, .inr ⟨rfl, ?_⟩⟩
      rw [Grammar.fills, hshape, hclause]
      cases kind with
      | seq => exact absurd rfl hkind
      | first | longest => exact List.mem_map_of_mem hmem
  | @once c slot p hshape hclause hp =>
      obtain rfl := List.mem_singleton.mp hx
      refine ⟨hp, hclause ▸ hg.bounded c _ (Grammar.mem_next_of_unary hshape), .inr ⟨rfl, ?_⟩⟩
      rw [Grammar.fills, hshape, hclause]
      exact List.mem_singleton_self _
  | @more c slot p rest hshape hclause hrest _ hpos hpos' hp hwf =>
      rcases List.mem_cons.mp hx with rfl | hx
      · exact ⟨hp, hclause ▸ hg.bounded c _ (Grammar.mem_next_of_unary hshape),
          .inl (Nat.lt_add_of_pos_right hpos')⟩
      · obtain rfl := List.mem_singleton.mp hx
        exact ⟨hwf, hrest ▸ hc, .inl (Nat.lt_add_of_pos_left hpos)⟩

theorem WellFormed.height_le (hg : g.Lawful) (hfree : ∀ c, ¬Graph.LeadsTo g.fills c c)
    (h : m.WellFormed g input) (hc : m.clause < g.size) :
    m.height ≤ m.length * (g.size + 1) + Graph.rank g.fills g.size m.clause + 1 := by
  induction hheight : m.height using Nat.strong_induction_on generalizing m with
  | _ height ih =>
      subst hheight
      rw [height_eq, Nat.add_le_add_iff_right, heightAll_le_iff]
      intro x hx
      obtain ⟨hwf, hlt, hless | ⟨heq, hfills⟩⟩ := h.of_mem_parts hg hc hx
      · have hx := ih x.height (height_lt_of_mem hx) hwf hlt rfl
        have hrank := Graph.rank_le (Grammar.fills_bounded hg) x.clause
        calc x.height ≤ x.length * (g.size + 1) + g.size + 1 := by omega
          _ = (x.length + 1) * (g.size + 1) := by rw [Nat.add_mul, Nat.one_mul, Nat.add_assoc]
          _ ≤ m.length * (g.size + 1) := Nat.mul_le_mul_right _ hless
          _ ≤ m.length * (g.size + 1) + Graph.rank g.fills g.size m.clause := Nat.le_add_right ..
      · have hx := ih x.height (height_lt_of_mem hx) hwf hlt rfl
        have hrank := Graph.rank_lt (Grammar.fills_bounded hg) hfree hfills
        rw [heq] at hx
        omega

end Match

end BottomUpPeg
