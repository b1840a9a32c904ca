import BottomUpPeg.Proofs.Derivation
import BottomUpPeg.Proofs.Lawful

namespace BottomUpPeg

namespace Look

variable {look look' : Look}

theorem chain_congr {slots : List Slot} (h : ∀ s ∈ slots, ∀ p, look s.clause p = look' s.clause p)
    (pos : Nat) : look.chain slots pos = look'.chain slots pos := by
  induction slots generalizing pos with
  | nil => rfl
  | cons s slots ih =>
      rw [chain, chain, h s (List.mem_cons_self ..)]
      cases look' s.clause pos with
      | none => rfl
      | some m => simp only [ih fun t ht => h t (List.mem_cons_of_mem _ ht)]

theorem first_congr {slots : List Slot} {pos : Nat}
    (h : ∀ s ∈ slots, look s.clause pos = look' s.clause pos) (i : Nat) :
    look.first pos i slots = look'.first pos i slots := by
  induction slots generalizing i with
  | nil => rfl
  | cons s slots ih =>
      rw [first, first, h s (List.mem_cons_self ..), ih fun t ht => h t (List.mem_cons_of_mem _ ht)]

theorem longest_congr {slots : List Slot} {pos : Nat}
    (h : ∀ s ∈ slots, look s.clause pos = look' s.clause pos) (i : Nat) :
    look.longest pos i slots = look'.longest pos i slots := by
  induction slots generalizing i with
  | nil => rfl
  | cons s slots ih =>
      rw [longest, longest, h s (List.mem_cons_self ..),
        ih fun t ht => h t (List.mem_cons_of_mem _ ht)]

theorem repeated_congr {tail tail' : Nat → Option Match} {slot : Slot} {pos : Nat}
    (h : look slot.clause pos = look' slot.clause pos)
    (htail : ∀ head, look' slot.clause pos = some head → 0 < head.length →
      tail head.stop = tail' head.stop) (c : Nat) :
    look.repeated tail c slot pos = look'.repeated tail' c slot pos := by
  rw [repeated, repeated, h]
  cases hhead : look' slot.clause pos with
  | none => rfl
  | some head =>
      by_cases hzero : head.length = 0
      · simp only [hzero, if_true]
      · simp only [hzero, if_false, htail head hhead (Nat.pos_of_ne_zero hzero)]

theorem repetition_congr {slot : Slot} (h : ∀ p, look slot.clause p = look' slot.clause p)
    (c fuel pos : Nat) :
    look.repetition c slot fuel pos = look'.repetition c slot fuel pos := by
  induction fuel generalizing pos with
  | zero => rfl
  | succ fuel ih =>
      rw [repetition, repetition]
      exact repeated_congr (h pos) (fun head _ _ => ih head.stop) c

theorem repetition_stable {g : Grammar} {input : Input} (hlook : look.Sound g input) (c : Nat)
    (slot : Slot) {fuel fuel' pos : Nat} (hpos : pos ≤ input.size) (hfuel : input.size - pos < fuel)
    (hfuel' : input.size - pos < fuel') :
    look.repetition c slot fuel pos = look.repetition c slot fuel' pos := by
  induction fuel generalizing fuel' pos with
  | zero => omega
  | succ fuel ih =>
      cases fuel' with
      | zero => omega
      | succ fuel' =>
          rw [repetition, repetition]
          refine repeated_congr rfl (fun head hhead hlength => ?_) c
          obtain ⟨_, hstart, hwf⟩ := hlook _ _ _ hpos hhead
          have hstop := hwf.stop_le
          simp only [Match.stop] at hstart hstop ⊢
          exact ih (by omega) (by omega) (by omega)

end Look

theorem Shape.step_congr {look look' : Look} {s : Shape} {tail : Nat → Option Match}
    (h : ∀ j ∈ s.children, ∀ p, look j p = look' j p) (input : Input) (c pos : Nat) :
    s.step input look tail c pos = s.step input look' tail c pos := by
  cases s with
  | terminal t => rfl
  | group kind slots =>
      have hslots : ∀ s ∈ slots, ∀ p, look s.clause p = look' s.clause p :=
        fun s hs => h s.clause (List.mem_map_of_mem hs)
      cases kind with
      | seq => rw [step, step, Look.chain_congr hslots]
      | first => rw [step, step, Look.first_congr fun s hs => hslots s hs pos]
      | longest => rw [step, step, Look.longest_congr fun s hs => hslots s hs pos]
  | unary kind slot =>
      have hslot : ∀ p, look slot.clause p = look' slot.clause p :=
        h slot.clause (List.mem_singleton_self _)
      cases kind with
      | oneOrMore => exact Look.repeated_congr (hslot pos) (fun _ _ _ => rfl) c
      | followedBy => rw [step, step, hslot]
      | notFollowedBy => rw [step, step, hslot]

namespace Grammar

variable {g : Grammar} {input : Input}

def Fathoms (g : Grammar) : Nat → Nat → Prop
  | 0, _ => False
  | depth + 1, c => ∀ j ∈ g.next c, Fathoms g depth j

theorem descend_stable {depth depth' c : Nat} (h : g.Fathoms depth c) (hle : depth ≤ depth')
    (pos : Nat) : g.descend input depth c pos = g.descend input depth' c pos := by
  induction depth generalizing depth' c pos with
  | zero => exact h.elim
  | succ depth ih =>
      cases depth' with
      | zero => omega
      | succ depth' =>
          have hnext : ∀ j ∈ g.next c, ∀ p, g.descend input depth j p = g.descend input depth' j p :=
            fun j hj p => ih (h j hj) (by omega) p
          rw [descend, descend]
          split
          · rename_i slot hshape
            exact Look.repetition_congr (hnext slot.clause (mem_next_of_unary hshape)) c _ pos
          · exact Shape.step_congr hnext input c pos

theorem acyclic_of_mem_next (hg : g.Lawful) {i j : Nat} (hi : (g.clause i).acyclic = true)
    (hj : j ∈ g.next i) : (g.clause j).acyclic = true := by
  have hlt := (hg.acyclic_iff i (lt_size_of_mem_next hj)).mp hi
  exact (hg.acyclic_iff j (hg.bounded i j hj)).mpr fun k hk => hlt k (.head hj hk)

theorem lt_size_of_acyclic {i : Nat} (h : (g.clause i).acyclic = true) : i < g.size := by
  by_contra hi
  rw [clause_of_size_le (Nat.le_of_not_lt hi)] at h
  cases h

theorem fathoms_of_path (hg : g.Lawful) {path : List Nat} {depth c : Nat}
    (hc : (g.clause c).acyclic = true) (hnodup : path.Nodup)
    (hpath : ∀ v ∈ path, v < g.size ∧ Graph.LeadsTo g.next v c) (hc' : c ∉ path)
    (hdepth : g.size ≤ path.length + depth) : g.Fathoms depth c := by
  induction depth generalizing path c with
  | zero =>
      -- The path would hold every clause, and still not the one it leads to.
      have hle := Graph.length_le_of_nodup (List.nodup_cons.mpr ⟨hc', hnodup⟩)
        (List.forall_mem_cons.mpr ⟨lt_size_of_acyclic hc, fun v hv => (hpath v hv).1⟩)
      rw [List.length_cons] at hle
      omega
  | succ depth ih =>
      intro j hj
      have hacyclic := acyclic_of_mem_next hg hc hj
      have hfree := (hg.acyclic_iff j (lt_size_of_acyclic hacyclic)).mp hacyclic j .refl
      have hleads : ∀ v ∈ c :: path, v < g.size ∧ Graph.LeadsTo g.next v j := by
        intro v hv
        rcases List.mem_cons.mp hv with rfl | hv
        · exact ⟨lt_size_of_acyclic hc, .single hj⟩
        · exact ⟨(hpath v hv).1, .tail (hpath v hv).2 hj⟩
      apply ih hacyclic (List.nodup_cons.mpr ⟨hc', hnodup⟩) hleads
      · exact fun hmem => hfree (hleads j hmem).2
      · rw [List.length_cons]
        omega

theorem fathoms_size (hg : g.Lawful) {c : Nat} (hc : (g.clause c).acyclic = true) :
    g.Fathoms g.size c :=
  fathoms_of_path hg hc List.nodup_nil (by simp) (by simp) (by simp)

theorem descend_eq_topDown (hg : g.Lawful) {depth c : Nat} (hc : (g.clause c).acyclic = true)
    (h : g.Fathoms depth c) (pos : Nat) : g.descend input depth c pos = g.topDown input c pos := by
  rcases Nat.le_total depth g.size with hle | hle
  · exact descend_stable h hle pos
  · exact (descend_stable (fathoms_size hg hc) hle pos).symm

theorem topDown_eq_descend_succ (hg : g.Lawful) {c : Nat} (hc : (g.clause c).acyclic = true)
    (pos : Nat) : g.topDown input c pos = g.descend input (g.size + 1) c pos :=
  descend_stable (fathoms_size hg hc) (Nat.le_succ _) pos

theorem topDown_eq_repetition (hg : g.Lawful) {c : Nat} {slot : Slot}
    (hc : (g.clause c).acyclic = true) (hshape : g.shape c = .unary .oneOrMore slot) (pos : Nat) :
    g.topDown input c pos =
      Look.repetition (g.topDown input) c slot (input.size - pos + 1) pos := by
  rw [topDown_eq_descend_succ hg hc, descend, hshape]
  rfl

theorem topDown_eq (hg : g.Lawful) {c pos : Nat} (hc : (g.clause c).acyclic = true)
    (hpos : pos ≤ input.size) :
    g.topDown input c pos =
      (g.shape c).step input (g.topDown input) (g.topDown input c) c pos := by
  cases hshape : g.shape c with
  | terminal t =>
      rw [topDown_eq_descend_succ hg hc, descend, hshape]
      rfl
  | group kind slots =>
      rw [topDown_eq_descend_succ hg hc, descend, hshape]
      cases kind <;> rfl
  | unary kind slot =>
      cases kind with
      | oneOrMore =>
          rw [topDown_eq_repetition hg hc hshape, Look.repetition, Shape.step]
          refine Look.repeated_congr rfl (fun head hhead hlength => ?_) c
          obtain ⟨_, hstart, hwf⟩ := topDown_sound _ _ _ hpos hhead
          have hstop := hwf.stop_le
          rw [topDown_eq_repetition hg hc hshape]
          simp only [Match.stop] at hstart hstop ⊢
          exact Look.repetition_stable topDown_sound c slot hstop (by omega) (by omega)
      | followedBy | notFollowedBy =>
          rw [topDown_eq_descend_succ hg hc, descend, hshape]
          rfl

theorem lookup_negative_of_acyclic {n : Nat} {slot : Slot}
    (hshape : g.shape n = .unary .notFollowedBy slot)
    (hacyclic : (g.clause slot.clause).acyclic = true) (view : View) (pos : Nat) :
    g.lookup input view n pos =
      match g.topDown input slot.clause pos with
      | some _ => none
      | none => some (Match.leaf n pos 0) := by
  have hlt := lt_size_of_mem_next (mem_next_of_unary hshape)
  obtain ⟨size, hsize⟩ := Nat.exists_eq_add_one_of_ne_zero (Nat.ne_zero_of_lt hlt)
  rw [lookup, hsize, lookupWithin, hshape]
  cases hfound : g.topDown input slot.clause pos with
  | some m => simp [hacyclic, hfound]
  | none => simp [hacyclic, hfound]

end Grammar

end BottomUpPeg
