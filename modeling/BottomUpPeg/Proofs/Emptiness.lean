import BottomUpPeg.Proofs.Descent

namespace BottomUpPeg

def Shape.emptyStep (pos : Nat) (part : Nat → Option Match) (c : Nat) : Shape → Option Match
  | .terminal .nothing => some (Match.leaf c pos 0)
  | .terminal (.literal text _) =>
      if text.toList.isEmpty then some (Match.leaf c pos 0) else none
  | .terminal _ => none
  | .group .seq slots =>
      (slots.mapM fun s => part s.clause).map fun parts => ⟨c, pos, 0, 0, parts⟩
  | .group _ slots =>
      (Look.first (fun j _ => part j) pos 0 slots).map fun (i, m) => ⟨c, pos, 0, i, [m]⟩
  | .unary .oneOrMore slot => (part slot.clause).map fun m => ⟨c, pos, 0, 0, [m]⟩
  | .unary .followedBy _ => some (Match.leaf c pos 0)
  | .unary .notFollowedBy _ => none

theorem mapM_congr {f f' : Nat → Option Match} {slots : List Slot}
    (h : ∀ s ∈ slots, f s.clause = f' s.clause) :
    (slots.mapM fun s => f s.clause) = slots.mapM fun s => f' s.clause := by
  induction slots with
  | nil => rfl
  | cons s slots ih =>
      rw [List.mapM_cons, List.mapM_cons, h s (List.mem_cons_self ..),
        ih fun t ht => h t (List.mem_cons_of_mem _ ht)]

theorem mapM_isSome {f : Nat → Option Match} {slots : List Slot} :
    (slots.mapM fun s => f s.clause).isSome = slots.all fun s => (f s.clause).isSome := by
  induction slots with
  | nil => rfl
  | cons s slots ih =>
      rw [List.mapM_cons, List.all_cons, ← ih]
      cases f s.clause with
      | none => rfl
      | some m => cases slots.mapM fun s => f s.clause <;> rfl

namespace Look

theorem first_isSome {look : Look} {pos : Nat} {slots : List Slot} (i : Nat) :
    (look.first pos i slots).isSome = slots.any fun s => (look s.clause pos).isSome := by
  induction slots generalizing i with
  | nil => rfl
  | cons s slots ih =>
      rw [first, List.any_cons]
      cases look s.clause pos with
      | none => simpa using ih (i + 1)
      | some m => rfl

theorem longest_isSome {look : Look} {pos : Nat} {slots : List Slot} (i : Nat) :
    (look.longest pos i slots).isSome = slots.any fun s => (look s.clause pos).isSome := by
  induction slots generalizing i with
  | nil => rfl
  | cons s slots ih =>
      rw [longest, List.any_cons, ← ih (i + 1)]
      cases look s.clause pos with
      | none => rfl
      | some m =>
          cases look.longest pos (i + 1) slots with
          | none => rfl
          | some later =>
              simp only
              split <;> rfl

theorem longest_eq_first {look : Look} {pos : Nat} {slots : List Slot}
    (h : ∀ s ∈ slots, ∀ m, look s.clause pos = some m → m.length = 0) (i : Nat) :
    look.longest pos i slots = look.first pos i slots := by
  induction slots generalizing i with
  | nil => rfl
  | cons s slots ih =>
      have hrest := ih (fun t ht => h t (List.mem_cons_of_mem _ ht)) (i + 1)
      rw [longest, first, hrest]
      cases hm : look s.clause pos with
      | none => rfl
      | some m =>
          cases hfirst : look.first pos (i + 1) slots with
          | none => rfl
          | some later =>
              obtain ⟨j, n⟩ := later
              obtain ⟨_, slot, _, hslot, hn⟩ := look.first_spec pos slots (i + 1) hfirst
              have hzero := h slot (List.mem_cons_of_mem _ (List.mem_of_getElem? hslot)) n hn
              simp [hzero]

theorem chain_eq_mapM {look : Look} {part : Nat → Option Match} {zero : Nat → Bool} {pos : Nat}
    (hpart : ∀ j m, part j = some m → m.stop = pos ∧ zero j = true) {slots : List Slot}
    (h : ∀ j ∈ Shape.leading zero slots, look j pos = part j) :
    look.chain slots pos = (slots.mapM fun s => part s.clause).map fun parts => (parts, pos) := by
  induction slots with
  | nil => rfl
  | cons s slots ih =>
      have hhead : look s.clause pos = part s.clause := by
        apply h
        rw [Shape.leading]
        split <;> simp
      rw [chain, hhead, List.mapM_cons]
      cases hm : part s.clause with
      | none => rfl
      | some m =>
          obtain ⟨hstop, hzero⟩ := hpart _ _ hm
          have hrest := ih fun j hj => h j (by rw [Shape.leading, if_pos hzero]; simp [hj])
          simp only [hstop, hrest]
          cases slots.mapM fun s => part s.clause <;> rfl

end Look

namespace Grammar

variable {g : Grammar} {input : Input}

theorem emptyMatch_succ (g : Grammar) (pos fuel : Nat) (path : List Nat) (c : Nat) :
    g.emptyMatch pos (fuel + 1) path c =
      if (g.clause c).always && !path.contains c then
        (g.shape c).emptyStep pos (g.emptyMatch pos fuel (c :: path)) c
      else none := by
  rw [emptyMatch]
  cases g.shape c with
  | terminal t => cases t <;> rfl
  | group kind slots => cases kind <;> rfl
  | unary kind slot => cases kind <;> rfl

theorem always_of_emptyMatch {pos fuel c : Nat} {path : List Nat} {m : Match}
    (h : g.emptyMatch pos fuel path c = some m) : (g.clause c).always = true := by
  cases fuel with
  | zero => cases h
  | succ fuel =>
      rw [emptyMatch_succ] at h
      split at h
      · rename_i halways
        exact (Bool.and_eq_true _ _ ▸ halways).1
      · cases h

theorem emptyStep_congr {part part' : Nat → Option Match} {s : Shape}
    (h : ∀ j ∈ s.children, part j = part' j) (pos c : Nat) :
    s.emptyStep pos part c = s.emptyStep pos part' c := by
  cases s with
  | terminal t => cases t <;> rfl
  | group kind slots =>
      have hslots : ∀ s ∈ slots, part s.clause = part' s.clause := fun s hs =>
        h s.clause (List.mem_map_of_mem hs)
      have hfirst : Look.first (fun j _ => part j) pos 0 slots =
          Look.first (fun j _ => part' j) pos 0 slots := Look.first_congr hslots 0
      cases kind with
      | seq => rw [Shape.emptyStep, Shape.emptyStep, mapM_congr hslots]
      | first | longest => simp only [Shape.emptyStep, hfirst]
  | unary kind slot =>
      cases kind with
      | oneOrMore =>
          rw [Shape.emptyStep, Shape.emptyStep, h slot.clause (List.mem_singleton_self _)]
      | followedBy | notFollowedBy => rfl

theorem emptyMatch_stable (hg : g.Lawful) (pos : Nat) {depth depth' c : Nat} {path path' : List Nat}
    (hc : (g.clause c).acyclic = true) (h : g.Fathoms depth c) (hle : depth ≤ depth')
    (hpath : ∀ v ∈ path, ¬Graph.Reaches g.next c v)
    (hpath' : ∀ v ∈ path', ¬Graph.Reaches g.next c v) :
    g.emptyMatch pos depth path c = g.emptyMatch pos depth' path' c := by
  induction depth generalizing depth' c path path' with
  | zero => exact h.elim
  | succ depth ih =>
      cases depth' with
      | zero => omega
      | succ depth' =>
          have hnot : ∀ {vs : List Nat}, (∀ v ∈ vs, ¬Graph.Reaches g.next c v) →
              vs.contains c = false := by
            intro vs hvs
            rw [List.contains_eq_mem, decide_eq_false_iff_not]
            exact fun hmem => hvs c hmem .refl
          have hbelow : ∀ {vs : List Nat}, (∀ v ∈ vs, ¬Graph.Reaches g.next c v) →
              ∀ j ∈ g.next c, ∀ v ∈ c :: vs, ¬Graph.Reaches g.next j v := by
            intro vs hvs j hj v hv hreach
            rcases List.mem_cons.mp hv with rfl | hv
            · exact (hg.acyclic_iff v (lt_size_of_acyclic hc)).mp hc v .refl (.head' hj hreach)
            · exact hvs v hv (.head hj hreach)
          rw [emptyMatch_succ, emptyMatch_succ, hnot hpath, hnot hpath', emptyStep_congr]
          intro j hj
          exact ih (acyclic_of_mem_next hg hc hj) (h j hj) (by omega) (hbelow hpath j hj)
            (hbelow hpath' j hj)

theorem emptyMatch_eq (hg : g.Lawful) (pos : Nat) {c : Nat} (hc : (g.clause c).acyclic = true) :
    g.emptyMatch pos g.size [] c =
      if (g.clause c).always then (g.shape c).emptyStep pos (g.emptyMatch pos g.size []) c
      else none := by
  have hfathoms := fathoms_size hg hc
  have hnil : ∀ v ∈ ([] : List Nat), ¬Graph.Reaches g.next c v := by simp
  rw [emptyMatch_stable hg pos hc hfathoms (Nat.le_succ _) hnil hnil, emptyMatch_succ]
  simp only [List.contains_nil, Bool.not_false, Bool.and_true]
  rw [emptyStep_congr]
  intro j hj
  refine emptyMatch_stable hg pos (acyclic_of_mem_next hg hc hj)
    (fathoms_size hg (acyclic_of_mem_next hg hc hj)) (Nat.le_refl _) (fun v hv hreach => ?_) (by simp)
  rw [List.mem_singleton.mp hv] at hreach
  exact (hg.acyclic_iff c (lt_size_of_acyclic hc)).mp hc c .refl (.head' hj hreach)

theorem emptyStep_isSome {part : Nat → Option Match} {s : Shape}
    (h : ∀ j ∈ s.children, (part j).isSome = (g.flags j).always)
    (hs : ∀ slot, s ≠ .unary .followedBy slot) (pos c : Nat) :
    (s.emptyStep pos part c).isSome = (s.flags g.flags).always := by
  cases s with
  | terminal t =>
      cases t with
      | nothing | chars set | start => rfl
      | literal text ignoreCase =>
          rw [Shape.emptyStep]
          cases hempty : text.toList.isEmpty <;> simp [Shape.flags, hempty]
  | group kind slots =>
      have hslots : ∀ s ∈ slots, (part s.clause).isSome = (g.flags s.clause).always := fun s hs =>
        h s.clause (List.mem_map_of_mem hs)
      have hany : (Look.first (fun j _ => part j) pos 0 slots).isSome =
          slots.any fun s => (g.flags s.clause).always := by
        rw [Look.first_isSome]
        refine Bool.eq_iff_iff.mpr ?_
        simp only [List.any_eq_true]
        exact exists_congr fun s => and_congr_right fun hs => by rw [hslots s hs]
      cases kind with
      | seq =>
          rw [Shape.emptyStep, Option.isSome_map, mapM_isSome]
          refine Bool.eq_iff_iff.mpr ?_
          simp only [Shape.flags, List.all_eq_true]
          exact forall₂_congr fun s hs => by rw [hslots s hs]
      | first | longest =>
          simp only [Shape.emptyStep, Option.isSome_map]
          exact hany
  | unary kind slot =>
      cases kind with
      | oneOrMore =>
          rw [Shape.emptyStep, Option.isSome_map]
          exact h slot.clause (List.mem_singleton_self _)
      | followedBy => exact absurd rfl (hs slot)
      | notFollowedBy => rfl

theorem emptyMatch_isSome (hg : g.Lawful) (pos depth : Nat) {c : Nat}
    (hc : (g.clause c).acyclic = true) (h : g.Fathoms depth c) :
    (g.emptyMatch pos g.size [] c).isSome = (g.clause c).always := by
  induction depth generalizing c with
  | zero => exact h.elim
  | succ depth ih =>
      rw [emptyMatch_eq hg pos hc]
      cases halways : (g.clause c).always with
      | false => rfl
      | true =>
          have hflags := congrArg Flags.always (hg.flags_eq c (lt_size_of_acyclic hc))
          have hparts : ∀ j ∈ g.next c, (g.emptyMatch pos g.size [] j).isSome = (g.flags j).always :=
            fun j hj => ih (acyclic_of_mem_next hg hc hj) (h j hj)
          rw [if_pos rfl]
          by_cases hfollowed : ∃ slot, g.shape c = .unary .followedBy slot
          · obtain ⟨slot, hshape⟩ := hfollowed
            rw [hshape]
            rfl
          · rw [emptyStep_isSome hparts fun slot hshape => hfollowed ⟨slot, hshape⟩]
            exact hflags.symm.trans halways

theorem map_choose_eq {part : Nat → Option Match} {pos : Nat}
    (hpart : ∀ j m, part j = some m → m.length = 0) (slots : List Slot) (c : Nat) :
    (Look.first (fun j _ => part j) pos 0 slots).map (Match.choose c pos) =
      (Look.first (fun j _ => part j) pos 0 slots).map fun (i, m) => ⟨c, pos, 0, i, [m]⟩ := by
  cases hfirst : Look.first (fun j _ => part j) pos 0 slots with
  | none => rfl
  | some found =>
      obtain ⟨_, _, _, _, hm⟩ := Look.first_spec _ pos slots 0 hfirst
      simp [Match.choose, hpart _ _ hm]

theorem step_eq_emptyStep {part : Nat → Option Match} {zero : Nat → Bool} {pos : Nat}
    (hpart : ∀ j m, part j = some m → m.length = 0 ∧ m.stop = pos ∧ zero j = true) {s : Shape}
    (hmemoized : s.isMemoized = true) (hs : ∀ slot, s ≠ .unary .followedBy slot) {look : Look}
    (h : ∀ j ∈ s.seedChildren zero, look j pos = part j) (tail : Nat → Option Match) (c : Nat) :
    s.step input look tail c pos = s.emptyStep pos part c := by
  cases s with
  | terminal t => cases hmemoized
  | group kind slots =>
      cases kind with
      | seq =>
          rw [Shape.step, Shape.emptyStep, Look.chain_eq_mapM (fun j m hm => (hpart j m hm).2) h]
          cases slots.mapM fun s => part s.clause with
          | none => rfl
          | some parts => simp
      | first =>
          have hfirst : look.first pos 0 slots = Look.first (fun j _ => part j) pos 0 slots :=
            Look.first_congr (fun s hs => h s.clause (List.mem_map_of_mem hs)) 0
          rw [Shape.step, hfirst]
          exact map_choose_eq (fun j m hm => (hpart j m hm).1) slots c
      | longest =>
          have hlongest : look.longest pos 0 slots = Look.longest (fun j _ => part j) pos 0 slots :=
            Look.longest_congr (fun s hs => h s.clause (List.mem_map_of_mem hs)) 0
          rw [Shape.step, hlongest,
            Look.longest_eq_first (fun s _ m hm => (hpart s.clause m hm).1)]
          exact map_choose_eq (fun j m hm => (hpart j m hm).1) slots c
  | unary kind slot =>
      cases kind with
      | oneOrMore =>
          rw [Shape.step, Look.repeated, Shape.emptyStep, h slot.clause (List.mem_singleton_self _)]
          cases hm : part slot.clause with
          | none => rfl
          | some m => simp [(hpart _ m hm).1]
      | followedBy => exact absurd rfl (hs slot)
      | notFollowedBy => cases hmemoized

theorem step_eq_emptyMatch (hg : g.Lawful) {look : Look} {tail : Nat → Option Match} {c pos : Nat}
    (hc : (g.clause c).acyclic = true) (hmemoized : (g.shape c).isMemoized = true)
    (hpos : pos ≤ input.size)
    (h : ∀ j ∈ (g.shape c).seedChildren g.zero, look j pos = g.emptyMatch pos g.size [] j) :
    (g.shape c).step input look tail c pos = g.emptyMatch pos g.size [] c := by
  have hsome : ∀ j ∈ g.next c, (g.emptyMatch pos g.size [] j).isSome = (g.flags j).always := by
    intro j hj
    have hacyclic := acyclic_of_mem_next hg hc hj
    exact emptyMatch_isSome hg pos g.size hacyclic (fathoms_size hg hacyclic)
  have hpart : ∀ j m, g.emptyMatch pos g.size [] j = some m →
      m.length = 0 ∧ m.stop = pos ∧ g.zero j = true := by
    intro j m hm
    obtain ⟨hfits, hlength⟩ := emptyMatch_fits hpos _ _ _ hm
    refine ⟨hlength, ?_, hg.coherent j (always_of_emptyMatch hm)⟩
    rw [Match.stop, hlength, hfits.start_eq]
    rfl
  have hflags : (g.clause c).always = ((g.shape c).flags g.flags).always :=
    congrArg Flags.always (hg.flags_eq c (lt_size_of_acyclic hc))
  rw [emptyMatch_eq hg pos hc, hflags]
  by_cases hfollowed : ∃ slot, g.shape c = .unary .followedBy slot
  · obtain ⟨slot, hshape⟩ := hfollowed
    have halways := hsome slot.clause (mem_next_of_unary hshape)
    rw [hshape] at h
    rw [hshape, Shape.step, Shape.emptyStep, h slot.clause (List.mem_singleton_self _), Shape.flags]
    simp only [← halways]
    cases g.emptyMatch pos g.size [] slot.clause <;> rfl
  · have hs : ∀ slot, g.shape c ≠ .unary .followedBy slot := fun slot hshape =>
      hfollowed ⟨slot, hshape⟩
    rw [step_eq_emptyStep hpart hmemoized hs h, ← emptyStep_isSome hsome hs pos c]
    cases (g.shape c).emptyStep pos (g.emptyMatch pos g.size []) c <;> rfl

theorem lookup_of_isMemoized {c : Nat} (h : (g.shape c).isMemoized = true) (view : View)
    (pos : Nat) :
    g.lookup input view c pos = (view ⟨c, pos⟩).or (g.emptyMatch pos g.size [] c) := by
  obtain ⟨size, hsize⟩ := Nat.exists_eq_add_one_of_ne_zero (Nat.ne_zero_of_lt (lt_size_of_isMemoized h))
  have hlookup : g.lookup input view c pos = (view ⟨c, pos⟩).or
      (if (g.clause c).always then g.emptyMatch pos g.size [] c else none) := by
    rw [lookup, hsize, lookupWithin]
    split
    · rename_i hshape
      rw [hshape] at h
      cases h
    · rename_i hshape
      rw [hshape] at h
      cases h
    · cases view ⟨c, pos⟩ with
      | some m => rfl
      | none => simp [hsize]
  rw [hlookup]
  cases view ⟨c, pos⟩ with
  | some m => rfl
  | none =>
      cases halways : (g.clause c).always with
      | true => rfl
      | false =>
          rw [hsize, emptyMatch_succ, halways]
          rfl

theorem lookup_of_not_always {c : Nat} (h : (g.shape c).isMemoized = true)
    (halways : (g.clause c).always = false) (view : View) (pos : Nat) :
    g.lookup input view c pos = view ⟨c, pos⟩ := by
  have hnone : g.emptyMatch pos g.size [] c = none := by
    by_contra hfound
    obtain ⟨m, hm⟩ := Option.ne_none_iff_exists'.mp hfound
    rw [always_of_emptyMatch hm] at halways
    cases halways
  rw [lookup_of_isMemoized h, hnone, Option.or_none]

theorem lookup_terminal {c : Nat} {t : Terminal} (hlt : c < g.size) (hshape : g.shape c = .terminal t)
    (view : View) (pos : Nat) :
    g.lookup input view c pos = (t.length? input pos).map (Match.leaf c pos) := by
  obtain ⟨size, hsize⟩ := Nat.exists_eq_add_one_of_ne_zero (Nat.ne_zero_of_lt hlt)
  rw [lookup, hsize, lookupWithin, hshape]

theorem lookup_of_not_isMemoized (hg : g.Lawful) {c pos : Nat} (hc : (g.clause c).acyclic = true)
    (h : (g.shape c).isMemoized = false) (hpos : pos ≤ input.size) (view : View) :
    g.lookup input view c pos = g.topDown input c pos := by
  rw [topDown_eq hg hc hpos]
  cases hshape : g.shape c with
  | terminal t =>
      rw [lookup_terminal (lt_size_of_acyclic hc) hshape]
      rfl
  | group kind slots =>
      rw [hshape] at h
      cases h
  | unary kind slot =>
      cases kind with
      | oneOrMore | followedBy =>
          rw [hshape] at h
          cases h
      | notFollowedBy =>
          have hchild := acyclic_of_mem_next hg hc (mem_next_of_unary hshape)
          rw [lookup_negative_of_acyclic hshape hchild]
          rfl

theorem lookup_isSome_of_always (hg : g.Lawful) {c pos : Nat} (hc : (g.clause c).acyclic = true)
    (halways : (g.clause c).always = true) (hpos : pos ≤ input.size) (view : View) :
    (g.lookup input view c pos).isSome = true := by
  have hflags : (g.clause c).always = ((g.shape c).flags g.flags).always :=
    congrArg Flags.always (hg.flags_eq c (lt_size_of_acyclic hc))
  rw [halways] at hflags
  have hkept : (g.shape c).isMemoized = true → (g.lookup input view c pos).isSome = true := by
    intro hmemoized
    rw [lookup_of_isMemoized hmemoized, Option.isSome_or,
      emptyMatch_isSome hg pos g.size hc (fathoms_size hg hc), halways, Bool.or_true]
  cases hshape : g.shape c with
  | terminal t =>
      rw [hshape] at hflags
      rw [lookup_terminal (lt_size_of_acyclic hc) hshape, Option.isSome_map]
      cases t with
      | nothing => simp [Terminal.length?, hpos]
      | chars set | start => cases hflags
      | literal text ignoreCase =>
          have hnil : text.toList = [] := List.isEmpty_iff.mp hflags.symm
          simp [Terminal.length?, hpos, hnil, Terminal.spells]
  | group kind slots => exact hkept (by rw [hshape]; rfl)
  | unary kind slot =>
      cases kind with
      | oneOrMore | followedBy => exact hkept (by rw [hshape]; rfl)
      | notFollowedBy =>
          rw [hshape] at hflags
          cases hflags

end Grammar

end BottomUpPeg
