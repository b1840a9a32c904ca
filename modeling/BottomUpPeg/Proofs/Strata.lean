import BottomUpPeg.Proofs.Descent
import BottomUpPeg.Proofs.Validity

namespace BottomUpPeg

namespace Match

theorem mem_descendantsAll {x : Match} {ms : List Match} :
    x ∈ descendantsAll ms ↔ ∃ m ∈ ms, x ∈ m.descendants := by
  induction ms with
  | nil => simp [descendantsAll]
  | cons m ms ih => simp [descendantsAll, ih, or_comm]

theorem mem_descendants {x m : Match} :
    x ∈ m.descendants ↔ x = m ∨ ∃ p ∈ m.parts, x ∈ p.descendants := by
  cases m with
  | mk c start length index parts => rw [descendants, List.mem_cons, mem_descendantsAll]

theorem descendants_trans {x y : Match} :
    (m : Match) → x ∈ m.descendants → y ∈ x.descendants → y ∈ m.descendants
  | ⟨c, start, length, index, parts⟩, hx, hy => by
      rcases mem_descendants.mp hx with rfl | ⟨p, hp, hx⟩
      · exact hy
      · have : sizeOf p < sizeOf parts := List.sizeOf_lt_of_mem hp
        exact mem_descendants.mpr (.inr ⟨p, hp, descendants_trans p hx hy⟩)

end Match

section Parts

variable {look : Look}

theorem Look.chain_parts {slots : List Slot} {pos stop : Nat} {parts : List Match}
    (h : look.chain slots pos = some (parts, stop)) :
    ∀ p ∈ parts, ∃ s ∈ slots, ∃ q, look s.clause q = some p := by
  induction slots generalizing pos parts with
  | nil =>
      cases h
      simp
  | cons s slots ih =>
      rw [chain] at h
      split at h
      · cases h
      rename_i m hm
      split at h
      · cases h
      rename_i rest last hrest
      cases h
      intro p hp
      rcases List.mem_cons.mp hp with rfl | hp
      · exact ⟨s, List.mem_cons_self .., pos, hm⟩
      · obtain ⟨t, ht, q, hq⟩ := ih hrest p hp
        exact ⟨t, List.mem_cons_of_mem _ ht, q, hq⟩

theorem Look.repeated_parts {tail : Nat → Option Match} {c pos : Nat} {slot : Slot} {m : Match}
    (h : look.repeated tail c slot pos = some m) :
    m.clause = c ∧ ∀ p ∈ m.parts, look slot.clause pos = some p ∨ ∃ q, tail q = some p := by
  rw [repeated] at h
  split at h
  · cases h
  rename_i head hhead
  split at h
  · cases h
    exact ⟨rfl, by simp [hhead]⟩
  split at h
  · cases h
    exact ⟨rfl, by simp [hhead]⟩
  rename_i rest hrest
  split at h
  · cases h
    exact ⟨rfl, by simp [hhead]⟩
  · cases h
    exact ⟨rfl, by simpa [hhead] using .inr ⟨_, hrest⟩⟩

theorem Shape.step_parts {input : Input} {tail : Nat → Option Match} {c pos : Nat} {s : Shape}
    {m : Match} (h : s.step input look tail c pos = some m) :
    m.clause = c ∧ ∀ p ∈ m.parts,
      (∃ j ∈ s.children, ∃ q, look j q = some p) ∨ ∃ q, tail q = some p := by
  cases s with
  | terminal t =>
      obtain ⟨length, _, rfl⟩ := Option.map_eq_some_iff.mp h
      exact ⟨rfl, by simp [Match.leaf]⟩
  | group kind slots =>
      have hchild : ∀ {n : Nat} {slot : Slot}, slots[n]? = some slot →
          slot.clause ∈ (Shape.group kind slots).children := fun hslot =>
        List.mem_map_of_mem (List.mem_of_getElem? hslot)
      cases kind with
      | seq =>
          obtain ⟨⟨parts, stop⟩, hchain, rfl⟩ := Option.map_eq_some_iff.mp h
          refine ⟨rfl, fun p hp => .inl ?_⟩
          obtain ⟨t, ht, q, hq⟩ := look.chain_parts hchain p hp
          exact ⟨t.clause, List.mem_map_of_mem ht, q, hq⟩
      | first =>
          obtain ⟨⟨i, n⟩, hfirst, rfl⟩ := Option.map_eq_some_iff.mp h
          obtain ⟨_, slot, _, hslot, hn⟩ := look.first_spec pos slots 0 hfirst
          exact ⟨rfl, by simpa [Match.choose] using .inl ⟨_, hchild hslot, pos, hn⟩⟩
      | longest =>
          obtain ⟨⟨i, n⟩, hlongest, rfl⟩ := Option.map_eq_some_iff.mp h
          obtain ⟨_, slot, _, hslot, hn⟩ := look.longest_spec pos slots 0 hlongest
          exact ⟨rfl, by simpa [Match.choose] using .inl ⟨_, hchild hslot, pos, hn⟩⟩
  | unary kind slot =>
      cases kind with
      | oneOrMore =>
          obtain ⟨hclause, hparts⟩ := look.repeated_parts h
          refine ⟨hclause, fun p hp => (hparts p hp).imp_left fun hp => ?_⟩
          exact ⟨slot.clause, List.mem_singleton_self _, pos, hp⟩
      | followedBy =>
          obtain ⟨_, _, rfl⟩ := Option.map_eq_some_iff.mp h
          exact ⟨rfl, by simp [Match.leaf]⟩
      | notFollowedBy =>
          rw [step] at h
          split at h <;> cases h
          exact ⟨rfl, by simp [Match.leaf]⟩

end Parts

namespace Grammar

variable {g : Grammar} {input : Input}

def Negative (g : Grammar) (c : Nat) : Prop := ∃ slot, g.shape c = .unary .notFollowedBy slot

theorem not_negative_of_isMemoized {c : Nat} (h : (g.shape c).isMemoized = true) :
    ¬g.Negative c := by
  rintro ⟨slot, hshape⟩
  rw [hshape] at h
  cases h

/-- The clauses that are looked up while a clause is evaluated: its parts, and those directly inside
negative lookaheads among them. -/
inductive LooksAt (g : Grammar) (c : Nat) : Nat → Prop
  | part {j : Nat} : j ∈ g.next c → LooksAt g c j
  | inner {n : Nat} {slot : Slot} : LooksAt g c n → g.shape n = .unary .notFollowedBy slot →
      LooksAt g c slot.clause

theorem LooksAt.stratum_le (hg : g.Lawful) {c n : Nat} (h : g.LooksAt c n) :
    (g.clause n).stratum ≤ (g.clause c).stratum := by
  induction h with
  | part hj => exact hg.stratum_le _ _ hj
  | inner _ hshape ih => exact (hg.stratum_le _ _ (mem_next_of_unary hshape)).trans ih

def AgreeBelow (g : Grammar) (b : Nat) (view view' : View) : Prop :=
  ∀ k, State.stratumOf g k < b → view k = view' k

theorem lookupWithin_congr (hg : g.Lawful) {b : Nat} {view view' : View}
    (hview : g.AgreeBelow b view view') (fuel : Nat) {c : Nat} (hc : (g.clause c).stratum < b)
    (pos : Nat) : g.lookupWithin input view fuel c pos = g.lookupWithin input view' fuel c pos := by
  induction fuel generalizing c with
  | zero => rfl
  | succ fuel ih =>
      rw [lookupWithin, lookupWithin]
      split
      · rfl
      · rename_i slot hshape
        rw [ih ((hg.stratum_le _ _ (mem_next_of_unary hshape)).trans_lt hc)]
      · rw [hview ⟨c, pos⟩ hc]

theorem lookupWithin_negative_congr (hg : g.Lawful) {b : Nat} {view view' : View}
    (hview : g.AgreeBelow b view view') (fuel : Nat) {n : Nat} (hn : g.Negative n)
    (hle : (g.clause n).stratum ≤ b) (pos : Nat) :
    g.lookupWithin input view fuel n pos = g.lookupWithin input view' fuel n pos := by
  obtain ⟨slot, hshape⟩ := hn
  cases fuel with
  | zero => rfl
  | succ fuel =>
      simp only [lookupWithin, hshape]
      cases hacyclic : (g.clause slot.clause).acyclic with
      | true => rfl
      | false =>
          have hlt := (hg.stratum_lt n slot hshape hacyclic).trans_le hle
          rw [lookupWithin_congr hg hview fuel hlt]

/-- The negative lookaheads in a match hold, and will as long as nothing changes below the
stratum. -/
def Secured (g : Grammar) (input : Input) (b : Nat) (view : View) (m : Match) : Prop :=
  ∀ x ∈ m.descendants, g.Negative x.clause → ∀ view', g.AgreeBelow b view view' →
    g.lookup input view' x.clause x.start = some x

theorem Secured.mono {b b' : Nat} {view view' : View} {m : Match} (h : g.Secured input b view m)
    (hle : b ≤ b') (hview : g.AgreeBelow b view view') : g.Secured input b' view' m := by
  intro x hx hnegative view'' hview'
  apply h x hx hnegative
  intro k hk
  rw [hview k hk, hview' k (hk.trans_le hle)]

theorem secured_of_parts {b : Nat} {view : View} {m : Match} (hm : ¬g.Negative m.clause)
    (hparts : ∀ p ∈ m.parts, g.Secured input b view p) : g.Secured input b view m := by
  intro x hx hnegative
  rcases Match.mem_descendants.mp hx with rfl | ⟨p, hp, hx⟩
  · exact absurd hnegative hm
  · exact hparts p hp x hx hnegative

theorem Secured.of_mem_descendants {b : Nat} {view : View} {m x : Match}
    (h : g.Secured input b view m) (hx : x ∈ m.descendants) : g.Secured input b view x :=
  fun y hy => h y (Match.descendants_trans m hx hy)

theorem mapM_mem {f : Nat → Option Match} {slots : List Slot} {parts : List Match}
    (h : slots.mapM (fun s => f s.clause) = some parts) :
    ∀ p ∈ parts, ∃ c, f c = some p := by
  induction slots generalizing parts with
  | nil =>
      cases h
      simp
  | cons s slots ih =>
      simp only [List.mapM_cons, Option.bind_eq_bind, Option.bind_eq_some_iff, Option.pure_def,
        Option.some.injEq] at h
      obtain ⟨m, hm, rest, hrest, rfl⟩ := h
      intro p hp
      rcases List.mem_cons.mp hp with rfl | hp
      · exact ⟨_, hm⟩
      · exact ih hrest p hp

theorem emptyMatch_secured {b : Nat} {view : View} {pos : Nat} (fuel : Nat) (path : List Nat)
    (c : Nat) {m : Match} (h : g.emptyMatch pos fuel path c = some m) :
    g.Secured input b view m := by
  induction fuel generalizing path c m with
  | zero => cases h
  | succ fuel ih =>
      have hnot : ∀ {s : Shape}, g.shape c = s → (∀ slot, s ≠ .unary .notFollowedBy slot) →
          ¬g.Negative c := fun hshape hs ⟨slot, hnegative⟩ => hs slot (hshape.symm.trans hnegative)
      rw [emptyMatch] at h
      split at h
      · split at h
        · rename_i hshape
          cases h
          exact secured_of_parts (hnot hshape (by simp)) (by simp [Match.leaf])
        · rename_i hshape
          split at h <;> cases h
          exact secured_of_parts (hnot hshape (by simp)) (by simp [Match.leaf])
        · cases h
        · rename_i slots hshape
          obtain ⟨parts, hparts, rfl⟩ := Option.map_eq_some_iff.mp h
          refine secured_of_parts (hnot hshape (by simp)) fun p hp => ?_
          obtain ⟨j, hj⟩ := mapM_mem hparts p hp
          exact ih _ j hj
        · rename_i kind slots _ hshape
          obtain ⟨⟨i, n⟩, hfirst, rfl⟩ := Option.map_eq_some_iff.mp h
          obtain ⟨_, slot, _, _, hn⟩ := Look.first_spec _ pos slots 0 hfirst
          refine secured_of_parts (hnot hshape (by simp)) fun p hp => ?_
          rw [List.mem_singleton.mp hp]
          exact ih _ _ hn
        · rename_i slot hshape
          obtain ⟨n, hn, rfl⟩ := Option.map_eq_some_iff.mp h
          refine secured_of_parts (hnot hshape (by simp)) fun p hp => ?_
          rw [List.mem_singleton.mp hp]
          exact ih _ _ hn
        · rename_i slot hshape
          cases h
          exact secured_of_parts (hnot hshape (by simp)) (by simp [Match.leaf])
        · cases h
      · cases h

theorem lookup_secured (hg : g.Lawful) {b : Nat} {view : View}
    (hview : ∀ k m, view k = some m → g.Secured input b view m) {c pos : Nat}
    (hc : (g.clause c).stratum ≤ b) {m : Match} (h : g.lookup input view c pos = some m) :
    g.Secured input b view m := by
  have hfound := h
  rw [lookup] at h
  cases hsize : g.size with
  | zero =>
      rw [hsize] at h
      cases h
  | succ size =>
      rw [hsize, lookupWithin] at h
      split at h
      · rename_i t hshape
        obtain ⟨length, _, rfl⟩ := Option.map_eq_some_iff.mp h
        refine secured_of_parts ?_ (by simp [Match.leaf])
        rintro ⟨slot, hslot⟩
        simp [Match.leaf, hshape] at hslot
      · rename_i slot hshape
        have hnegative : g.Negative c := ⟨slot, hshape⟩
        simp only at h
        split at h <;> cases h
        intro x hx _ view' hview'
        rcases Match.mem_descendants.mp hx with rfl | ⟨p, hp, _⟩
        · exact (lookupWithin_negative_congr hg hview' g.size hnegative hc pos).symm.trans hfound
        · cases hp
      · split at h
        · rename_i n hn
          cases h
          exact hview _ _ hn
        · split at h
          · exact emptyMatch_secured _ _ _ h
          · cases h

theorem evaluate_secured (hg : g.Lawful) {view : View} {k : Key}
    (hview : ∀ k' m, view k' = some m → g.Secured input (State.stratumOf g k) view m)
    (hk : (g.shape k.clause).isMemoized = true) {m : Match}
    (h : g.evaluate input view k = some m) : g.Secured input (State.stratumOf g k) view m := by
  obtain ⟨hclause, hparts⟩ := Shape.step_parts h
  refine secured_of_parts (hclause ▸ not_negative_of_isMemoized hk) fun p hp => ?_
  rcases hparts p hp with ⟨j, hj, q, hq⟩ | ⟨q, hq⟩
  · exact lookup_secured hg hview (hg.stratum_le _ j hj) hq
  · exact lookup_secured hg hview (Nat.le_refl _) hq

theorem repetition_secured {look : Look} {b c : Nat} {view : View} {slot : Slot}
    (hc : ¬g.Negative c)
    (hlook : ∀ q m, look slot.clause q = some m → g.Secured input b view m) (fuel pos : Nat)
    {m : Match} (h : look.repetition c slot fuel pos = some m) : g.Secured input b view m := by
  induction fuel generalizing pos m with
  | zero => cases h
  | succ fuel ih =>
      obtain ⟨hclause, hparts⟩ := Look.repeated_parts h
      refine secured_of_parts (hclause ▸ hc) fun p hp => ?_
      rcases hparts p hp with hp | ⟨q, hq⟩
      · exact hlook _ p hp
      · exact ih q hq

theorem descend_secured (hg : g.Lawful) (b : Nat) (view : View) (depth : Nat) {c pos : Nat}
    (hc : (g.clause c).acyclic = true) (hdepth : g.Fathoms depth c) {m : Match}
    (h : g.descend input depth c pos = some m) : g.Secured input b view m := by
  induction depth generalizing c pos m with
  | zero => exact hdepth.elim
  | succ depth ih =>
      have hnext : ∀ j ∈ g.next c, ∀ q m, g.descend input depth j q = some m →
          g.Secured input b view m := fun j hj q m hm =>
        ih (acyclic_of_mem_next hg hc hj) (hdepth j hj) hm
      rw [descend] at h
      split at h
      · rename_i slot hshape
        refine repetition_secured ?_ (hnext _ (mem_next_of_unary hshape)) _ _ h
        exact not_negative_of_isMemoized (by rw [hshape]; rfl)
      · obtain ⟨hclause, hparts⟩ := Shape.step_parts h
        by_cases hnegative : g.Negative c
        · obtain ⟨slot, hshape⟩ := hnegative
          have hchild := acyclic_of_mem_next hg hc (mem_next_of_unary hshape)
          simp only [hshape, Shape.step] at h
          split at h <;> cases h
          rename_i hnone
          rw [descend_eq_topDown hg hchild (hdepth _ (mem_next_of_unary hshape))] at hnone
          intro x hx _ view' _
          rcases Match.mem_descendants.mp hx with rfl | ⟨p, hp, _⟩
          · exact (lookup_negative_of_acyclic hshape hchild view' pos).trans (by rw [hnone])
          · cases hp
        · refine secured_of_parts (hclause ▸ hnegative) fun p hp => ?_
          rcases hparts p hp with ⟨j, hj, q, hq⟩ | ⟨q, hq⟩
          · exact hnext j hj q p hq
          · cases hq

end Grammar

theorem Lexing.scan_secured {g : Grammar} {input : Input} (hg : g.Lawful) (b : Nat) (view : View)
    {c : Nat} (hc : (g.clause c).acyclic = true) (fuel pos : Nat) :
    ∀ m ∈ (scan g input c fuel pos).lexemes, g.Secured input b view m := by
  induction fuel generalizing pos with
  | zero => simp [scan]
  | succ fuel ih =>
      rw [scan]
      split
      · split
        · rename_i m hm
          obtain ⟨hm, _⟩ := Option.filter_eq_some_iff.mp hm
          have hsecured := Grammar.descend_secured hg b view g.size hc
            (Grammar.fathoms_size hg hc) hm
          exact List.forall_mem_cons.mpr ⟨hsecured, ih _⟩
        · exact ih _
      · simp

theorem Grammar.lex_secured {g : Grammar} (hg : g.Lawful) (input : Input) (b : Nat) (view : View) :
    ∀ m ∈ (g.lex input).lexemes, g.Secured input b view m := by
  rw [lex]
  split
  · simp
  · rename_i rule hrule
    exact Lexing.scan_secured hg b view (hg.lexical rule hrule) input.size 0

namespace Grammar

variable {g : Grammar} {input : Input}

theorem stratum_of_mem_lookupReadsWithin (hg : g.Lawful) (fuel c pos : Nat) :
    ∀ k ∈ g.lookupReadsWithin fuel c pos, State.stratumOf g k ≤ (g.clause c).stratum := by
  induction fuel generalizing c with
  | zero => simp [lookupReadsWithin]
  | succ fuel ih =>
      rw [lookupReadsWithin]
      split
      · simp
      · rename_i slot hshape
        split
        · simp
        · exact fun k hk => (ih _ k hk).trans (hg.stratum_le _ _ (mem_next_of_unary hshape))
      · simp [State.stratumOf]

end Grammar

theorem Look.mem_chainReads {look : Look} {reads : Nat → Nat → List Key} {k : Key}
    {slots : List Slot} {pos : Nat} (h : k ∈ look.chainReads reads slots pos) :
    ∃ s ∈ slots, ∃ q, k ∈ reads s.clause q := by
  induction slots generalizing pos with
  | nil => cases h
  | cons s slots ih =>
      rw [chainReads, List.mem_append] at h
      rcases h with h | h
      · exact ⟨s, List.mem_cons_self .., pos, h⟩
      · split at h
        · cases h
        · obtain ⟨t, ht, q, hq⟩ := ih h
          exact ⟨t, List.mem_cons_of_mem _ ht, q, hq⟩

theorem Look.mem_firstReads {look : Look} {reads : Nat → Nat → List Key} {k : Key} {pos : Nat}
    {slots : List Slot} (h : k ∈ look.firstReads reads pos slots) :
    ∃ s ∈ slots, k ∈ reads s.clause pos := by
  induction slots with
  | nil => cases h
  | cons s slots ih =>
      rw [firstReads, List.mem_append] at h
      rcases h with h | h
      · exact ⟨s, List.mem_cons_self .., h⟩
      · split at h
        · obtain ⟨t, ht, hk⟩ := ih h
          exact ⟨t, List.mem_cons_of_mem _ ht, hk⟩
        · cases h

theorem Shape.mem_stepReads {look : Look} {reads : Nat → Nat → List Key} {k : Key} {c pos : Nat}
    {s : Shape} (h : k ∈ s.stepReads look reads c pos) :
    ∃ j q, k ∈ reads j q ∧ (j ∈ s.children ∨ j = c ∧ ∃ slot head,
      look slot pos = some head ∧ 0 < head.length ∧ q = head.stop) := by
  have hslots : ∀ {kind : Group} {slots : List Slot} {slot : Slot}, slot ∈ slots →
      slot.clause ∈ (Shape.group kind slots).children := fun hslot => List.mem_map_of_mem hslot
  have hslot : ∀ {kind : Unary} {slot : Slot}, slot.clause ∈ (Shape.unary kind slot).children :=
    List.mem_singleton_self _
  cases s with
  | terminal t => cases h
  | group kind slots =>
      cases kind with
      | seq =>
          obtain ⟨s, hs, q, hq⟩ := look.mem_chainReads h
          exact ⟨s.clause, q, hq, .inl (hslots hs)⟩
      | first =>
          obtain ⟨s, hs, hk⟩ := look.mem_firstReads h
          exact ⟨s.clause, pos, hk, .inl (hslots hs)⟩
      | longest =>
          obtain ⟨s, hs, hk⟩ := List.mem_flatMap.mp h
          exact ⟨s.clause, pos, hk, .inl (hslots hs)⟩
  | unary kind slot =>
      cases kind with
      | oneOrMore =>
          rw [stepReads, Look.repeatedReads, List.mem_append] at h
          rcases h with h | h
          · exact ⟨slot.clause, pos, h, .inl hslot⟩
          · split at h
            · cases h
            · rename_i head hhead
              split at h
              · cases h
              · rename_i hlength
                exact ⟨c, _, h, .inr ⟨rfl, _, head, hhead, Nat.pos_of_ne_zero hlength, rfl⟩⟩
      | followedBy | notFollowedBy => exact ⟨slot.clause, pos, h, .inl hslot⟩

theorem Grammar.stratum_of_mem_evaluateReads {g : Grammar} {input : Input} (hg : g.Lawful)
    {view : View} {k r : Key} (h : r ∈ g.evaluateReads input view k) :
    State.stratumOf g r ≤ State.stratumOf g k := by
  obtain ⟨j, q, hr, hj⟩ := Shape.mem_stepReads h
  have hle := stratum_of_mem_lookupReadsWithin hg g.size j q r hr
  rcases hj with hj | ⟨rfl, _⟩
  · exact hle.trans (hg.stratum_le _ j hj)
  · exact hle

namespace State

variable {g : Grammar} {input : Input}

/-- Nothing below a stratum is active or can become so, and the negative lookaheads in the matches
kept so far are decided for good. -/
structure Layered (g : Grammar) (input : Input) (b : Nat) (s : State) : Prop where
  active : ∀ k ∈ s.active, b ≤ stratumOf g k
  readers : ∀ k, ∀ x ∈ (s.table.entry k).readers, stratumOf g k ≤ stratumOf g x
  secured : ∀ k m, s.table.view k = some m → g.Secured input b s.table.view m

namespace Layered

theorem le_stratum {b : Nat} {s : State} (hs : s.Layered g input b) (hc : s.converged = false) :
    b ≤ s.stratum g := by
  obtain ⟨k, hk, heq⟩ := exists_stratum_eq (g := g) hc
  exact heq ▸ hs.active k hk

theorem of_stratum {b : Nat} {s : State} (hs : s.Layered g input b) (hc : s.converged = false) :
    s.Layered g input (s.stratum g) where
  active := fun _ hk => stratum_le hk
  readers := hs.readers
  secured := fun k m hm => (hs.secured k m hm).mono (hs.le_stratum hc) fun _ _ => rfl

theorem agreeBelow_round {b : Nat} {s : State} (hs : s.Layered g input b) :
    g.AgreeBelow b s.table.view (s.round g input).table.view := by
  intro k hk
  refine (view_round_of_not_mem fun hdue => ?_).symm
  exact absurd (hs.active k (mem_due.mp hdue).1) (Nat.not_le.mpr hk)

theorem round (hg : g.Lawful) {s : State} (hvalid : s.Valid g input)
    (hs : s.Layered g input (s.stratum g)) : (s.round g input).Layered g input (s.stratum g) := by
  have htaken := round_taken g input s
  have hreaders : ∀ k, ∀ x ∈ (((s.waiting g).noted (s.proposals g input)).table.entry k).readers,
      stratumOf g k ≤ stratumOf g x := by
    intro k x hx
    rcases (mem_readers_noted _ _ k x).mp hx with ⟨p, hp, hread, rfl⟩ | hx
    · obtain ⟨k', _, rfl⟩ := mem_proposals.mp hp
      exact Grammar.stratum_of_mem_evaluateReads hg hread
    · exact hs.readers k x hx
  refine ⟨fun x hx => ?_, fun k x hx => ?_, fun k m hm => ?_⟩
  · rcases htaken.active x hx with hx | ⟨k, _, ⟨p, hp, rfl⟩, hdep⟩
    · exact stratum_le (mem_waiting.mp hx).1
    · obtain ⟨k, hk, rfl⟩ := mem_proposals.mp hp
      have hle : s.stratum g ≤ stratumOf g k := (mem_due.mp hk).2.ge
      rcases mem_dependents.mp hdep with hx | ⟨c, hc, rfl⟩
      · exact hle.trans (hreaders _ x hx)
      · have hchild := Shape.seedChildren_subset _ _ _ ((hg.mem_seedParents _ c).mp hc).2
        exact hle.trans (hg.stratum_le c k.clause hchild)
  · rw [htaken.readers] at hx
    exact hreaders k x hx
  · have hkept : ∀ m, g.Secured input (s.stratum g) s.table.view m →
        g.Secured input (s.stratum g) (s.round g input).table.view m := fun m hm =>
      hm.mono (Nat.le_refl _) hs.agreeBelow_round
    rcases htaken.best k m hm with hm | ⟨p, hp, rfl, hfound⟩
    · rw [view_noted] at hm
      exact hkept m (hs.secured k m hm)
    · obtain ⟨k, hk, rfl⟩ := mem_proposals.mp hp
      obtain ⟨hactive, heq⟩ := mem_due.mp hk
      have hsecured := Grammar.evaluate_secured hg (heq ▸ hs.secured)
        (hvalid.active k hactive).memoized hfound
      exact hkept m (heq ▸ hsecured)

theorem advance (hg : g.Lawful) {b : Nat} {s : State} (hvalid : s.Valid g input)
    (hs : s.Layered g input b) (n : Nat) :
    ∃ b', b ≤ b' ∧ (s.advance g input n).Layered g input b' ∧
      g.AgreeBelow b s.table.view (s.advance g input n).table.view := by
  induction n generalizing b s with
  | zero => exact ⟨b, Nat.le_refl b, hs, fun _ _ => rfl⟩
  | succ n ih =>
      cases hc : s.converged with
      | true =>
          rw [advance_of_converged hc]
          exact ⟨b, Nat.le_refl b, hs, fun _ _ => rfl⟩
      | false =>
          have hle := hs.le_stratum hc
          obtain ⟨b', hle', hlayered, hagree⟩ := ih (hvalid.round hg) ((hs.of_stratum hc).round hg hvalid)
          rw [advance_succ hc]
          refine ⟨b', hle.trans hle', hlayered, fun k hk => ?_⟩
          exact (hs.agreeBelow_round k hk).trans (hagree k (hk.trans_le hle))

end Layered

theorem initial_layered (hg : g.Lawful) (input : Input) : (initial g input).Layered g input 0 := by
  refine ⟨fun _ _ => Nat.zero_le _, fun k x hx => ?_, fun k m hm => ?_⟩
  · exact absurd hx (readers_initial g input k x)
  · obtain ⟨x, hx, hmem⟩ := Match.mem_descendantsAll.mp (view_initial hm).1
    exact (Grammar.lex_secured hg input 0 _ x hx).of_mem_descendants hmem

end State

namespace Parse

variable {g : Grammar}

theorem run_layered (hg : g.Lawful) (input : Input) (n : Nat) :
    ∃ b, (run g input n).state.Layered g input b := by
  obtain ⟨b, _, hlayered, _⟩ :=
    (State.initial_layered hg input).advance hg (State.initial_valid hg input) n
  exact ⟨b, hlayered⟩

theorem run_settled (hg : g.Lawful) (input : Input) {i j : Nat} (hij : i ≤ j)
    (hc : (run g input i).state.converged = false) :
    (∀ k ∈ (run g input j).state.active,
        (run g input i).state.stratum g ≤ State.stratumOf g k) ∧
      g.AgreeBelow ((run g input i).state.stratum g) (run g input i).table.view
        (run g input j).table.view := by
  obtain ⟨n, rfl⟩ := Nat.exists_eq_add_of_le hij
  obtain ⟨b, hlayered⟩ := run_layered hg input i
  have hvalid : (run g input i).state.Valid g input := State.advance_valid hg i
  obtain ⟨b', hle, hlater, hagree⟩ := (hlayered.of_stratum hc).advance hg hvalid n
  have hadd : (run g input (i + n)).state = (run g input i).state.advance g input n :=
    State.advance_add _ i n
  simp only [table, hadd]
  exact ⟨fun k hk => hle.trans (hlater.active k hk), hagree⟩

theorem negative_lookaheads_are_settled {source : Source} (h : source.compile = .ok g)
    (input : String) (limit : Option Nat) :
    let p := ofString g input limit
    let before := fun i => (run g p.input i).state
    (p.state = before p.state.rounds ∧ ∀ i < p.state.rounds, (before i).converged = false) ∧
      (∀ i j, i ≤ j → j < p.state.rounds → (before i).stratum g ≤ (before j).stratum g) ∧
      (∀ i j, i < p.state.rounds → i ≤ j → ∀ k ∈ (before j).active,
        (before i).stratum g ≤ State.stratumOf g k) ∧
      (∀ i < p.state.rounds, ∀ k ∈ (before i).due g, ∀ n, g.LooksAt k.clause n → g.Negative n →
        ∀ fuel pos, g.lookupWithin p.input (before i).table.view fuel n pos =
          g.lookupWithin p.input p.table.view fuel n pos) ∧
      ∀ k m, p.table.view k = some m → ∀ x ∈ m.descendants, g.Negative x.clause →
        p.best? x.clause x.start = some x := by
  intro p before
  have hg := Source.compile_lawful h
  obtain ⟨hstate, hbefore⟩ := state_ofString g input limit
  have hinput : p.input = Input.ofString input := input_ofString g input limit
  have hlast : (run g p.input p.state.rounds).state = p.state := by rw [hinput, ← hstate]
  have hactive : ∀ i j, i < p.state.rounds → i ≤ j → ∀ k ∈ (before j).active,
      (before i).stratum g ≤ State.stratumOf g k := by
    intro i j hi hij
    simp only [before, hinput]
    exact (run_settled hg _ hij (hbefore i hi)).1
  refine ⟨?_, ?_, hactive, ?_, ?_⟩
  · simp only [before, hinput]
    exact ⟨hstate, hbefore⟩
  · intro i j hij hj
    have hc : (before j).converged = false := by
      simp only [before, hinput]
      exact hbefore j hj
    obtain ⟨k, hk, heq⟩ := State.exists_stratum_eq (g := g) hc
    exact heq ▸ hactive i j (hij.trans_lt hj) hij k hk
  · intro i hi k hk n hlooks hnegative fuel pos
    obtain ⟨_, hagree⟩ := run_settled hg p.input hi.le (hinput ▸ hbefore i hi)
    have hle := hlooks.stratum_le hg
    simp only [table, hlast] at hagree
    apply Grammar.lookupWithin_negative_congr hg hagree fuel hnegative
    exact hle.trans (State.mem_due.mp hk).2.le
  · intro k m hm x hx hnegative
    have hwf := ((ofString_valid hg input limit).best k m hm).wellFormed
    have hstop := (Match.WellFormed.of_mem_descendants m hwf x hx).stop_le
    obtain ⟨b, hlayered⟩ := run_layered hg p.input p.state.rounds
    rw [hlast] at hlayered
    have hpos : ¬p.input.size < x.start := by
      rw [hinput]
      simp only [Match.stop] at hstop
      omega
    rw [best?, if_neg hpos, show p.grammar = g from grammar_ofString g input limit]
    exact hlayered.secured k m hm x hx hnegative _ fun _ _ => rfl

/-- A letter that does not start a run of `b`. -/
def otherLetter : Source where
  definitions := [
    .plain "Other" (.seq [.notFollowedBy (.reference "Bs"), .charRange 'a' 'z']),
    .plain "Bs" (.first [.seq [.reference "Bs", .char 'b'], .char 'b'])]
  lexical := none

theorem other_letter_stays_other :
    ∃ g m x, otherLetter.compile = .ok g ∧ (ofString g "abb" (some 5)).table.view ⟨5, 0⟩ = some m ∧
      x ∈ m.descendants ∧ g.Negative x.clause ∧
      (ofString g "abb" (some 5)).best? x.clause x.start = some x := by
  have hfound : (otherLetter.compile.toOption.bind fun g =>
      ((ofString g "abb" (some 5)).table.view ⟨5, 0⟩).bind fun m =>
        m.descendants.find? fun x => g.shape x.clause = .unary .notFollowedBy ⟨2, none⟩).isSome =
          true := by decide +kernel
  cases hg : otherLetter.compile with
  | error e => simp [hg, Except.toOption] at hfound
  | ok g =>
      simp only [hg, Except.toOption, Option.bind_some] at hfound
      obtain ⟨x, hx⟩ := Option.isSome_iff_exists.mp hfound
      obtain ⟨m, hm, hfind⟩ := Option.bind_eq_some_iff.mp hx
      have hmem := List.mem_of_find?_eq_some hfind
      have hnegative : g.Negative x.clause := ⟨_, by simpa using List.find?_some hfind⟩
      have hsettled := (negative_lookaheads_are_settled hg "abb" (some 5)).2.2.2.2
      exact ⟨g, m, x, rfl, hm, hmem, hnegative, hsettled _ m hm x hmem hnegative⟩

end Parse

end BottomUpPeg
