import BottomUpPeg.Grammar.Compile
import BottomUpPeg.Proofs.Lawful
import BottomUpPeg.Proofs.Ranking

namespace BottomUpPeg

namespace Match

variable {g : Grammar} {input : Input}

theorem then_congr {o x y : Ordering} (h : o = .eq → x = y) : o.then x = o.then y := by
  cases o with
  | eq => exact h rfl
  | lt | gt => rfl

theorem isGE_then_iff {o o' : Ordering} :
    (o.then o').isGE = true ↔ o = .gt ∨ o = .eq ∧ o'.isGE = true := by
  cases o <;> simp

/-- The comparisons of a first with a second, of the second with a third and of the third with the
first: they do not lead back in a circle, unless nothing is better than anything. -/
def Aligned (ab bc ca : Ordering) : Prop :=
  ab.isGE = true → bc.isGE = true → ca.isGE = true → ab = .eq ∧ bc = .eq ∧ ca = .eq

namespace Aligned

variable {ab bc ca ab' bc' ca' : Ordering}

theorem rotate (h : Aligned ab bc ca) : Aligned bc ca ab := by
  intro hbc hca hab
  obtain ⟨h₁, h₂, h₃⟩ := h hab hbc hca
  exact ⟨h₂, h₃, h₁⟩

theorem exchange (h : Aligned ab bc ca) : Aligned bc ab ca := by
  intro hbc hab hca
  obtain ⟨h₁, h₂, h₃⟩ := h hab hbc hca
  exact ⟨h₂, h₁, h₃⟩

theorem isGE_of_then {o o' : Ordering} (h : (o.then o').isGE = true) : o.isGE = true :=
  Ordering.isGE_iff_eq_gt_or_eq_eq.mpr ((isGE_then_iff.mp h).imp_right And.left)

theorem step (h : Aligned ab bc ca)
    (h' : ab = .eq → bc = .eq → ca = .eq → Aligned ab' bc' ca') :
    Aligned (ab.then ab') (bc.then bc') (ca.then ca') := by
  intro hab hbc hca
  obtain ⟨rfl, rfl, rfl⟩ := h (isGE_of_then hab) (isGE_of_then hbc) (isGE_of_then hca)
  exact h' rfl rfl rfl hab hbc hca

end Aligned

theorem aligned_compare (l m n : Nat) : Aligned (compare l m) (compare m n) (compare n l) := by
  intro hlm hmn hnl
  rw [Nat.isGE_compare] at hlm hmn hnl
  simp only [Nat.compare_eq_eq]
  omega

theorem aligned_preference (s : Shape) (a b c : Match) :
    Aligned (s.preference a.length a.index b.length b.index)
      (s.preference b.length b.index c.length c.index)
      (s.preference c.length c.index a.length a.index) := by
  have hindex : Aligned (compare b.index a.index) (compare c.index b.index)
      (compare a.index c.index) := (aligned_compare c.index b.index a.index).exchange
  cases s with
  | terminal t => exact fun _ _ _ => ⟨rfl, rfl, rfl⟩
  | unary kind slot => exact fun _ _ _ => ⟨rfl, rfl, rfl⟩
  | group kind slots =>
      cases kind with
      | seq => exact fun _ _ _ => ⟨rfl, rfl, rfl⟩
      | first => exact hindex
      | longest => exact (aligned_compare _ _ _).step fun _ _ _ => hindex

theorem aligned_compareLengths {as bs cs : List Match} (hab : as.length = bs.length)
    (hbc : bs.length = cs.length) :
    Aligned (compareLengths as bs) (compareLengths bs cs) (compareLengths cs as) := by
  induction as generalizing bs cs with
  | nil =>
      rw [List.length_eq_zero_iff.mp hab.symm] at hbc ⊢
      rw [List.length_eq_zero_iff.mp hbc.symm]
      exact fun _ _ _ => ⟨rfl, rfl, rfl⟩
  | cons a as ih =>
      obtain ⟨b, bs, rfl⟩ := List.exists_cons_of_length_eq_add_one hab.symm
      obtain ⟨c, cs, rfl⟩ := List.exists_cons_of_length_eq_add_one hbc.symm
      exact (aligned_compare _ _ _).step fun _ _ _ => ih (Nat.succ.inj hab) (Nat.succ.inj hbc)

inductive AlignedAll (g : Grammar) : List Match → List Match → List Match → Prop
  | nil : AlignedAll g [] [] []
  | cons {a b c : Match} {as bs cs : List Match} :
      Aligned (compareIn g a b) (compareIn g b c) (compareIn g c a) → AlignedAll g as bs cs →
      AlignedAll g (a :: as) (b :: bs) (c :: cs)

theorem AlignedAll.aligned {as bs cs : List Match} (h : AlignedAll g as bs cs) :
    Aligned (compareAllIn g as bs) (compareAllIn g bs cs) (compareAllIn g cs as) := by
  induction h with
  | nil =>
      have hnil : compareAllIn g [] [] = .eq := compareAllIn_self g []
      exact fun _ _ _ => ⟨hnil, hnil, hnil⟩
  | cons hhead _ ih =>
      rw [compareAllIn, compareAllIn, compareAllIn]
      exact hhead.step fun _ _ _ => ih

theorem alignedAll_of_fits {as bs cs : List Match}
    (hab : List.Forall₂ (fun a b => b.Fits g input a.key) as bs)
    (hac : List.Forall₂ (fun a c => c.Fits g input a.key) as cs)
    (h : ∀ a ∈ as, ∀ b c, b.Fits g input a.key → c.Fits g input a.key →
      Aligned (compareIn g a b) (compareIn g b c) (compareIn g c a)) : AlignedAll g as bs cs := by
  induction hab generalizing cs with
  | nil =>
      cases hac
      exact .nil
  | @cons a b as bs hb _ ih =>
      cases hac with
      | cons hc hrest =>
          refine .cons (h a (List.mem_cons_self ..) b _ hb hc) (ih hrest fun x hx => ?_)
          exact h x (List.mem_cons_of_mem _ hx)

theorem aligned_of_parts {a b c : Match} (hb : b.clause = a.clause) (hc : c.clause = a.clause)
    (hab : a.parts.length = b.parts.length) (hac : a.parts.length = c.parts.length)
    (h : (g.shape a.clause).preference a.length a.index b.length b.index = .eq →
      (g.shape a.clause).preference a.length a.index c.length c.index = .eq →
      compareLengths a.parts b.parts = .eq → compareLengths a.parts c.parts = .eq →
      AlignedAll g a.parts b.parts c.parts) :
    Aligned (compareIn g a b) (compareIn g b c) (compareIn g c a) := by
  rw [compareIn_eq g a b, compareIn_eq g b c, compareIn_eq g c a, hb, hc, if_pos hab,
    if_pos (hab.symm.trans hac), if_pos hac.symm]
  refine (aligned_preference _ a b c).step fun hprefer _ hprefer' => ?_
  refine (aligned_compareLengths hab (hab.symm.trans hac)).step fun hlengths _ hlengths' => ?_
  refine (aligned_compare _ _ _).step fun _ _ _ => ?_
  rw [Shape.preference_swap, Ordering.swap_eq_eq] at hprefer'
  rw [compareLengths_swap, Ordering.swap_eq_eq] at hlengths'
  have hparts := h hprefer hprefer' hlengths hlengths'
  exact hparts.aligned.step fun _ _ _ => aligned_compare _ _ _

theorem forall₂_fits {as bs : List Match} {pos : Nat}
    (hclauses : as.map (·.clause) = bs.map (·.clause)) (hlengths : compareLengths as bs = .eq)
    (ha : EndToEnd pos as) (hb : EndToEnd pos bs) (hall : ∀ b ∈ bs, b.WellFormed g input) :
    List.Forall₂ (fun a b => b.Fits g input a.key) as bs := by
  have hcount : as.length = bs.length := by simpa using congrArg List.length hclauses
  have hmap := map_length_eq_of_compareLengths hcount hlengths
  exact forall₂_of_endToEnd hclauses hmap ha hb fun _ _ b hb hclause hstart =>
    ⟨hclause, hstart, hall b hb⟩

structure Repeats (g : Grammar) (input : Input) (k : Key) (slot : Slot) (m p : Match)
    (later : List Match) : Prop where
  shape : g.shape k.clause = .unary .oneOrMore slot
  fits : m.Fits g input k
  parts_eq : m.parts = p :: later
  head : p.Fits g input ⟨slot.clause, k.start⟩
  length_eq : m.length = p.length + totalLength later
  tail : later = [] ∨ ∃ t, later = [t] ∧ t.Fits g input ⟨k.clause, p.stop⟩

theorem Fits.repeats {k : Key} {slot : Slot} {m : Match} (h : m.Fits g input k)
    (hshape : g.shape k.clause = .unary .oneOrMore slot) :
    ∃ p later, Repeats g input k slot m p later := by
  obtain ⟨p, hhead, _, hcases⟩ := h.wellFormed.composed_of_shape h.clause_eq hshape
  rw [h.start_eq] at hhead
  rcases hcases with ⟨hlength, hparts⟩ | ⟨rest, hrest, hlength, hparts⟩
  · exact ⟨p, [], hshape, h, hparts, hhead, hlength, .inl rfl⟩
  · rw [h.clause_eq] at hrest
    exact ⟨p, [rest], hshape, h, hparts, hhead, by simpa [totalLength] using hlength,
      .inr ⟨rest, rfl, hrest⟩⟩

/-- Three matches of a repetition that beat each other in a circle. Two have more than one part,
and of these the one with the longer first part is better, however long they are as a whole. The
third has one part, and is decided against each of the two by the whole length, or if that is
equal by the first parts. -/
def Circular (g : Grammar) (x y z : Match) : Prop :=
  ∃ p q u r v, x.parts = [p] ∧ y.parts = [q, u] ∧ z.parts = [r, v] ∧ r.length < q.length ∧
    (y.length < x.length ∨ y.length = x.length ∧ p.isBetter g q = true) ∧
    (x.length < z.length ∨ x.length = z.length ∧ r.isBetter g p = true)

def CircleFree (g : Grammar) (input : Input) : Prop :=
  ∀ k slot, g.shape k.clause = .unary .oneOrMore slot → ∀ x y z, x.Fits g input k →
    y.Fits g input k → z.Fits g input k → ¬Circular g x y z

section Repetition

variable {k : Key} {slot : Slot} {a b c p q r u v : Match} {ps qs rs : List Match}

namespace Repeats

theorem compareIn_lone (ha : Repeats g input k slot a p ps) (hb : Repeats g input k slot b q qs)
    (hlone : ps = [] ∨ qs = []) :
    compareIn g a b = (compare a.length b.length).then
      ((compareIn g p q).then (compare a.parts.length b.parts.length)) := by
  have hparts : compareAllIn g a.parts b.parts = compareIn g p q := by
    rw [ha.parts_eq, hb.parts_eq]
    rcases hlone with rfl | rfl
    · exact (compareAllIn_single g q p qs).2
    · exact (compareAllIn_single g p q ps).1
  rw [compareIn_eq, ha.fits.clause_eq, ha.shape, hparts]
  by_cases hcount : a.parts.length = b.parts.length
  · -- Both have one part, whose length is their own.
    have hnone : ps = [] ∧ qs = [] := by
      rw [ha.parts_eq, hb.parts_eq] at hcount
      rcases hlone with rfl | rfl
      · exact ⟨rfl, List.length_eq_zero_iff.mp (Nat.succ.inj hcount).symm⟩
      · exact ⟨List.length_eq_zero_iff.mp (Nat.succ.inj hcount), rfl⟩
    obtain ⟨rfl, rfl⟩ := hnone
    have hlengths : compareLengths a.parts b.parts = compare a.length b.length := by
      rw [ha.parts_eq, hb.parts_eq, ha.length_eq, hb.length_eq]
      simp [compareLengths, totalLength]
    rw [if_pos hcount, hlengths, ← Ordering.then_assoc (compare a.length b.length),
      Ordering.then_self]
    rfl
  · rw [if_neg hcount]
    rfl

theorem compareIn_pair (ha : Repeats g input k slot a p [u]) (hb : Repeats g input k slot b q [v]) :
    compareIn g a b = (compare p.length q.length).then ((compare u.length v.length).then
      ((compareIn g p q).then (compareIn g u v))) := by
  have hall : compareAllIn g [p, u] [q, v] = (compareIn g p q).then (compareIn g u v) := by
    rw [compareAllIn, (compareAllIn_single g u v []).1]
  have hcount : [p, u].length = [q, v].length := rfl
  have hself : ∀ n : Nat, compare n n = .eq := fun n => Nat.compare_eq_eq.mpr rfl
  rw [compareIn_eq, ha.fits.clause_eq, ha.shape, ha.parts_eq, hb.parts_eq, if_pos hcount, hall]
  simp only [Shape.preference, Ordering.eq_then, compareLengths, Ordering.then_eq,
    Ordering.then_assoc, List.length_cons, List.length_nil, hself]
  refine then_congr fun hhead => then_congr fun htail => ?_
  have hlength : a.length = b.length := by
    rw [ha.length_eq, hb.length_eq, Nat.compare_eq_eq.mp hhead]
    simp [totalLength, Nat.compare_eq_eq.mp htail]
  rw [hlength, hself, Ordering.eq_then]

theorem isBetter_lone (ha : Repeats g input k slot a p ps) (hb : Repeats g input k slot b q qs)
    (hlone : ps = [] ∨ qs = [])
    (h : b.length < a.length ∨ b.length = a.length ∧ p.isBetter g q = true) :
    a.isBetter g b = true := by
  rw [isBetter, beq_iff_eq, ha.compareIn_lone hb hlone]
  rcases h with hlt | ⟨heq, hbetter⟩
  · rw [Nat.compare_eq_gt.mpr hlt]
    rfl
  · rw [isBetter, beq_iff_eq] at hbetter
    rw [Nat.compare_eq_eq.mpr heq.symm, hbetter]
    rfl

theorem isBetter_pair (ha : Repeats g input k slot a p [u]) (hb : Repeats g input k slot b q [v])
    (h : q.length < p.length) : a.isBetter g b = true := by
  rw [isBetter, beq_iff_eq, ha.compareIn_pair hb, Nat.compare_eq_gt.mpr h]
  rfl

theorem aligned_lone (ha : Repeats g input k slot a p ps) (hb : Repeats g input k slot b q qs)
    (hc : Repeats g input k slot c r rs)
    (hheads : Aligned (compareIn g p q) (compareIn g q r) (compareIn g r p))
    (hab : ps = [] ∨ qs = []) (hbc : qs = [] ∨ rs = []) (hca : rs = [] ∨ ps = []) :
    Aligned (compareIn g a b) (compareIn g b c) (compareIn g c a) := by
  rw [ha.compareIn_lone hb hab, hb.compareIn_lone hc hbc, hc.compareIn_lone ha hca]
  exact (aligned_compare _ _ _).step fun _ _ _ => hheads.step fun _ _ _ => aligned_compare _ _ _

theorem aligned_between (ha : Repeats g input k slot a p []) (hb : Repeats g input k slot b q [u])
    (hc : Repeats g input k slot c r [v])
    (hheads : Aligned (compareIn g p q) (compareIn g q r) (compareIn g r p))
    (hfree : ¬Circular g a b c) :
    Aligned (compareIn g a b) (compareIn g b c) (compareIn g c a) := by
  intro hab hbc hca
  exfalso
  have hla : a.length = p.length := ha.length_eq
  have hlb : b.length = q.length + u.length := by simpa [totalLength] using hb.length_eq
  have hlc : c.length = r.length + v.length := by simpa [totalLength] using hc.length_eq
  have hover : b.length < a.length ∨ b.length = a.length ∧ compareIn g p q = .gt := by
    rw [ha.compareIn_lone hb (.inl rfl), ha.parts_eq, hb.parts_eq, isGE_then_iff, isGE_then_iff,
      Nat.compare_eq_gt, Nat.compare_eq_eq] at hab
    refine hab.imp_right fun h => ⟨h.1.symm, h.2.resolve_right fun hcount => ?_⟩
    exact absurd (Nat.isGE_compare.mp hcount.2) (by simp)
  have hunder : a.length < c.length ∨ a.length = c.length ∧ (compareIn g r p).isGE = true := by
    rw [hc.compareIn_lone ha (.inr rfl), isGE_then_iff, Nat.compare_eq_gt, Nat.compare_eq_eq] at hca
    exact hca.imp_right fun h => ⟨h.1.symm, Aligned.isGE_of_then h.2⟩
  rw [hb.compareIn_pair hc, isGE_then_iff, isGE_then_iff, Nat.compare_eq_gt, Nat.compare_eq_eq,
    Nat.compare_eq_gt, Nat.compare_eq_eq] at hbc
  rcases hbc with hlonger | ⟨hsame, hlonger | ⟨hsame', hbetter⟩⟩
  · refine hfree ⟨p, q, u, r, v, ha.parts_eq, hb.parts_eq, hc.parts_eq, hlonger, ?_, ?_⟩
    · exact hover.imp_right fun h => ⟨h.1, by rw [isBetter, h.2]; rfl⟩
    · refine hunder.imp_right fun h => ⟨h.1, ?_⟩
      rcases Ordering.isGE_iff_eq_gt_or_eq_eq.mp h.2 with hgt | heq
      · rw [isBetter, hgt]
        rfl
      · -- The first part of the longest would be all of the shortest.
        have hwhole : r = p := (hc.head.ranked ha.head).eq heq
        subst hwhole
        omega
  · omega
  · -- All are equally long, and the circle would be one of the first parts.
    have hgt : compareIn g p q = .gt := (hover.resolve_left (by omega)).2
    have hge : (compareIn g r p).isGE = true := (hunder.resolve_left (by omega)).2
    have heq := (hheads (Ordering.isGE_of_eq_gt hgt) (Aligned.isGE_of_then hbetter) hge).1
    rw [hgt] at heq
    cases heq

theorem aligned_pairs {t : Match} (ha : Repeats g input k slot a p [t])
    (hb : Repeats g input k slot b q [u]) (hc : Repeats g input k slot c r [v])
    (hheads : Aligned (compareIn g p q) (compareIn g q r) (compareIn g r p))
    (htails : p.stop = q.stop → p.stop = r.stop →
      Aligned (compareIn g t u) (compareIn g u v) (compareIn g v t)) :
    Aligned (compareIn g a b) (compareIn g b c) (compareIn g c a) := by
  rw [ha.compareIn_pair hb, hb.compareIn_pair hc, hc.compareIn_pair ha]
  refine (aligned_compare _ _ _).step fun hpq _ hrp => ?_
  refine (aligned_compare _ _ _).step fun _ _ _ => hheads.step fun _ _ _ => htails ?_ ?_
  · rw [stop, stop, ha.head.start_eq, hb.head.start_eq, Nat.compare_eq_eq.mp hpq]
  · rw [stop, stop, ha.head.start_eq, hc.head.start_eq, Nat.compare_eq_eq.mp hrp]

end Repeats

theorem Fits.key_eq {m : Match} (h : m.Fits g input k) : m.key = k := by
  rw [key, h.clause_eq, h.start_eq]

theorem Repeats.aligned (hfree : CircleFree g input) (ha : Repeats g input k slot a p ps)
    (hb : b.Fits g input k) (hc : c.Fits g input k)
    (hhead : ∀ q r, q.Fits g input p.key → r.Fits g input p.key →
      Aligned (compareIn g p q) (compareIn g q r) (compareIn g r p))
    (htail : ∀ t ∈ ps, ∀ u v, u.Fits g input t.key → v.Fits g input t.key →
      Aligned (compareIn g t u) (compareIn g u v) (compareIn g v t)) :
    Aligned (compareIn g a b) (compareIn g b c) (compareIn g c a) := by
  obtain ⟨q, qs, hb⟩ := hb.repeats ha.shape
  obtain ⟨r, rs, hc⟩ := hc.repeats ha.shape
  have hcircle := hfree k slot ha.shape
  have hheads := hhead q r (ha.head.key_eq ▸ hb.head) (ha.head.key_eq ▸ hc.head)
  have hlone := ha.aligned_lone hb hc hheads
  -- The one that stands alone, if there is just one, comes first.
  rcases ha.tail with rfl | ⟨t, rfl, ht⟩
  · rcases hb.tail with rfl | ⟨u, rfl, _⟩
    · exact hlone (.inl rfl) (.inl rfl) (.inr rfl)
    · rcases hc.tail with rfl | ⟨v, rfl, _⟩
      · exact hlone (.inl rfl) (.inr rfl) (.inl rfl)
      · exact ha.aligned_between hb hc hheads (hcircle a b c ha.fits hb.fits hc.fits)
  · rcases hb.tail with rfl | ⟨u, rfl, hu⟩
    · rcases hc.tail with rfl | ⟨v, rfl, _⟩
      · exact hlone (.inr rfl) (.inl rfl) (.inl rfl)
      · exact (hb.aligned_between hc ha hheads.rotate
          (hcircle b c a hb.fits hc.fits ha.fits)).rotate.rotate
    · rcases hc.tail with rfl | ⟨v, rfl, hv⟩
      · exact (hc.aligned_between ha hb hheads.rotate.rotate
          (hcircle c a b hc.fits ha.fits hb.fits)).rotate
      · refine ha.aligned_pairs hb hc hheads fun hq hr =>
          htail t (List.mem_singleton_self t) u v ?_ ?_
        · rw [ht.key_eq, hq]
          exact hu
        · rw [ht.key_eq, hr]
          exact hv

end Repetition

theorem aligned_of_leaves {a b c : Match} (hb : b.clause = a.clause) (hc : c.clause = a.clause)
    (ha' : a.parts = []) (hb' : b.parts = []) (hc' : c.parts = []) :
    Aligned (compareIn g a b) (compareIn g b c) (compareIn g c a) := by
  refine aligned_of_parts hb hc (by rw [ha', hb']) (by rw [ha', hc']) fun _ _ _ _ => ?_
  rw [ha', hb', hc']
  exact .nil

theorem Fits.parts_of_choice {k : Key} {kind : Group} {slots : List Slot} {m : Match}
    (h : m.Fits g input k) (hshape : g.shape k.clause = .group kind slots) (hkind : kind ≠ .seq) :
    ∃ slot p, slots[m.index]? = some slot ∧ p.Fits g input ⟨slot.clause, k.start⟩ ∧
      m.parts = [p] := by
  have hcomposed := h.wellFormed.composed_of_shape h.clause_eq hshape
  rw [← h.start_eq]
  cases kind with
  | seq => exact absurd rfl hkind
  | first | longest =>
      obtain ⟨slot, p, hslot, hp, _, hparts⟩ := hcomposed
      exact ⟨slot, p, hslot, hp, hparts⟩

theorem WellFormed.aligned (hfree : CircleFree g input) {a b c : Match}
    (ha : a.WellFormed g input) (hb : b.Fits g input a.key) (hc : c.Fits g input a.key) :
    Aligned (compareIn g a b) (compareIn g b c) (compareIn g c a) := by
  induction ha generalizing b c with
  | @terminal clause pos length t hshape _ =>
      obtain ⟨_, _, hparts⟩ := hb.wellFormed.composed_of_shape hb.clause_eq hshape
      obtain ⟨_, _, hparts'⟩ := hc.wellFormed.composed_of_shape hc.clause_eq hshape
      exact aligned_of_leaves hb.clause_eq hc.clause_eq rfl hparts hparts'
  | @lookahead clause pos kind slot hshape hkind _ =>
      have hcomposed := hb.wellFormed.composed_of_shape hb.clause_eq hshape
      have hcomposed' := hc.wellFormed.composed_of_shape hc.clause_eq hshape
      cases kind with
      | oneOrMore => exact absurd rfl hkind
      | followedBy | notFollowedBy =>
          exact aligned_of_leaves hb.clause_eq hc.clause_eq rfl hcomposed.2.2 hcomposed'.2.2
  | @seq clause pos slots parts hshape _ hclauses hends _ ih =>
      obtain ⟨_, _, hclauses₁, hends₁, hall₁⟩ := hb.wellFormed.composed_of_shape hb.clause_eq hshape
      obtain ⟨_, _, hclauses₂, hends₂, hall₂⟩ := hc.wellFormed.composed_of_shape hc.clause_eq hshape
      rw [hb.start_eq] at hends₁
      rw [hc.start_eq] at hends₂
      have hsame₁ := hclauses.trans hclauses₁.symm
      have hsame₂ := hclauses.trans hclauses₂.symm
      refine aligned_of_parts hb.clause_eq hc.clause_eq (by simpa using congrArg List.length hsame₁)
        (by simpa using congrArg List.length hsame₂) fun _ _ hlengths₁ hlengths₂ => ?_
      exact alignedAll_of_fits (forall₂_fits hsame₁ hlengths₁ hends hends₁ hall₁)
        (forall₂_fits hsame₂ hlengths₂ hends hends₂ hall₂) fun m hm b c => ih m hm
  | @choice clause i kind slots slot m hshape hkind hslot hp hm ih =>
      obtain ⟨slot₁, q, hslot₁, hq, hparts₁⟩ := hb.parts_of_choice hshape hkind
      obtain ⟨slot₂, r, hslot₂, hr, hparts₂⟩ := hc.parts_of_choice hshape hkind
      refine aligned_of_parts hb.clause_eq hc.clause_eq (by rw [hparts₁]; rfl)
        (by rw [hparts₂]; rfl) ?_
      intro hprefer₁ hprefer₂ _ _
      rw [hshape] at hprefer₁ hprefer₂
      rw [← preference_eq hkind hprefer₁, hslot, Option.some.injEq] at hslot₁
      rw [← preference_eq hkind hprefer₂, hslot, Option.some.injEq] at hslot₂
      subst hslot₁ hslot₂
      have hkey : m.key = ⟨slot.clause, m.start⟩ := by rw [key, hp]
      rw [hparts₁, hparts₂]
      exact .cons (ih (hkey ▸ hq) (hkey ▸ hr)) .nil
  | @once clause slot m hshape hp hm ih =>
      exact Repeats.aligned hfree ⟨hshape, ⟨rfl, rfl, .once hshape hp hm⟩, rfl, ⟨hp, rfl, hm⟩, rfl,
        .inl rfl⟩ hb hc (fun q r => ih) (by simp)
  | @more clause slot m rest hshape hp hrest hnext hlt hlt' hm hrest' ih ih' =>
      refine Repeats.aligned hfree ⟨hshape,
        ⟨rfl, rfl, .more hshape hp hrest hnext hlt hlt' hm hrest'⟩, rfl, ⟨hp, rfl, hm⟩, rfl,
        .inr ⟨rest, rfl, hrest, hnext, hrest'⟩⟩ hb hc (fun q r => ih) ?_
      simpa using fun u v => ih'

theorem isBetter_trans (hfree : CircleFree g input) {k : Key} {a b c : Match}
    (ha : a.Fits g input k) (hb : b.Fits g input k) (hc : c.Fits g input k)
    (hab : a.isBetter g b = true) (hbc : b.isBetter g c = true) : a.isBetter g c = true := by
  rw [isBetter, beq_iff_eq] at hab hbc ⊢
  by_contra hac
  have hca : (compareIn g c a).isGE = true := by
    rw [(ha.ranked hc).swap, Ordering.isGE_swap]
    cases hcompare : compareIn g a c with
    | lt | eq => rfl
    | gt => exact absurd hcompare hac
  have haligned := ha.wellFormed.aligned hfree (ha.key_eq ▸ hb) (ha.key_eq ▸ hc)
  have heq := (haligned (Ordering.isGE_of_eq_gt hab) (Ordering.isGE_of_eq_gt hbc) hca).1
  rw [hab] at heq
  cases heq

theorem Circular.intransitive {k : Key} {slot : Slot} {x y z : Match}
    (hshape : g.shape k.clause = .unary .oneOrMore slot) (hx : x.Fits g input k)
    (hy : y.Fits g input k) (hz : z.Fits g input k) (h : Circular g x y z) :
    x.isBetter g y = true ∧ y.isBetter g z = true ∧ x.isBetter g z = false := by
  obtain ⟨p, q, u, r, v, hxparts, hyparts, hzparts, hlonger, hover, hunder⟩ := h
  obtain ⟨p', ps, hx'⟩ := hx.repeats hshape
  obtain ⟨q', qs, hy'⟩ := hy.repeats hshape
  obtain ⟨r', rs, hz'⟩ := hz.repeats hshape
  obtain ⟨rfl, rfl⟩ := List.cons.inj (hxparts.symm.trans hx'.parts_eq)
  obtain ⟨rfl, rfl⟩ := List.cons.inj (hyparts.symm.trans hy'.parts_eq)
  obtain ⟨rfl, rfl⟩ := List.cons.inj (hzparts.symm.trans hz'.parts_eq)
  refine ⟨hx'.isBetter_lone hy' (.inl rfl) hover, hy'.isBetter_pair hz' hlonger, ?_⟩
  have hback := hz'.isBetter_lone hx' (.inr rfl) hunder
  rw [isBetter, beq_iff_eq] at hback
  rw [isBetter, (hz.ranked hx).swap, hback]
  rfl

end Match

/-- A repetition whose part can take one, two or four characters at the same place. -/
def elastic : Source where
  definitions := [
    .plain "K" (.oneOrMore (.reference "X")),
    .plain "X" (.first [
      .seq [.followedBy (.char 'a'), .literal "abcd"],
      .char 'a', .literal "ab", .literal "bcde", .char 'c'])]
  lexical := none

namespace Elastic

structure Shapes (g : Grammar) : Prop where
  letter : g.shape 0 = .terminal (.chars (CharSet.singleton 'a'))
  ahead : g.shape 1 = .unary .followedBy ⟨0, none⟩
  text : g.shape 2 = .terminal (.literal "abcd" false)
  pair : g.shape 3 = .group .seq [⟨1, none⟩, ⟨2, none⟩]
  start : g.shape 4 = .terminal (.literal "ab" false)
  rest : g.shape 5 = .terminal (.literal "bcde" false)
  middle : g.shape 6 = .terminal (.chars (CharSet.singleton 'c'))
  part : g.shape 7 = .group .first [⟨3, none⟩, ⟨0, none⟩, ⟨4, none⟩, ⟨5, none⟩, ⟨6, none⟩]
  whole : g.shape 8 = .unary .oneOrMore ⟨7, none⟩

theorem exists_compiled : ∃ g, elastic.compile = .ok g ∧ Shapes g := by
  have hfacts : (elastic.compile.toOption.any fun g =>
      decide (g.shape 0 = .terminal (.chars (CharSet.singleton 'a'))) &&
      decide (g.shape 1 = .unary .followedBy ⟨0, none⟩) &&
      decide (g.shape 2 = .terminal (.literal "abcd" false)) &&
      decide (g.shape 3 = .group .seq [⟨1, none⟩, ⟨2, none⟩]) &&
      decide (g.shape 4 = .terminal (.literal "ab" false)) &&
      decide (g.shape 5 = .terminal (.literal "bcde" false)) &&
      decide (g.shape 6 = .terminal (.chars (CharSet.singleton 'c'))) &&
      decide (g.shape 7 =
        .group .first [⟨3, none⟩, ⟨0, none⟩, ⟨4, none⟩, ⟨5, none⟩, ⟨6, none⟩]) &&
      decide (g.shape 8 = .unary .oneOrMore ⟨7, none⟩)) = true := by decide +kernel
  obtain ⟨g, hg, hfacts⟩ := Source.exists_of_compile_any hfacts
  simp only [Bool.and_eq_true, decide_eq_true_eq, and_assoc] at hfacts
  obtain ⟨hletter, hahead, htext, hpair, hstart, hrest, hmiddle, hpart, hwhole⟩ := hfacts
  exact ⟨g, hg, hletter, hahead, htext, hpair, hstart, hrest, hmiddle, hpart, hwhole⟩

def input : Input := Input.ofString "abcde"

def four : Match :=
  ⟨8, 0, 4, 0, [⟨7, 0, 4, 0, [⟨3, 0, 4, 0, [.leaf 1 0 0, .leaf 2 0 4]⟩]⟩]⟩

def twoAndOne : Match :=
  ⟨8, 0, 3, 0, [⟨7, 0, 2, 2, [.leaf 4 0 2]⟩, ⟨8, 2, 1, 0, [⟨7, 2, 1, 4, [.leaf 6 2 1]⟩]⟩]⟩

def oneAndFour : Match :=
  ⟨8, 0, 5, 0, [⟨7, 0, 1, 1, [.leaf 0 0 1]⟩, ⟨8, 1, 4, 0, [⟨7, 1, 4, 3, [.leaf 5 1 4]⟩]⟩]⟩

variable {g : Grammar}

theorem leaf_wellFormed {c pos length : Nat} {t : Terminal} (hshape : g.shape c = .terminal t)
    (h : t.length? input pos = some length) : (Match.leaf c pos length).WellFormed g input :=
  .terminal hshape ((t.length?_eq_some_iff input pos length).mp h)

theorem Shapes.part_wellFormed (h : Shapes g) (i pos length : Nat) {c : Nat} {t : Terminal}
    (hslot : [3, 0, 4, 5, 6][i]? = some c) (hshape : g.shape c = .terminal t)
    (hlength : t.length? input pos = some length) :
    (Match.mk 7 pos length i [.leaf c pos length]).WellFormed g input := by
  have hslot' : ([⟨3, none⟩, ⟨0, none⟩, ⟨4, none⟩, ⟨5, none⟩, ⟨6, none⟩] : List Slot)[i]? =
      some ⟨c, none⟩ := by
    have hmap := congrArg (Option.map fun c => Slot.mk c none) hslot
    rwa [← List.getElem?_map] at hmap
  exact .choice h.part (by simp) hslot' rfl (leaf_wellFormed hshape hlength)

theorem Shapes.fits_four (h : Shapes g) : four.Fits g input ⟨8, 0⟩ := by
  have hahead : (Match.leaf 1 0 0).WellFormed g input :=
    .lookahead h.ahead (by simp) (Nat.zero_le _)
  have htext : (Match.leaf 2 0 4).WellFormed g input := leaf_wellFormed h.text (by decide)
  have hends : Match.EndToEnd 0 [.leaf 1 0 0, .leaf 2 0 4] := ⟨rfl, rfl, trivial⟩
  have hpair : (Match.mk 3 0 4 0 [.leaf 1 0 0, .leaf 2 0 4]).WellFormed g input :=
    .seq h.pair (Nat.zero_le _) rfl hends
      (List.forall_mem_cons.mpr ⟨hahead, List.forall_mem_singleton.mpr htext⟩)
  exact ⟨rfl, rfl, .once h.whole rfl (.choice h.part (by simp) rfl rfl hpair)⟩

theorem Shapes.fits_twoAndOne (h : Shapes g) : twoAndOne.Fits g input ⟨8, 0⟩ := by
  have hfirst := h.part_wellFormed 2 0 2 rfl h.start (by decide)
  have hsecond := h.part_wellFormed 4 2 1 rfl h.middle (by decide)
  exact ⟨rfl, rfl, .more h.whole rfl rfl rfl (by decide) (by decide) hfirst
    (.once h.whole rfl hsecond)⟩

theorem Shapes.fits_oneAndFour (h : Shapes g) : oneAndFour.Fits g input ⟨8, 0⟩ := by
  have hfirst := h.part_wellFormed 1 0 1 rfl h.letter (by decide)
  have hsecond := h.part_wellFormed 3 1 4 rfl h.rest (by decide)
  exact ⟨rfl, rfl, .more h.whole rfl rfl rfl (by decide) (by decide) hfirst
    (.once h.whole rfl hsecond)⟩

end Elastic

namespace Match

variable {g : Grammar} {input : Input}

theorem comparison_is_antisymmetric {k : Key} {a b : Match} (ha : a.Fits g input k)
    (hb : b.Fits g input k) :
    compareIn g b a = (compareIn g a b).swap ∧ (compareIn g a b = .eq ↔ a = b) := by
  refine ⟨(ha.ranked hb).swap, (ha.ranked hb).eq, ?_⟩
  rintro rfl
  exact compareIn_self g a

theorem elastic_matches_compare_both_ways :
    ∃ g, elastic.compile = .ok g ∧ Elastic.four.Fits g Elastic.input ⟨8, 0⟩ ∧
      Elastic.twoAndOne.Fits g Elastic.input ⟨8, 0⟩ ∧
      compareIn g Elastic.twoAndOne Elastic.four =
        (compareIn g Elastic.four Elastic.twoAndOne).swap ∧
      compareIn g Elastic.four Elastic.twoAndOne ≠ .eq := by
  obtain ⟨g, hg, hshapes⟩ := Elastic.exists_compiled
  obtain ⟨hswap, heq⟩ := comparison_is_antisymmetric hshapes.fits_four hshapes.fits_twoAndOne
  refine ⟨g, hg, hshapes.fits_four, hshapes.fits_twoAndOne, hswap, fun h => ?_⟩
  exact absurd (congrArg Match.length (heq.mp h)) (by decide)

theorem better_is_transitive_iff (g : Grammar) (input : Input) :
    (∀ (k : Key) (a b c : Match), a.Fits g input k → b.Fits g input k → c.Fits g input k →
        a.isBetter g b = true → b.isBetter g c = true → a.isBetter g c = true) ↔
      CircleFree g input := by
  constructor
  · intro htrans k slot hshape x y z hx hy hz hcircle
    obtain ⟨hxy, hyz, hxz⟩ := hcircle.intransitive hshape hx hy hz
    rw [htrans k x y z hx hy hz hxy hyz] at hxz
    cases hxz
  · exact fun hfree k a b c ha hb hc => isBetter_trans hfree ha hb hc

theorem elastic_matches_go_round :
    ∃ g, elastic.compile = .ok g ∧ Elastic.four.Fits g Elastic.input ⟨8, 0⟩ ∧
      Elastic.twoAndOne.Fits g Elastic.input ⟨8, 0⟩ ∧
      Elastic.oneAndFour.Fits g Elastic.input ⟨8, 0⟩ ∧
      Elastic.four.isBetter g Elastic.twoAndOne = true ∧
      Elastic.twoAndOne.isBetter g Elastic.oneAndFour = true ∧
      Elastic.four.isBetter g Elastic.oneAndFour = false := by
  obtain ⟨g, hg, hshapes⟩ := Elastic.exists_compiled
  have hcircle : Circular g Elastic.four Elastic.twoAndOne Elastic.oneAndFour :=
    ⟨_, _, _, _, _, rfl, rfl, rfl, by decide, .inl (by decide), .inl (by decide)⟩
  exact ⟨g, hg, hshapes.fits_four, hshapes.fits_twoAndOne, hshapes.fits_oneAndFour,
    hcircle.intransitive hshapes.whole hshapes.fits_four hshapes.fits_twoAndOne
      hshapes.fits_oneAndFour⟩

end Match

end BottomUpPeg
