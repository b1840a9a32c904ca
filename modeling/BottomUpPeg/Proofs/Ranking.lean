import BottomUpPeg.Match.Compare
import BottomUpPeg.Proofs.Derivation

namespace BottomUpPeg

theorem Shape.preference_swap (s : Shape) (length index length' index' : Nat) :
    s.preference length' index' length index =
      (s.preference length index length' index').swap := by
  cases s with
  | terminal t => rfl
  | unary kind slot => rfl
  | group kind slots =>
      cases kind with
      | seq => rfl
      | first => exact (Nat.compare_swap index' index).symm
      | longest =>
          simp only [preference, Ordering.swap_then, Nat.compare_swap]

theorem Shape.preference_self (s : Shape) (length index : Nat) :
    s.preference length index length index = .eq := by
  cases s with
  | terminal t => rfl
  | unary kind slot => rfl
  | group kind slots => cases kind <;> simp [preference]

namespace Match

theorem compareLengths_swap (as bs : List Match) :
    compareLengths bs as = (compareLengths as bs).swap := by
  induction as generalizing bs with
  | nil => cases bs <;> rfl
  | cons a as ih =>
      cases bs with
      | nil => rfl
      | cons b bs => rw [compareLengths, compareLengths, Ordering.swap_then, Nat.compare_swap, ih]

theorem compareLengths_self (as : List Match) : compareLengths as as = .eq := by
  induction as with
  | nil => rfl
  | cons a as ih => simp [compareLengths, ih]

theorem map_length_eq_of_compareLengths {as bs : List Match} (hcount : as.length = bs.length)
    (h : compareLengths as bs = .eq) : as.map (·.length) = bs.map (·.length) := by
  induction as generalizing bs with
  | nil => simp [List.length_eq_zero_iff.mp hcount.symm]
  | cons a as ih =>
      cases bs with
      | nil => cases hcount
      | cons b bs =>
          obtain ⟨hhead, htail⟩ := Ordering.then_eq_eq.mp h
          rw [List.map_cons, List.map_cons, Nat.compare_eq_eq.mp hhead,
            ih (Nat.succ.inj hcount) htail]

theorem compareIn_eq (g : Grammar) (a b : Match) :
    compareIn g a b =
      ((g.shape a.clause).preference a.length a.index b.length b.index).then
        ((if a.parts.length = b.parts.length then compareLengths a.parts b.parts else .eq).then
          ((compare a.length b.length).then
            ((compareAllIn g a.parts b.parts).then (compare a.parts.length b.parts.length)))) := by
  cases a
  rw [compareIn]

mutual

theorem compareIn_self (g : Grammar) : (m : Match) → compareIn g m m = .eq
  | ⟨c, start, length, index, parts⟩ => by
      simp [compareIn, Shape.preference_self, compareLengths_self, compareAllIn_self g parts]

theorem compareAllIn_self (g : Grammar) : (ms : List Match) → compareAllIn g ms ms = .eq
  | [] => by rw [compareAllIn]; simp
  | m :: ms => by rw [compareAllIn, compareIn_self g m, compareAllIn_self g ms]; rfl

end

theorem not_isBetter_self (g : Grammar) (m : Match) : m.isBetter g m = false := by
  rw [isBetter, compareIn_self]
  rfl

/-- The comparison of two matches is turned around when they change places, and finds none better
only if they are the same. -/
structure Ranked (g : Grammar) (a b : Match) : Prop where
  swap : compareIn g b a = (compareIn g a b).swap
  eq : compareIn g a b = .eq → a = b

theorem compareAllIn_ranked {g : Grammar} {as bs : List Match}
    (h : List.Forall₂ (Ranked g) as bs) :
    compareAllIn g bs as = (compareAllIn g as bs).swap ∧ (compareAllIn g as bs = .eq → as = bs) := by
  induction h with
  | nil =>
      rw [compareAllIn]
      · simp
      · simp
  | cons hhead _ ih =>
      rw [compareAllIn, compareAllIn]
      refine ⟨?_, fun heq => ?_⟩
      · rw [Ordering.swap_then, hhead.swap, ih.1]
      · obtain ⟨hcompare, hrest⟩ := Ordering.then_eq_eq.mp heq
        rw [hhead.eq hcompare, ih.2 hrest]

def Composed (g : Grammar) (input : Input) (m : Match) : Shape → Prop
  | .terminal t => t.Takes input m.start m.length ∧ m.index = 0 ∧ m.parts = []
  | .group .seq slots =>
      m.index = 0 ∧ m.length = totalLength m.parts ∧
        m.parts.map (·.clause) = slots.map (·.clause) ∧ EndToEnd m.start m.parts ∧
        ∀ p ∈ m.parts, p.WellFormed g input
  | .group _ slots =>
      ∃ slot p, slots[m.index]? = some slot ∧ p.Fits g input ⟨slot.clause, m.start⟩ ∧
        m.length = p.length ∧ m.parts = [p]
  | .unary .oneOrMore slot =>
      ∃ p, p.Fits g input ⟨slot.clause, m.start⟩ ∧ m.index = 0 ∧
        (m.length = p.length ∧ m.parts = [p] ∨
          ∃ rest, rest.Fits g input ⟨m.clause, p.stop⟩ ∧ m.length = p.length + rest.length ∧
            m.parts = [p, rest])
  | .unary _ _ => m.length = 0 ∧ m.index = 0 ∧ m.parts = []

theorem WellFormed.composed {g : Grammar} {input : Input} {m : Match} (h : m.WellFormed g input) :
    m.Composed g input (g.shape m.clause) := by
  cases h with
  | terminal hshape htakes =>
      rw [hshape]
      exact ⟨htakes, rfl, rfl⟩
  | seq hshape _ hclauses hends hall =>
      rw [hshape]
      exact ⟨rfl, rfl, hclauses, hends, hall⟩
  | @choice c i kind slots slot p hshape hkind hslot hclause hp =>
      rw [hshape]
      have hfits : p.Fits g input ⟨slot.clause, p.start⟩ := ⟨hclause, rfl, hp⟩
      cases kind with
      | seq => exact absurd rfl hkind
      | first | longest => exact ⟨slot, p, hslot, hfits, rfl, rfl⟩
  | once hshape hclause hp =>
      rw [hshape]
      exact ⟨_, ⟨hclause, rfl, hp⟩, rfl, .inl ⟨rfl, rfl⟩⟩
  | more hshape hclause hclause' hstart _ _ hp hrest =>
      rw [hshape]
      exact ⟨_, ⟨hclause, rfl, hp⟩, rfl, .inr ⟨_, ⟨hclause', hstart, hrest⟩, rfl, rfl⟩⟩
  | @lookahead c pos kind slot hshape hkind _ =>
      rw [hshape]
      cases kind with
      | oneOrMore => exact absurd rfl hkind
      | followedBy | notFollowedBy => exact ⟨rfl, rfl, rfl⟩

theorem then_swap {x x' y y' : Ordering} (hx : x' = x.swap) (hy : x = .eq → y' = y.swap) :
    x'.then y' = (x.then y).swap := by
  subst hx
  cases x with
  | eq => exact hy rfl
  | lt | gt => rfl

theorem ranked_of_parts {g : Grammar} {a b : Match} (hclause : b.clause = a.clause)
    (h : (g.shape a.clause).preference a.length a.index b.length b.index = .eq →
      (a.parts.length = b.parts.length → compareLengths a.parts b.parts = .eq) →
      a.length = b.length →
      compareAllIn g b.parts a.parts = (compareAllIn g a.parts b.parts).swap ∧
        (compareAllIn g a.parts b.parts = .eq → a.parts.length = b.parts.length → a = b)) :
    Ranked g a b := by
  have hlengths : ∀ {o : Ordering}, (if a.parts.length = b.parts.length then o else .eq) = .eq →
      a.parts.length = b.parts.length → o = .eq := fun ho hcount => by rwa [if_pos hcount] at ho
  constructor
  · rw [compareIn_eq g b a, compareIn_eq g a b, hclause]
    refine then_swap (Shape.preference_swap ..) fun hpreference => ?_
    refine then_swap ?_ fun hparts => ?_
    · by_cases hcount : a.parts.length = b.parts.length
      · rw [if_pos hcount, if_pos hcount.symm, compareLengths_swap]
      · rw [if_neg hcount, if_neg fun heq => hcount heq.symm]
        rfl
    refine then_swap (Nat.compare_swap ..).symm fun hlength => ?_
    refine then_swap (h hpreference (hlengths hparts) (Nat.compare_eq_eq.mp hlength)).1 fun _ => ?_
    exact (Nat.compare_swap ..).symm
  · intro heq
    rw [compareIn_eq] at heq
    obtain ⟨hpreference, heq⟩ := Ordering.then_eq_eq.mp heq
    obtain ⟨hparts, heq⟩ := Ordering.then_eq_eq.mp heq
    obtain ⟨hlength, heq⟩ := Ordering.then_eq_eq.mp heq
    obtain ⟨hall, hcount⟩ := Ordering.then_eq_eq.mp heq
    exact (h hpreference (hlengths hparts) (Nat.compare_eq_eq.mp hlength)).2 hall
      (Nat.compare_eq_eq.mp hcount)

theorem forall₂_of_endToEnd {R : Match → Match → Prop} {as bs : List Match} {pos : Nat}
    (hclauses : as.map (·.clause) = bs.map (·.clause))
    (hlengths : as.map (·.length) = bs.map (·.length)) (ha : EndToEnd pos as) (hb : EndToEnd pos bs)
    (h : ∀ a ∈ as, ∀ b ∈ bs, b.clause = a.clause → b.start = a.start → R a b) :
    List.Forall₂ R as bs := by
  induction as generalizing bs pos with
  | nil =>
      rw [List.map_nil, eq_comm, List.map_eq_nil_iff] at hclauses
      rw [hclauses]
      exact .nil
  | cons a as ih =>
      cases bs with
      | nil => cases hclauses
      | cons b bs =>
          obtain ⟨hclause, hclauses⟩ := List.cons.inj hclauses
          obtain ⟨hlength, hlengths⟩ := List.cons.inj hlengths
          have hstart : b.start = a.start := hb.1.trans ha.1.symm
          have hstop : b.stop = a.stop := congrArg₂ (· + ·) hstart hlength.symm
          refine .cons ?_ (ih hclauses hlengths ha.2 (hstop ▸ hb.2) fun a ha b hb => ?_)
          · exact h a (List.mem_cons_self ..) b (List.mem_cons_self ..) hclause.symm hstart
          · exact h a (List.mem_cons_of_mem _ ha) b (List.mem_cons_of_mem _ hb)

theorem preference_eq {kind : Group} {slots : List Slot} (hkind : kind ≠ .seq)
    {length index length' index' : Nat}
    (h : (Shape.group kind slots).preference length index length' index' = .eq) :
    index = index' := by
  cases kind with
  | seq => exact absurd rfl hkind
  | first => exact (Nat.compare_eq_eq.mp h).symm
  | longest => exact (Nat.compare_eq_eq.mp (Ordering.then_eq_eq.mp h).2).symm

theorem compareAllIn_single (g : Grammar) (a b : Match) (as : List Match) :
    compareAllIn g (a :: as) [b] = compareIn g a b ∧
      compareAllIn g [b] (a :: as) = compareIn g b a := by
  have hnil : ∀ bs, compareAllIn g [] bs = .eq ∧ compareAllIn g bs [] = .eq := by
    intro bs
    constructor <;> rw [compareAllIn] <;> simp
  rw [compareAllIn, compareAllIn, (hnil as).1, (hnil as).2]
  simp

theorem WellFormed.composed_of_shape {g : Grammar} {input : Input} {m : Match} {c : Nat} {s : Shape}
    (h : m.WellFormed g input) (hclause : m.clause = c) (hshape : g.shape c = s) :
    m.Composed g input s := by
  rw [← hshape, ← hclause]
  exact h.composed

theorem ext_fields {a b : Match} (hclause : b.clause = a.clause) (hstart : b.start = a.start)
    (hlength : a.length = b.length) (hindex : a.index = b.index) (hparts : a.parts = b.parts) :
    a = b := by
  cases a
  cases b
  simp_all

theorem ranked_of_forall₂ {g : Grammar} {a b : Match} (hclause : b.clause = a.clause)
    (hstart : b.start = a.start)
    (h : (g.shape a.clause).preference a.length a.index b.length b.index = .eq →
      (a.parts.length = b.parts.length → compareLengths a.parts b.parts = .eq) →
      a.index = b.index ∧ List.Forall₂ (Ranked g) a.parts b.parts) :
    Ranked g a b := by
  refine ranked_of_parts hclause fun hpreference hlengths hlength => ?_
  obtain ⟨hindex, hparts⟩ := h hpreference hlengths
  obtain ⟨hswap, heq⟩ := compareAllIn_ranked hparts
  exact ⟨hswap, fun hcompare _ => ext_fields hclause hstart hlength hindex (heq hcompare)⟩

theorem ranked_of_heads {g : Grammar} {a b p q : Match} {ps qs : List Match}
    (hclause : b.clause = a.clause) (ha : a.parts = p :: ps) (hb : b.parts = q :: qs)
    (hranked : Ranked g p q) (hone : ps = [] ∨ qs = []) (hcount : ps.length ≠ qs.length) :
    Ranked g a b := by
  refine ranked_of_parts hclause fun _ _ _ => ?_
  rw [ha, hb]
  refine ⟨?_, fun _ heq => absurd (Nat.succ.inj heq) hcount⟩
  rcases hone with rfl | rfl
  · rw [(compareAllIn_single g q p qs).1, (compareAllIn_single g q p qs).2, hranked.swap]
  · rw [(compareAllIn_single g p q ps).1, (compareAllIn_single g p q ps).2, hranked.swap]

theorem WellFormed.ranked {g : Grammar} {input : Input} {a b : Match} (ha : a.WellFormed g input)
    (hb : b.WellFormed g input) (hclause : b.clause = a.clause) (hstart : b.start = a.start) :
    Ranked g a b := by
  induction ha generalizing b with
  | terminal hshape _ =>
      obtain ⟨_, hindex, hparts⟩ := hb.composed_of_shape hclause hshape
      refine ranked_of_forall₂ hclause hstart fun _ _ => ⟨hindex.symm, ?_⟩
      rw [hparts]
      exact .nil
  | @lookahead c pos kind slot hshape hkind _ =>
      have hcomposed := hb.composed_of_shape hclause hshape
      cases kind with
      | oneOrMore => exact absurd rfl hkind
      | followedBy | notFollowedBy =>
          obtain ⟨_, hindex, hparts⟩ := hcomposed
          refine ranked_of_forall₂ hclause hstart fun _ _ => ⟨hindex.symm, ?_⟩
          rw [hparts]
          exact .nil
  | @seq c pos slots parts hshape _ hclauses hends hall ih =>
      obtain ⟨hindex, htotal, hclauses', hends', hall'⟩ := hb.composed_of_shape hclause hshape
      refine ranked_of_forall₂ hclause hstart fun _ hlengths => ⟨hindex.symm, ?_⟩
      have hsame : parts.map (·.clause) = b.parts.map (·.clause) := hclauses.trans hclauses'.symm
      have hcount : parts.length = b.parts.length := by simpa using congrArg List.length hsame
      have hmap := map_length_eq_of_compareLengths hcount (hlengths hcount)
      have hends'' : EndToEnd pos b.parts := by
        rw [show pos = b.start from hstart.symm]
        exact hends'
      exact forall₂_of_endToEnd hsame hmap hends hends'' fun a ha b hb => ih a ha (hall' b hb)
  | @choice c i kind slots slot m hshape hkind hslot hp _ ih =>
      have hcomposed := hb.composed_of_shape hclause hshape
      have hchoice : ∃ slot p, slots[b.index]? = some slot ∧ p.Fits g input ⟨slot.clause, b.start⟩ ∧
          b.length = p.length ∧ b.parts = [p] := by
        cases kind with
        | seq => exact absurd rfl hkind
        | first | longest => exact hcomposed
      obtain ⟨slot', p, hslot', hfits, _, hparts⟩ := hchoice
      refine ranked_of_forall₂ hclause hstart fun hpreference _ => ?_
      rw [hshape] at hpreference
      have hindex : i = b.index := preference_eq hkind hpreference
      rw [← hindex, hslot, Option.some.injEq] at hslot'
      subst hslot'
      refine ⟨hindex, ?_⟩
      rw [hparts]
      exact .cons (ih hfits.wellFormed (hfits.clause_eq.trans hp.symm) (hfits.start_eq.trans hstart))
        .nil
  | @once c slot m hshape hp _ ih =>
      obtain ⟨p, hfits, hindex, hcases⟩ := hb.composed_of_shape hclause hshape
      have hranked := ih hfits.wellFormed (hfits.clause_eq.trans hp.symm) (hfits.start_eq.trans hstart)
      rcases hcases with ⟨_, hparts⟩ | ⟨rest, _, _, hparts⟩
      · refine ranked_of_forall₂ hclause hstart fun _ _ => ⟨hindex.symm, ?_⟩
        rw [hparts]
        exact .cons hranked .nil
      · exact ranked_of_heads hclause rfl hparts hranked (.inl rfl) (by simp)
  | @more c slot m rest hshape hp hrest hnext _ _ _ _ ih ih' =>
      obtain ⟨p, hfits, hindex, hcases⟩ := hb.composed_of_shape hclause hshape
      have hranked := ih hfits.wellFormed (hfits.clause_eq.trans hp.symm) (hfits.start_eq.trans hstart)
      rcases hcases with ⟨_, hparts⟩ | ⟨rest', hfits', _, hparts⟩
      · exact ranked_of_heads hclause rfl hparts hranked (.inr rfl) (by simp)
      · refine ranked_of_forall₂ hclause hstart fun _ hlengths => ⟨hindex.symm, ?_⟩
        rw [hparts] at hlengths ⊢
        have hhead : m.length = p.length :=
          Nat.compare_eq_eq.mp (Ordering.then_eq_eq.mp (hlengths rfl)).1
        have hstop : p.stop = m.stop := by
          rw [stop, stop, hhead, hfits.start_eq]
          exact congrArg (· + _) hstart
        have hranked' := ih' hfits'.wellFormed (hfits'.clause_eq.trans (hclause.trans hrest.symm))
          (hfits'.start_eq.trans (hstop.trans hnext.symm))
        exact .cons hranked (.cons hranked' .nil)

theorem Fits.ranked {g : Grammar} {input : Input} {k : Key} {a b : Match} (ha : a.Fits g input k)
    (hb : b.Fits g input k) : Ranked g a b :=
  ha.wellFormed.ranked hb.wellFormed (hb.clause_eq.trans ha.clause_eq.symm)
    (hb.start_eq.trans ha.start_eq.symm)

theorem eq_of_not_isBetter {g : Grammar} {input : Input} {k : Key} {a b : Match}
    (ha : a.Fits g input k) (hb : b.Fits g input k) (hab : a.isBetter g b = false)
    (hba : b.isBetter g a = false) : a = b := by
  have hranked := ha.ranked hb
  rw [isBetter] at hab hba
  rw [hranked.swap] at hba
  apply hranked.eq
  cases hcompare : compareIn g a b with
  | eq => rfl
  | lt => simp [hcompare] at hba
  | gt => simp [hcompare] at hab

end Match

end BottomUpPeg
