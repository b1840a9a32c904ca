import BottomUpPeg.Proofs.CharRuns
import BottomUpPeg.Proofs.Sums
import BottomUpPeg.Proofs.Termination

namespace BottomUpPeg

structure Grammar.IsPrecedence (g : Grammar) : Prop where
  lawful : g.Lawful
  star : g.shape 0 = .terminal (.chars (CharSet.singleton '*'))
  opening : g.shape 1 = .terminal (.chars (CharSet.singleton '('))
  bracketed : g.shape 3 = .group .seq [⟨1, none⟩, ⟨12, none⟩, ⟨2, none⟩]
  number : g.Runs 5 4 (CharSet.range '0' '9')
  factor : g.shape 6 = .group .first [⟨3, none⟩, ⟨5, some "num"⟩]
  times : g.shape 7 = .group .seq [⟨8, none⟩, ⟨0, none⟩, ⟨6, none⟩]
  product : g.shape 8 = .group .first [⟨7, some "mul"⟩, ⟨6, none⟩]
  operand : g.shape 9 = .group .first [⟨8, none⟩, ⟨6, none⟩]
  plus : g.shape 10 = .terminal (.chars (CharSet.singleton '+'))
  addition : g.shape 11 = .group .seq [⟨9, none⟩, ⟨10, none⟩, ⟨8, none⟩]
  sum : g.shape 12 = .group .first [⟨11, none⟩, ⟨8, none⟩, ⟨6, none⟩]
  size : g.size = 13
  lexical : g.lexical = none
  always : ∀ c < 13, (g.clause c).always = false
  seedParents : ∀ p ∈ [(4, 5), (5, 6), (6, 8), (7, 8), (8, 7), (8, 9), (9, 11), (11, 12)],
    p.2 ∈ (g.clause p.1).seedParents
  label : ∀ c < 13, (g.clause c).label = if c = 11 then some "add" else none
  zero : g.zero 12 = false
  rule : (g.rule? "E").map (·.clause) = some 12
  free : ∀ c, ¬Graph.LeadsTo g.fills c c

theorem Sample.exists_precedence : ∃ g, Sample.precedence.compile = .ok g ∧ g.IsPrecedence := by
  have hfacts : (Sample.precedence.compile.toOption.any fun g =>
      decide (g.shape 0 = .terminal (.chars (CharSet.singleton '*'))) &&
      decide (g.shape 1 = .terminal (.chars (CharSet.singleton '('))) &&
      decide (g.shape 3 = .group .seq [⟨1, none⟩, ⟨12, none⟩, ⟨2, none⟩]) &&
      decide (g.shape 4 = .terminal (.chars (CharSet.range '0' '9'))) &&
      decide (g.shape 5 = .unary .oneOrMore ⟨4, none⟩) &&
      decide (g.shape 6 = .group .first [⟨3, none⟩, ⟨5, some "num"⟩]) &&
      decide (g.shape 7 = .group .seq [⟨8, none⟩, ⟨0, none⟩, ⟨6, none⟩]) &&
      decide (g.shape 8 = .group .first [⟨7, some "mul"⟩, ⟨6, none⟩]) &&
      decide (g.shape 9 = .group .first [⟨8, none⟩, ⟨6, none⟩]) &&
      decide (g.shape 10 = .terminal (.chars (CharSet.singleton '+'))) &&
      decide (g.shape 11 = .group .seq [⟨9, none⟩, ⟨10, none⟩, ⟨8, none⟩]) &&
      decide (g.shape 12 = .group .first [⟨11, none⟩, ⟨8, none⟩, ⟨6, none⟩]) &&
      decide (g.size = 13) && g.lexical.isNone &&
      ((List.range 13).all fun c => !(g.clause c).always &&
        decide ((g.clause c).label = if c = 11 then some "add" else none)) &&
      ([(4, 5), (5, 6), (6, 8), (7, 8), (8, 7), (8, 9), (9, 11), (11, 12)].all fun p =>
        decide (p.2 ∈ (g.clause p.1).seedParents)) &&
      !g.zero 12 && decide ((g.rule? "E").map (·.clause) = some 12) &&
      (List.range g.size).all fun c => !Graph.onCycle g.fills g.size c) = true := by decide +kernel
  obtain ⟨g, hg, hfacts⟩ := Source.exists_of_compile_any hfacts
  simp only [Bool.and_eq_true, decide_eq_true_eq, Option.isNone_iff_eq_none, List.all_eq_true,
    List.mem_range, Bool.not_eq_true', and_assoc] at hfacts
  obtain ⟨hstar, hopening, hbracketed, hdigit, hnumber, hfactor, htimes, hproduct, hoperand, hplus,
    haddition, hsum, hsize, hlexical, hclauses, hparents, hzero, hrule, hfree⟩ := hfacts
  have hlawful := Source.compile_lawful hg
  refine ⟨g, hg, ?_⟩
  exact
    { lawful := hlawful
      star := hstar, opening := hopening, bracketed := hbracketed, number := ⟨hnumber, hdigit⟩
      factor := hfactor, times := htimes, product := hproduct, operand := hoperand, plus := hplus
      addition := haddition, sum := hsum, size := hsize, lexical := hlexical
      always := fun c hc => (hclauses c hc).1
      seedParents := hparents
      label := fun c hc => (hclauses c hc).2
      zero := hzero, rule := hrule
      free := Graph.not_leadsTo_self_of_onCycle (Grammar.fills_bounded hlawful) hfree }

theorem CharSet.contains_digit (c : Char) :
    (CharSet.range '0' '9').contains c = true ↔ c.isDigit = true := by
  rw [contains_range_iff (by decide) (by decide), Char.isDigit, Bool.and_eq_true,
    decide_eq_true_eq, decide_eq_true_eq]
  exact Iff.rfl

namespace Input

structure Lone (input : Input) (pos : Nat) (d : Char) : Prop where
  here : input.meets (CharSet.range '0' '9') pos = true
  after : input.meets (CharSet.range '0' '9') (pos + 1) = false
  text : input.text ⟨pos, pos + 1⟩ = String.singleton d

theorem lone_append (front : List Char) {d : Char} {back : List Char} (hd : d.isDigit = true)
    (hback : ∀ c ∈ back.head?, c.isDigit = false) :
    Lone (front ++ d :: back).toArray front.length d := by
  have hafter := meets_append (CharSet.range '0' '9') (front ++ [d]) back
  have htext := text_append front [d] back
  rw [List.append_assoc, List.singleton_append] at hafter htext
  rw [List.length_append, List.length_singleton] at hafter
  refine ⟨?_, ?_, htext⟩
  · rw [meets_append, List.head?_cons, Option.any_some]
    exact (CharSet.contains_digit d).mpr hd
  · rw [hafter]
    cases hc : back.head? with
    | none => rfl
    | some c =>
        rw [Option.any_some, ← Bool.not_eq_true, CharSet.contains_digit, hback c hc]
        exact Bool.false_ne_true

def starred (ds : List Char) : List Char := ds.flatMap fun d => ['*', d]

theorem length_starred (ds : List Char) : (starred ds).length = 2 * ds.length := by
  simp [starred, Nat.mul_comm]

structure Chain (input : Input) (front : List Char) (d : Char) (ds back : List Char) : Prop where
  input_eq : input = (front ++ (d :: starred ds) ++ back).toArray
  digits : ∀ c ∈ d :: ds, c.isDigit = true
  ends : ∀ c ∈ back.head?, c.isDigit = false ∧ c ≠ '*'

namespace Chain

variable {input : Input} {front back : List Char} {d : Char} {ds : List Char}

theorem split (h : input.Chain front d ds back) {done rest : List Char} (hds : ds = done ++ rest) :
    input = (front ++ (d :: starred done) ++ (starred rest ++ back)).toArray := by
  rw [h.input_eq, hds]
  simp [starred]

theorem head?_rest (h : input.Chain front d ds back) (rest : List Char) :
    ∀ c ∈ (starred rest ++ back).head?, c.isDigit = false := by
  cases rest with
  | nil => exact fun c hc => (h.ends c hc).1
  | cons e rest =>
      intro c hc
      cases hc
      decide

theorem lone_first (h : input.Chain front d ds back) : input.Lone front.length d := by
  have hlone := lone_append front (h.digits d (List.mem_cons_self ..)) (h.head?_rest ds)
  rwa [← List.cons_append, ← List.append_assoc, ← h.input_eq] at hlone

theorem length_front (front : List Char) (d : Char) (done : List Char) :
    (front ++ (d :: starred done)).length = front.length + (1 + 2 * done.length) := by
  rw [List.length_append, List.length_cons, length_starred]
  omega

theorem text_eq (h : input.Chain front d ds back) {done rest : List Char}
    (hds : ds = done ++ rest) :
    input.text ⟨front.length, front.length + (1 + 2 * done.length)⟩ =
      String.ofList (d :: starred done) := by
  have htext := text_append front (d :: starred done) (starred rest ++ back)
  rwa [← h.split hds, List.length_cons, length_starred, Nat.add_comm _ 1] at htext

theorem meets_rest (h : input.Chain front d ds back) {done rest : List Char}
    (hds : ds = done ++ rest) (set : CharSet) :
    input.meets set (front.length + (1 + 2 * done.length)) =
      (starred rest ++ back).head?.any set.contains := by
  rw [← length_front front d done, h.split hds]
  exact meets_append set _ _

theorem lone_next (h : input.Chain front d ds back) {done rest : List Char} {e : Char}
    (hds : ds = done ++ e :: rest) :
    input.Lone (front.length + (1 + 2 * done.length) + 1) e := by
  have he : e.isDigit = true := h.digits e (by simp [hds])
  have hlone := lone_append (front ++ (d :: starred done) ++ ['*']) he (h.head?_rest rest)
  have hinput : input =
      (front ++ (d :: starred done) ++ ['*'] ++ e :: (starred rest ++ back)).toArray := by
    rw [h.split hds]
    simp [starred]
  rwa [← hinput, List.length_append, length_front, List.length_singleton] at hlone

theorem exists_next (h : input.Chain front d ds back) {done rest : List Char}
    (hds : ds = done ++ rest)
    (hstar : input.meets (CharSet.singleton '*') (front.length + (1 + 2 * done.length)) = true) :
    ∃ e rest', rest = e :: rest' := by
  rw [h.meets_rest hds] at hstar
  cases rest with
  | cons e rest => exact ⟨e, rest, rfl⟩
  | nil =>
      change back.head?.any _ = true at hstar
      cases hc : back.head? with
      | none =>
          rw [hc] at hstar
          cases hstar
      | some c =>
          rw [hc, Option.any_some, CharSet.contains_singleton (by decide)] at hstar
          exact absurd hstar (h.ends c hc).2

theorem eq_nil_of_plus (h : input.Chain front d ds back) {done rest : List Char}
    (hds : ds = done ++ rest)
    (hplus : input.meets (CharSet.singleton '+') (front.length + (1 + 2 * done.length)) = true) :
    rest = [] := by
  rw [h.meets_rest hds] at hplus
  cases rest with
  | nil => rfl
  | cons e rest => exact absurd ((CharSet.contains_singleton (by decide)).mp hplus) (by decide)

end Chain

structure Added (input : Input) (d : Char) (ds : List Char) (e : Char) (es : List Char) : Prop where
  left : input.Chain [] d ds ('+' :: e :: starred es)
  right : input.Chain (d :: starred ds ++ ['+']) e es []

namespace Added

variable {input : Input} {d e : Char} {ds es : List Char}

theorem length_front (d : Char) (ds : List Char) :
    (d :: starred ds ++ ['+']).length = 1 + 2 * ds.length + 1 := by
  rw [List.length_append, List.length_cons, length_starred, List.length_singleton]
  omega

theorem size_eq (h : input.Added d ds e es) :
    input.size = 1 + 2 * ds.length + 1 + (1 + 2 * es.length) := by
  rw [h.right.input_eq, List.size_toArray, List.append_nil, Chain.length_front, length_front]

theorem plusAt (h : input.Added d ds e es) :
    input.meets (CharSet.singleton '+') (1 + 2 * ds.length) = true := by
  have hmeets := h.left.meets_rest (List.append_nil ds).symm (CharSet.singleton '+')
  rw [List.length_nil, Nat.zero_add] at hmeets
  rw [hmeets]
  exact (CharSet.contains_singleton (by decide)).mpr rfl

end Added

end Input

namespace Node

def digit (pos : Nat) (d : Char) : Node := ⟨"num", ⟨pos, pos + 1⟩, String.singleton d, []⟩

def times (left : Node) (d : Char) : Node :=
  ⟨"mul", ⟨left.span.start, left.span.stop + 2⟩, left.text ++ "*" ++ String.singleton d,
    [left, digit (left.span.stop + 1) d]⟩

def product (pos : Nat) (d : Char) (ds : List Char) : Node := ds.foldl times (digit pos d)

theorem product_append (pos : Nat) (d : Char) (ds : List Char) (e : Char) :
    product pos d (ds ++ [e]) = times (product pos d ds) e := by
  rw [product, List.foldl_append]
  rfl

theorem span_product (pos : Nat) (d : Char) (ds : List Char) :
    (product pos d ds).span = ⟨pos, pos + (1 + 2 * ds.length)⟩ := by
  induction ds using List.reverseRecOn with
  | nil => rfl
  | append_singleton ds e ih =>
      rw [product_append, times, ih, List.length_append, List.length_singleton]
      simp only [Span.mk.injEq, true_and]
      omega

theorem text_product (pos : Nat) (d : Char) (ds : List Char) :
    (product pos d ds).text = String.ofList (d :: Input.starred ds) := by
  induction ds using List.reverseRecOn with
  | nil => rfl
  | append_singleton ds e ih =>
      rw [product_append, times, ih]
      apply String.toList_injective
      simp [Input.starred]

theorem product_append_eq (pos : Nat) (d : Char) (ds : List Char) (e : Char) :
    product pos d (ds ++ [e]) =
      ⟨"mul", ⟨pos, pos + (1 + 2 * (ds ++ [e]).length)⟩,
        String.ofList (d :: Input.starred (ds ++ [e])),
        [product pos d ds, digit (pos + (1 + 2 * ds.length) + 1) e]⟩ := by
  rw [← span_product pos d, ← text_product pos, product_append, times, span_product]

end Node

namespace Grammar.IsPrecedence

variable {g : Grammar} {input : Input} {pos : Nat} {m : Match} {d : Char} (h : g.IsPrecedence)

include h

theorem fits_factor (hlone : input.Lone pos d) (hm : m.Fits g input ⟨6, pos⟩) :
    m.length = 1 ∧ m.nodes g input = [Node.digit pos d] := by
  rcases hm.of_either h.factor with ⟨p, hp, rfl⟩ | ⟨p, hp, rfl⟩
  · obtain ⟨_, ⟨bracket, _, _, hbracket, _⟩, _⟩ := hp.of_seq h.bracketed
    have hdigit := hlone.here
    rw [Input.not_meets_of_char (by decide) (by decide) (hbracket.of_chars h.opening).2] at hdigit
    cases hdigit
  · have hpos := (h.number.meets_of_fits hp).1
    have hle := h.number.length_le hp hlone.after
    have hlength : p.length = 1 := by omega
    refine ⟨hlength, ?_⟩
    rw [Match.nodes_choose h.factor rfl, h.number.nodes_eq (h.label 4 (by decide)) hp, Match.wrap,
      Match.stop, hp.start_eq, hlength, hlone.text]
    rfl

theorem fits_times (hm : m.Fits g input ⟨7, pos⟩) :
    ∃ a t b, a.Fits g input ⟨8, pos⟩ ∧ t.Fits g input ⟨0, pos + a.length⟩ ∧ t.length = 1 ∧
      b.Fits g input ⟨6, pos + a.length + 1⟩ ∧
      m = ⟨7, pos, a.length + (1 + b.length), 0, [a, t, b]⟩ := by
  obtain ⟨_, ⟨a, _, rfl, ha, t, _, rfl, ht, b, _, rfl, hb, rfl⟩, rfl⟩ := hm.of_seq h.times
  have hone : t.length = 1 := congrArg Match.length (ht.of_chars h.star).1
  rw [hone] at hb
  exact ⟨a, t, b, ha, ht, hone, hb, by simp [hone]⟩

theorem sum_pos (hm : m.Fits g input ⟨12, pos⟩) : 0 < m.length := by
  have hclause : m.clause = 12 := hm.clause_eq
  apply Nat.pos_of_ne_zero
  intro hnone
  have hzero := hm.wellFormed.zero_of_length h.lawful (by rw [hclause, h.size]; decide) hnone
  rw [hclause, h.zero] at hzero
  cases hzero

theorem nodes_times {a t b : Match} {length : Nat} (ha : a.Fits g input ⟨8, pos⟩) {pos' pos'' : Nat}
    (ht : t.Fits g input ⟨0, pos'⟩) (hb : b.Fits g input ⟨6, pos''⟩) :
    Match.nodes g input ⟨7, pos, length, 0, [a, t, b]⟩ = a.nodes g input ++ b.nodes g input := by
  simp only [Match.nodes, h.times, Match.nodesInSlots, ha.wrap_eq (h.label 8 (by decide)),
    ht.nodes_of_terminal h.star, ht.wrap_eq (h.label 0 (by decide)),
    hb.wrap_eq (h.label 6 (by decide)), List.nil_append, List.append_nil]

variable {front back ds : List Char} (hchain : input.Chain front d ds back)

include hchain

theorem factor_after {done rest : List Char} (hds : ds = done ++ rest) {t b : Match}
    (ht : t.Fits g input ⟨0, front.length + (1 + 2 * done.length)⟩)
    (hb : b.Fits g input ⟨6, front.length + (1 + 2 * done.length) + 1⟩) :
    ∃ e rest', rest = e :: rest' ∧ b.length = 1 ∧
      b.nodes g input = [Node.digit (front.length + (1 + 2 * done.length) + 1) e] := by
  obtain ⟨e, rest, rfl⟩ := hchain.exists_next hds (ht.of_chars h.star).2
  obtain ⟨hlength, hnodes⟩ := h.fits_factor (hchain.lone_next hds) hb
  exact ⟨e, rest, rfl, hlength, hnodes⟩

theorem fits_product (hm : m.Fits g input ⟨8, front.length⟩) :
    ∃ done rest, ds = done ++ rest ∧ m.length = 1 + 2 * done.length ∧
      m.nodes g input = [Node.product front.length d done] := by
  induction hlength : m.length using Nat.strong_induction_on generalizing m with
  | _ length ih =>
      rcases hm.of_either h.product with ⟨q, hq, rfl⟩ | ⟨f, hf, rfl⟩
      · obtain ⟨a, t, b, ha, ht, hone, hb, rfl⟩ := h.fits_times hq
        simp only [Match.choose] at hlength
        obtain ⟨done, rest, hds, halength, hanodes⟩ := ih a.length (by omega) ha rfl
        rw [halength] at ht hb
        obtain ⟨e, rest, rfl, hblength, hbnodes⟩ := h.factor_after hchain hds ht hb
        have hds' : ds = (done ++ [e]) ++ rest := by simpa using hds
        have htotal : a.length + (1 + b.length) = 1 + 2 * (done ++ [e]).length := by
          rw [List.length_append, List.length_singleton]
          omega
        refine ⟨done ++ [e], rest, hds', hlength.symm.trans htotal, ?_⟩
        rw [Match.nodes_choose h.product rfl, h.nodes_times ha ht hb, hanodes, hbnodes, Match.wrap,
          Match.stop, htotal, Node.product_append_eq, ← hchain.text_eq hds']
        rfl
      · obtain ⟨hone, hnodes⟩ := h.fits_factor hchain.lone_first hf
        refine ⟨[], ds, rfl, hlength.symm.trans hone, ?_⟩
        rw [Match.nodes_choose h.product rfl, hf.wrap_eq (h.label 6 (by decide)), hnodes]
        rfl

theorem fits_operand (hm : m.Fits g input ⟨9, front.length⟩) :
    ∃ done rest, ds = done ++ rest ∧ m.length = 1 + 2 * done.length ∧
      m.nodes g input = [Node.product front.length d done] := by
  rcases hm.of_either h.operand with ⟨p, hp, rfl⟩ | ⟨f, hf, rfl⟩
  · obtain ⟨done, rest, hds, hlength, hnodes⟩ := h.fits_product hchain hp
    refine ⟨done, rest, hds, hlength, ?_⟩
    rw [Match.nodes_choose h.operand rfl, hp.wrap_eq (h.label 8 (by decide)), hnodes]
  · obtain ⟨hone, hnodes⟩ := h.fits_factor hchain.lone_first hf
    refine ⟨[], ds, rfl, hone, ?_⟩
    rw [Match.nodes_choose h.operand rfl, hf.wrap_eq (h.label 6 (by decide)), hnodes]
    rfl

theorem length_factor {a t b : Match} (ha : a.Fits g input ⟨8, front.length⟩)
    (ht : t.Fits g input ⟨0, front.length + a.length⟩)
    (hb : b.Fits g input ⟨6, front.length + a.length + 1⟩) : b.length = 1 := by
  obtain ⟨done, rest, hds, halength, _⟩ := h.fits_product hchain ha
  rw [halength] at ht hb
  obtain ⟨_, _, _, hone, _⟩ := h.factor_after hchain hds ht hb
  exact hone

theorem greedy_times : g.Greedy input ⟨7, front.length⟩ := by
  intro m m' hm hm' hlt
  obtain ⟨a, t, b, ha, ht, _, hb, rfl⟩ := h.fits_times hm
  obtain ⟨a', t', b', ha', ht', _, hb', rfl⟩ := h.fits_times hm'
  have hone := h.length_factor hchain ha ht hb
  have hone' := h.length_factor hchain ha' ht' hb'
  have hless : a.length < a'.length := by
    simp only at hlt
    omega
  refine Match.isBetter_of_lengths (by simp only [h.times]; rfl) rfl ?_
  simp [Match.compareLengths, Nat.compare_eq_gt.mpr hless]

theorem greedy_product : g.Greedy input ⟨8, front.length⟩ := by
  refine greedy_first h.product (List.pairwise_pair.mpr fun q f hq hf => ?_)
  obtain ⟨a, t, b, _, _, _, _, rfl⟩ := h.fits_times hq
  rw [(h.fits_factor hchain.lone_first hf).1]
  simp only
  omega

theorem greedy_operand : g.Greedy input ⟨9, front.length⟩ := by
  refine greedy_first h.operand (List.pairwise_pair.mpr fun p f hp hf => ?_)
  obtain ⟨done, _, _, hlength, _⟩ := h.fits_product hchain hp
  rw [(h.fits_factor hchain.lone_first hf).1, hlength]
  omega

end Grammar.IsPrecedence

namespace Grammar.IsPrecedence

variable {g : Grammar} {input : Input} {n : Nat} (h : g.IsPrecedence)
  (hconverged : (Parse.run g input n).state.converged = true)

include h hconverged

theorem exists_factor {pos : Nat} {d : Char} (hlone : input.Lone pos d) :
    ∃ f, (Parse.run g input n).table.view ⟨6, pos⟩ = some f := by
  have hlookup := fun view => lookup_chars (h.size ▸ by decide) h.number.char view hlone.here
  have hsize := (Input.takes_chars_iff.mpr ⟨rfl, hlone.here⟩).le_size
  have hparent := h.seedParents (4, 5) (by simp)
  have hseed : isSeed (g.clause 4) = true :=
    Parse.isSeed_of_seedParents (by rw [h.number.char]; rfl) (by rw [h.number.char]; simp) hparent
  have hcut : pos ∈ (g.lex input).cuts := by
    rw [lex, h.lexical]
    exact List.mem_range.mpr (by omega)
  have hactive : Parse.EverActive g input n ⟨5, pos⟩ :=
    Parse.everActive_of_seed hseed (h.size ▸ by decide) hcut
      (by rw [hlookup]; exact Option.some_ne_none _) hparent
  have hle := Parse.lengthOf_evaluate_le h.lawful hconverged hactive (h.number.greedy input pos)
  rw [evaluate, h.number.run, Shape.step, Look.lengthOf_repeated (hlookup _) Nat.one_pos] at hle
  obtain ⟨p, hp, _⟩ :=
    Parse.exists_view_of_lengthOf h.lawful Nat.one_pos ((Nat.le_add_right 1 _).trans hle)
  exact Parse.exists_view_of_alternative h.lawful hconverged h.factor
    (s := ⟨5, some "num"⟩) (by simp) (h.seedParents (5, 6) (by simp)) hp

theorem exists_product {front back ds : List Char} {d : Char}
    (hchain : input.Chain front d ds back) :
    ∃ m, (Parse.run g input n).table.view ⟨8, front.length⟩ = some m ∧
      m.length = 1 + 2 * ds.length := by
  obtain ⟨f, hf⟩ := h.exists_factor hconverged hchain.lone_first
  obtain ⟨m, hm⟩ := Parse.exists_view_of_alternative h.lawful hconverged h.product
    (s := ⟨6, none⟩) (by simp) (h.seedParents (6, 8) (by simp)) hf
  have hfits := Parse.view_sound h.lawful input n _ m hm
  obtain ⟨done, rest, hds, hlength, _⟩ := h.fits_product hchain hfits
  cases rest with
  | nil =>
      rw [List.append_nil] at hds
      exact ⟨m, hm, hds ▸ hlength⟩
  | cons e rest =>
      -- The product would be read again with the factor after it, and come out longer.
      obtain ⟨b, hb⟩ := h.exists_factor hconverged (hchain.lone_next hds)
      have hstar : input.meets (CharSet.singleton '*') (front.length + m.length) = true := by
        rw [hlength, hchain.meets_rest hds]
        exact (CharSet.contains_singleton (by decide)).mpr rfl
      rw [← hlength] at hb
      obtain ⟨q, hq, _, hqle⟩ := Parse.exists_kept_seq h.lawful hconverged h.times
        (h.seedParents (8, 7) (by simp)) (h.greedy_times hchain) hm
        ⟨_, _, rfl, lookup_chars (h.size ▸ by decide) h.star _ hstar,
          b, _, rfl, Parse.lookup_of_view h.lawful hb, rfl⟩
      obtain ⟨m', hm', _, hle⟩ := Parse.exists_kept_first h.lawful hconverged h.product
        (h.seedParents (7, 8) (by simp)) (h.greedy_product hchain) hq
      obtain rfl : m = m' := Option.some.inj (hm.symm.trans hm')
      simp only [Match.totalLength_cons, Match.leaf] at hqle
      omega

end Grammar.IsPrecedence

namespace Grammar.IsPrecedence

variable {g : Grammar} {input : Input} {m : Match} {d e : Char} {ds es : List Char}
  (h : g.IsPrecedence) (hadded : input.Added d ds e es)

include h hadded

theorem fits_addition (hm : m.Fits g input ⟨11, 0⟩) :
    ∃ a t b, a.length = 1 + 2 * ds.length ∧ t.length = 1 ∧
      b.Fits g input ⟨8, (d :: Input.starred ds ++ ['+']).length⟩ ∧
      m = ⟨11, 0, 1 + 2 * ds.length + (1 + b.length), 0, [a, t, b]⟩ ∧
      m.nodes g input = Node.product 0 d ds :: b.nodes g input := by
  obtain ⟨_, ⟨a, _, rfl, ha, t, _, rfl, ht, b, _, rfl, hb, rfl⟩, rfl⟩ := hm.of_seq h.addition
  obtain ⟨done, rest, hds, halength, hanodes⟩ := h.fits_operand hadded.left ha
  have hone : t.length = 1 := congrArg Match.length (ht.of_chars h.plus).1
  have hplus := (ht.of_chars h.plus).2
  rw [halength] at hplus hb
  obtain rfl := hadded.left.eq_nil_of_plus hds hplus
  rw [List.append_nil] at hds
  subst hds
  rw [Nat.zero_add, hone, ← Input.Added.length_front d] at hb
  refine ⟨a, t, b, halength, hone, hb, by simp [halength, hone], ?_⟩
  simp only [Match.nodes, h.addition, Match.nodesInSlots, ha.wrap_eq (h.label 9 (by decide)),
    hanodes, ht.nodes_of_terminal h.plus, ht.wrap_eq (h.label 10 (by decide)),
    hb.wrap_eq (h.label 8 (by decide)), List.nil_append, List.append_nil]
  rfl

theorem length_product_le (hm : m.Fits g input ⟨8, 0⟩) : m.length ≤ 1 + 2 * ds.length := by
  obtain ⟨done, rest, hds, hlength, _⟩ := h.fits_product hadded.left hm
  rw [hlength, hds, List.length_append]
  omega

theorem greedy_addition : g.Greedy input ⟨11, 0⟩ := by
  intro m m' hm hm' hlt
  obtain ⟨a, t, b, ha, ht, _, rfl, _⟩ := h.fits_addition hadded hm
  obtain ⟨a', t', b', ha', ht', _, rfl, _⟩ := h.fits_addition hadded hm'
  have hless : b.length < b'.length := by
    simp only at hlt
    omega
  refine Match.isBetter_of_lengths (by simp only [h.addition]; rfl) rfl ?_
  simp [Match.compareLengths, ha, ha', ht, ht', Nat.compare_eq_gt.mpr hless]

theorem greedy_sum : g.Greedy input ⟨12, 0⟩ := by
  have hfactor : ∀ f : Match, f.Fits g input ⟨6, 0⟩ → f.length = 1 := fun f hf =>
    (h.fits_factor hadded.left.lone_first hf).1
  refine greedy_first h.sum (.cons ?_ (List.pairwise_pair.mpr fun p f hp hf => ?_))
  · intro s hs q p hq hp
    obtain ⟨a, t, b, _, _, _, rfl, _⟩ := h.fits_addition hadded hq
    rcases List.mem_pair.mp hs with rfl | rfl
    · have hle := h.length_product_le hadded hp
      simp only
      omega
    · rw [hfactor p hp]
      simp only
      omega
  · obtain ⟨done, _, _, hlength, _⟩ := h.fits_product hadded.left hp
    rw [hfactor f hf, hlength]
    omega

theorem nodes_addition (hm : m.Fits g input ⟨11, 0⟩) (hlength : m.length = input.size) :
    m.nodes g input = [Node.product 0 d ds, Node.product (1 + 2 * ds.length + 1) e es] := by
  obtain ⟨a, t, b, _, _, hb, hm, hnodes⟩ := h.fits_addition hadded hm
  obtain ⟨done, rest, hes, hblength, hbnodes⟩ := h.fits_product hadded.right hb
  have hsize := hadded.size_eq
  have htotal : m.length = 1 + 2 * ds.length + (1 + b.length) := congrArg Match.length hm
  have hlast : rest = [] := by
    have hcount := congrArg List.length hes
    rw [List.length_append] at hcount
    rw [← List.length_eq_zero_iff]
    omega
  rw [hlast, List.append_nil] at hes
  rw [hnodes, hbnodes, ← hes, Input.Added.length_front]

theorem nodes_sum (hm : m.Fits g input ⟨12, 0⟩) (hlength : m.length = input.size) :
    m.nodes g input =
      [⟨"add", ⟨0, input.size⟩, input.text ⟨0, input.size⟩,
        [Node.product 0 d ds, Node.product (1 + 2 * ds.length + 1) e es]⟩] := by
  have hsize := hadded.size_eq
  obtain ⟨i, slot, p, hslot, hp, rfl⟩ := hm.of_first h.sum
  simp only [Match.choose] at hlength
  rcases i with _ | _ | _ | i <;> cases hslot
  · rw [Match.nodes_choose h.sum rfl, h.nodes_addition hadded hp hlength, Match.wrap, hp.clause_eq,
      h.label 11 (by decide), Match.stop, hp.start_eq, hlength, Nat.zero_add]
    rfl
  · -- Neither a product nor a factor reaches past the plus sign.
    have hle := h.length_product_le hadded hp
    omega
  · have hone := (h.fits_factor hadded.left.lone_first hp).1
    omega

theorem exists_sum {n : Nat} (hconverged : (Parse.run g input n).state.converged = true) :
    ∃ m, (Parse.run g input n).table.view ⟨12, 0⟩ = some m ∧ m.Fits g input ⟨12, 0⟩ ∧
      m.length = input.size := by
  obtain ⟨l, hl, hllength⟩ := h.exists_product hconverged hadded.left
  obtain ⟨r, hr, hrlength⟩ := h.exists_product hconverged hadded.right
  obtain ⟨a, ha, hafits, hale⟩ := Parse.exists_kept_first h.lawful hconverged h.operand
    (h.seedParents (8, 9) (by simp)) (h.greedy_operand hadded.left) hl
  obtain ⟨done, rest, hds, halength, _⟩ := h.fits_operand hadded.left hafits
  have hwhole : a.length = 1 + 2 * ds.length := by
    have hcount := congrArg List.length hds
    rw [List.length_append] at hcount
    omega
  have hplus := hadded.plusAt
  rw [← hwhole, ← Nat.zero_add a.length] at hplus
  rw [Input.Added.length_front, ← hwhole, ← Nat.zero_add a.length] at hr
  obtain ⟨q, hq, _, hqle⟩ := Parse.exists_kept_seq h.lawful hconverged h.addition
    (h.seedParents (9, 11) (by simp)) (h.greedy_addition hadded) ha
    ⟨_, _, rfl, lookup_chars (h.size ▸ by decide) h.plus _ hplus,
      r, _, rfl, Parse.lookup_of_view h.lawful hr, rfl⟩
  obtain ⟨m, hm, hfits, hle⟩ := Parse.exists_kept_first h.lawful hconverged h.sum
    (h.seedParents (11, 12) (by simp)) (h.greedy_sum hadded) hq
  have hsize := hadded.size_eq
  have hbound := hfits.le_size
  simp only [Match.totalLength_cons, Match.totalLength_nil, Match.leaf] at hqle
  exact ⟨m, hm, hfits, by omega⟩

end Grammar.IsPrecedence

namespace Input

theorem toList_intercalate_star (d : Char) (ds : List Char) :
    ("*".intercalate ((d :: ds).map String.singleton)).toList = d :: starred ds := by
  induction ds generalizing d with
  | nil => simp [starred]
  | cons e ds ih =>
      rw [List.map_cons, List.map_cons, String.intercalate_cons_cons, String.toList_append,
        String.toList_append, ← List.map_cons, ih e]
      simp [starred]

theorem added_ofString {d e : Char} {ds es : List Char} (hds : ∀ c ∈ d :: ds, c.isDigit = true)
    (hes : ∀ c ∈ e :: es, c.isDigit = true) :
    Added (ofString ("*".intercalate ((d :: ds).map String.singleton) ++ "+" ++
      "*".intercalate ((e :: es).map String.singleton))) d ds e es := by
  have hinput : ofString ("*".intercalate ((d :: ds).map String.singleton) ++ "+" ++
      "*".intercalate ((e :: es).map String.singleton)) =
      (d :: starred ds ++ '+' :: e :: starred es).toArray := by
    rw [ofString, String.toList_append, String.toList_append, toList_intercalate_star,
      toList_intercalate_star]
    simp
  refine ⟨⟨?_, hds, ?_⟩, ?_, hes, by simp⟩
  · rw [hinput, List.nil_append]
  · intro c hc
    cases hc
    decide
  · rw [hinput]
    simp

end Input

namespace Parse

theorem products_are_added (d e : Char) (ds es : List Char)
    (hds : ∀ c ∈ d :: ds, c.isDigit = true) (hes : ∀ c ∈ e :: es, c.isDigit = true) :
    ∃ g, Sample.precedence.compile = .ok g ∧
      let left := "*".intercalate ((d :: ds).map String.singleton)
      let right := "*".intercalate ((e :: es).map String.singleton)
      let text := left ++ "+" ++ right
      let p := ofString g text none
      p.converged = true ∧
        ∃ m, p.nonOverlapping "E" = .ok [m] ∧ m.start = 0 ∧ m.length = p.input.size ∧
          ∀ label, p.tree m label =
            ⟨label, ⟨0, p.input.size⟩, text,
              [⟨"add", ⟨0, p.input.size⟩, text,
                [Node.product 0 d ds, Node.product (left.length + 1) e es]⟩]⟩ := by
  obtain ⟨g, hok, hg⟩ := Sample.exists_precedence
  refine ⟨g, hok, ?_⟩
  intro left right text p
  have hadded : (Input.ofString text).Added d ds e es := Input.added_ofString hds hes
  have hleft : left.length = 1 + 2 * ds.length := by
    rw [← String.length_toList, Input.toList_intercalate_star, List.length_cons,
      Input.length_starred, Nat.add_comm]
  obtain ⟨n, hconverged⟩ := exists_converged_of_free hg.lawful hg.free (Input.ofString text)
  have hrun : p = run g (Input.ofString text) n := ofString_eq_run_of_converged hconverged
  obtain ⟨m, hm, hfits, hlength⟩ := hg.exists_sum hadded hconverged
  have hbest : (run g (Input.ofString text) n).best? 12 0 = some m := lookup_of_view hg.lawful hm
  have hnodes := hg.nodes_sum hadded hfits hlength
  rw [Input.text_ofString, ← hleft] at hnodes
  rw [hrun]
  exact ⟨hconverged, m, nonOverlapping_of_whole hg.lawful hg.rule (fun _ _ => hg.sum_pos) hbest
    hlength, hfits.start_eq, hlength, tree_of_whole hfits.start_eq hlength hnodes⟩

theorem products_are_added_left_to_right :
    (∀ c ∈ ['1', '2', '3'], c.isDigit = true) ∧ (∀ c ∈ ['4'], c.isDigit = true) ∧
      ∃ g m, Sample.precedence.compile = .ok g ∧
        (ofString g "1*2*3+4" none).nonOverlapping "E" = .ok [m] ∧
        ((ofString g "1*2*3+4" none).tree m "root").sexpr =
          "(root (add (mul (mul (num 1) (num 2)) (num 3)) (num 4)))" := by
  have hds : ∀ c ∈ ['1', '2', '3'], c.isDigit = true := List.all_eq_true.mp (by decide)
  have hes : ∀ c ∈ ['4'], c.isDigit = true := List.all_eq_true.mp (by decide)
  obtain ⟨g, hok, _, m, hlist, _, _, htree⟩ := products_are_added '1' '4' ['2', '3'] [] hds hes
  exact ⟨hds, hes, g, m, hok, hlist, congrArg Node.sexpr (htree "root")⟩

end Parse

end BottomUpPeg
