import BottomUpPeg.Proofs.DescentRuns

namespace BottomUpPeg

namespace Lexing

variable {g : Grammar} {input : Input} {c : Nat}

/-- A finite run of the cutting loop from a position on, with the cuts after the position and the
lexemes it records. -/
inductive Scans (g : Grammar) (input : Input) (c : Nat) : Nat → Lexing → Prop
  | done {pos : Nat} : input.size ≤ pos → Scans g input c pos ⟨[], []⟩
  | lexeme {pos : Nat} {m : Match} {rest : Lexing} : pos < input.size →
      g.Descends input ⟨c, pos⟩ (some m) → 0 < m.length → Scans g input c (pos + m.length) rest →
      Scans g input c pos ⟨(pos + m.length) :: rest.cuts, m :: rest.lexemes⟩
  | skip {pos : Nat} {found : Option Match} {rest : Lexing} : pos < input.size →
      g.Descends input ⟨c, pos⟩ found → (∀ m, found = some m → m.length = 0) →
      Scans g input c (pos + 1) rest → Scans g input c pos ⟨(pos + 1) :: rest.cuts, rest.lexemes⟩

theorem scans_scan (hg : g.Lawful) (hc : (g.clause c).acyclic = true) {fuel pos : Nat}
    (hfuel : input.size - pos ≤ fuel) : Scans g input c pos (scan g input c fuel pos) := by
  induction fuel generalizing pos with
  | zero => exact .done (by omega)
  | succ fuel ih =>
      have hrun : g.Descends input ⟨c, pos⟩ (g.topDown input c pos) :=
        Grammar.descends_topDown hg hc pos
      rw [scan]
      split
      · rename_i hpos
        split
        · rename_i m hm
          obtain ⟨hm, hlength⟩ := Option.filter_eq_some_iff.mp hm
          have hlength : 0 < m.length := by simpa using hlength
          rw [hm] at hrun
          exact .lexeme hpos hrun hlength (ih (by omega))
        · rename_i hnone
          refine .skip hpos hrun (fun m hm => ?_) (ih (by omega))
          simpa using Option.filter_eq_none_iff.mp hnone m hm
      · exact .done (by omega)

def Cuts (g : Grammar) (input : Input) (c : Nat) (lexemes : List Match) (a b : Nat) : Prop :=
  (∃ m ∈ lexemes, g.topDown input c a = some m ∧ 0 < m.length ∧ m.length = b - a) ∨
    b = a + 1 ∧ ∀ m, g.topDown input c a = some m → m.length = 0

def lexemeAt (g : Grammar) (input : Input) (c pos : Nat) : Option Match :=
  (g.topDown input c pos).filter (0 < ·.length)

theorem Cuts.mono {lexemes lexemes' : List Match} (h : ∀ m ∈ lexemes, m ∈ lexemes') {a b : Nat}
    (hcut : Cuts g input c lexemes a b) : Cuts g input c lexemes' a b := by
  rcases hcut with ⟨m, hm, hfound⟩ | hskip
  · exact .inl ⟨m, h m hm, hfound⟩
  · exact .inr hskip

namespace Scans

theorem isChain_lt {pos : Nat} {l : Lexing} (h : Scans g input c pos l) :
    (pos :: l.cuts).IsChain (· < ·) := by
  induction h with
  | done _ => exact .singleton _
  | lexeme _ _ hlength _ ih => exact List.isChain_cons_cons.mpr ⟨by omega, ih⟩
  | skip _ _ _ _ ih => exact List.isChain_cons_cons.mpr ⟨by omega, ih⟩

theorem pairwise_lt {pos : Nat} {l : Lexing} (h : Scans g input c pos l) :
    (pos :: l.cuts).Pairwise (· < ·) := h.isChain_lt.pairwise

theorem isChain_cuts (hg : g.Lawful) (hc : (g.clause c).acyclic = true) {pos : Nat} {l : Lexing}
    (h : Scans g input c pos l) : (pos :: l.cuts).IsChain (Cuts g input c l.lexemes) := by
  induction h with
  | done _ => exact .singleton _
  | lexeme _ hrun hlength _ ih =>
      have hm := (hrun.eq_topDown hg hc).symm
      refine List.isChain_cons_cons.mpr ⟨.inl ⟨_, List.mem_cons_self .., hm, hlength, by omega⟩, ?_⟩
      exact ih.imp fun _ _ => Cuts.mono fun _ => List.mem_cons_of_mem _
  | skip _ hrun hempty _ ih =>
      refine List.isChain_cons_cons.mpr ⟨.inr ⟨rfl, ?_⟩, ih⟩
      rwa [hrun.eq_topDown hg hc] at hempty

-- A lexeme never runs past the end, so the loop arrives at the end exactly.
theorem getLast?_cuts (hg : g.Lawful) (hc : (g.clause c).acyclic = true) {pos : Nat} {l : Lexing}
    (h : Scans g input c pos l) (hpos : pos ≤ input.size) :
    (pos :: l.cuts).getLast? = some input.size := by
  induction h with
  | done hle => rw [List.getLast?_singleton, Nat.le_antisymm hpos hle]
  | lexeme _ hrun hlength _ ih =>
      have hm := (hrun.eq_topDown hg hc).symm
      have hstart := congrArg Key.start (Grammar.topDown_key hm)
      have hstop := (Grammar.topDown_stop_of_pos hm hlength).2
      simp only [Match.key, Match.stop] at hstart hstop
      rw [List.getLast?_cons_cons]
      exact ih (by omega)
  | skip hlt _ _ _ ih =>
      rw [List.getLast?_cons_cons]
      exact ih hlt

theorem lexemes_eq (hg : g.Lawful) (hc : (g.clause c).acyclic = true) {pos : Nat} {l : Lexing}
    (h : Scans g input c pos l) :
    l.lexemes = (pos :: l.cuts).filterMap (lexemeAt g input c) := by
  induction h with
  | @done pos hle =>
      have hnone : lexemeAt g input c pos = none := by
        refine Option.filter_eq_none_iff.mpr fun m hm => ?_
        have hstop := Grammar.topDown_stop_of_pos hm
        simp only [decide_eq_true_eq]
        omega
      simp [hnone]
  | @lexeme pos m _ _ hrun hlength _ ih =>
      have hsome : lexemeAt g input c pos = some m := by
        rw [lexemeAt, ← hrun.eq_topDown hg hc]
        simpa using hlength
      rw [List.filterMap_cons, hsome, ← ih]
  | @skip pos _ _ _ hrun hempty _ ih =>
      have hnone : lexemeAt g input c pos = none := by
        refine Option.filter_eq_none_iff.mpr fun m hm => ?_
        simp [hempty m ((hrun.eq_topDown hg hc).trans hm)]
      rw [List.filterMap_cons, hnone, ← ih]

theorem le_start (hg : g.Lawful) (hc : (g.clause c).acyclic = true) {pos : Nat} {l : Lexing}
    (h : Scans g input c pos l) : ∀ m ∈ l.lexemes, pos ≤ m.start := by
  induction h with
  | done _ => simp
  | lexeme _ hrun _ _ ih =>
      have hstart := congrArg Key.start (Grammar.topDown_key (hrun.eq_topDown hg hc).symm)
      refine List.forall_mem_cons.mpr ⟨Nat.le_of_eq hstart.symm, fun x hx => ?_⟩
      exact (Nat.le_add_right ..).trans (ih x hx)
  | skip _ _ _ _ ih => exact fun x hx => (Nat.le_succ _).trans (ih x hx)

theorem lexemes_apart (hg : g.Lawful) (hc : (g.clause c).acyclic = true) {pos : Nat} {l : Lexing}
    (h : Scans g input c pos l) : l.lexemes.Pairwise fun m m' => m.stop ≤ m'.start := by
  induction h with
  | done _ => exact .nil
  | lexeme _ hrun _ hrest ih =>
      have hstart := congrArg Key.start (Grammar.topDown_key (hrun.eq_topDown hg hc).symm)
      simp only [Match.key] at hstart
      refine .cons (fun x hx => ?_) ih
      rw [Match.stop, hstart]
      exact hrest.le_start hg hc x hx
  | skip _ _ _ _ ih => exact ih

end Scans

end Lexing

namespace Grammar

theorem exists_scans {g : Grammar} (hg : g.Lawful) {rule : Rule} (hrule : g.lexical = some rule)
    (input : Input) :
    ∃ rest, Lexing.Scans g input rule.clause 0 rest ∧
      g.lex input = ⟨0 :: rest.cuts, rest.lexemes⟩ := by
  refine ⟨_, Lexing.scans_scan hg (hg.lexical rule hrule) (Nat.sub_le input.size 0), ?_⟩
  rw [lex, hrule]
  rfl

theorem cuts_are_exact {source : Source} {g : Grammar} (h : source.compile = .ok g) {rule : Rule}
    (hrule : g.lexical = some rule) (input : Input) :
    let l := g.lex input
    (∃ rest, Lexing.Scans g input rule.clause 0 rest ∧ l = ⟨0 :: rest.cuts, rest.lexemes⟩) ∧
      l.cuts.Pairwise (· < ·) ∧ l.cuts.head? = some 0 ∧ l.cuts.getLast? = some input.size ∧
      l.cuts.IsChain (Lexing.Cuts g input rule.clause l.lexemes) ∧
      l.lexemes = l.cuts.filterMap (Lexing.lexemeAt g input rule.clause) ∧
      l.lexemes.Pairwise fun m m' => m.stop ≤ m'.start := by
  have hg := Source.compile_lawful h
  have hc := hg.lexical rule hrule
  obtain ⟨rest, hscans, hlex⟩ := exists_scans hg hrule input
  rw [hlex]
  exact ⟨⟨rest, hscans, rfl⟩, hscans.pairwise_lt, rfl, hscans.getLast?_cuts hg hc (Nat.zero_le _),
    hscans.isChain_cuts hg hc, hscans.lexemes_eq hg hc, hscans.lexemes_apart hg hc⟩

theorem words_are_cut_exactly :
    ∃ g rule, Sample.wordList.compile = .ok g ∧ g.lexical = some rule ∧
      (g.lex (Input.ofString "ab, c")).cuts = [0, 2, 3, 4, 5] ∧
      (g.lex (Input.ofString "ab, c")).cuts.IsChain
        (Lexing.Cuts g (Input.ofString "ab, c") rule.clause
          (g.lex (Input.ofString "ab, c")).lexemes) := by
  have hfacts : (Sample.wordList.compile.toOption.any fun g =>
      g.lexical.isSome &&
        decide ((g.lex (Input.ofString "ab, c")).cuts = [0, 2, 3, 4, 5])) = true := by
    decide +kernel
  obtain ⟨g, hg, hfacts⟩ := Source.exists_of_compile_any hfacts
  simp only [Bool.and_eq_true, decide_eq_true_eq, Option.isSome_iff_exists] at hfacts
  obtain ⟨⟨rule, hrule⟩, hcuts⟩ := hfacts
  exact ⟨g, rule, hg, hrule, hcuts, (cuts_are_exact hg hrule _).2.2.2.2.1⟩

end Grammar

end BottomUpPeg
