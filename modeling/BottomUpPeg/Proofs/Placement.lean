import BottomUpPeg.Proofs.Nesting
import BottomUpPeg.Proofs.Selection
import BottomUpPeg.Proofs.Strata
import BottomUpPeg.Tree.Extract

namespace BottomUpPeg

inductive Node.Nested (input : Input) : Node → Prop
  | node {n : Node} : input.text? n.span = some n.text →
      (∀ x ∈ n.children, n.span.start ≤ x.span.start ∧ x.span.stop ≤ n.span.stop) →
      (n.children.Pairwise fun x y => x.span.stop ≤ y.span.start) →
      (∀ x ∈ n.children, x.Nested input) → n.Nested input

structure Row (input : Input) (start stop : Nat) (nodes : List Node) : Prop where
  le : start ≤ stop
  nested : ∀ n ∈ nodes, n.Nested input
  within : ∀ n ∈ nodes, start ≤ n.span.start ∧ n.span.stop ≤ stop
  ordered : nodes.Pairwise fun n m => n.span.stop ≤ m.span.start

namespace Row

variable {input : Input} {start mid stop : Nat}

theorem nil (h : start ≤ stop) : Row input start stop [] := ⟨h, by simp, by simp, .nil⟩

theorem append {ns ms : List Node} (hns : Row input start mid ns) (hms : Row input mid stop ms) :
    Row input start stop (ns ++ ms) := by
  refine ⟨Nat.le_trans hns.le hms.le, ?_, ?_, ?_⟩
  · exact List.forall_mem_append.mpr ⟨hns.nested, hms.nested⟩
  · refine List.forall_mem_append.mpr ⟨fun n hn => ?_, fun m hm => ?_⟩
    · exact ⟨(hns.within n hn).1, Nat.le_trans (hns.within n hn).2 hms.le⟩
    · exact ⟨Nat.le_trans hns.le (hms.within m hm).1, (hms.within m hm).2⟩
  · refine List.pairwise_append.mpr ⟨hns.ordered, hms.ordered, fun n hn m hm => ?_⟩
    exact Nat.le_trans (hns.within n hn).2 (hms.within m hm).1

theorem around {nodes : List Node} (h : Row input start stop nodes) (hstop : stop ≤ input.size)
    (label : String) :
    (⟨label, ⟨start, stop⟩, input.text ⟨start, stop⟩, nodes⟩ : Node).Nested input :=
  .node (if_pos ⟨h.le, hstop⟩) h.within h.ordered h.nested

theorem singleton {n : Node} (h : n.Nested input) (hle : n.span.start ≤ n.span.stop) :
    Row input n.span.start n.span.stop [n] :=
  ⟨hle, by simpa, by simp, List.pairwise_singleton ..⟩

end Row

namespace Match

def slot? (g : Grammar) (m : Match) (i : Nat) : Option Slot :=
  match g.shape m.clause with
  | .group .seq slots => slots[i]?
  | .group _ slots => if i = 0 then slots[m.index]? else none
  | .unary .oneOrMore slot => if i = 0 then some slot else none
  | _ => none

def partLabel? (g : Grammar) (m : Match) (i : Nat) (x : Match) : Option String :=
  (m.slot? g i).bind fun slot => slot.label.or (g.clause x.clause).label

variable {g : Grammar} {input : Input} {m x : Match} {i : Nat}

def contribution (g : Grammar) (input : Input) (m : Match) (part : Match × Nat) : List Node :=
  match m.partLabel? g part.2 part.1 with
  | some label =>
      [⟨label, ⟨part.1.start, part.1.stop⟩, input.text ⟨part.1.start, part.1.stop⟩,
        part.1.nodes g input⟩]
  | none => part.1.nodes g input

theorem wrap_eq_contribution {slot : Slot} (h : m.slot? g i = some slot) (x : Match) :
    x.wrap g input slot.label (x.nodes g input) = m.contribution g input (x, i) := by
  have hlabel : m.partLabel? g i x = slot.label.or (g.clause x.clause).label := by
    rw [partLabel?, h, Option.bind_some]
  cases hor : slot.label.or (g.clause x.clause).label <;>
    simp only [wrap, contribution, hlabel, hor]

theorem nodesInSlots_eq {slots : List Slot} {parts : List Match} {k : Nat}
    (hslots : ∀ j, m.slot? g (k + j) = slots[j]?) (hlength : parts.length = slots.length) :
    nodesInSlots g input slots parts = (parts.zipIdx k).flatMap (m.contribution g input) := by
  induction parts generalizing slots k with
  | nil =>
      obtain rfl := List.eq_nil_of_length_eq_zero hlength.symm
      rfl
  | cons x parts ih =>
      cases slots with
      | nil => cases hlength
      | cons slot slots =>
          have hrest : ∀ j, m.slot? g (k + 1 + j) = slots[j]? := fun j => by
            rw [Nat.add_right_comm, Nat.add_assoc]
            exact hslots (j + 1)
          rw [nodesInSlots, wrap_eq_contribution (hslots 0), List.zipIdx_cons, List.flatMap_cons,
            ih hrest (Nat.succ.inj hlength)]
          rfl

theorem WellFormed.nodes_eq (h : m.WellFormed g input) :
    m.nodes g input = m.parts.zipIdx.flatMap (m.contribution g input) := by
  cases h with
  | terminal hshape => simp only [nodes, hshape, List.zipIdx_nil, List.flatMap_nil]
  | @seq c pos slots parts hshape _ hclauses =>
      have hlength : parts.length = slots.length := by simpa using congrArg List.length hclauses
      rw [nodes, hshape]
      exact nodesInSlots_eq (fun j => by simp only [slot?, hshape, Nat.zero_add]) hlength
  | @choice c i kind slots slot x hshape hkind hslot =>
      cases kind with
      | seq => exact absurd rfl hkind
      | first | longest =>
          have hslot' : slot? g ⟨c, x.start, x.length, i, [x]⟩ 0 = some slot := by
            simp only [slot?, hshape, if_true, hslot]
          simp only [nodes, hshape, hslot, nodesInHead, wrap_eq_contribution hslot']
          simp
  | @once c slot x hshape =>
      have hslot : slot? g ⟨c, x.start, x.length, 0, [x]⟩ 0 = some slot := by
        simp only [slot?, hshape, if_true]
      simp only [nodes, hshape, nodesInHead, nodesInTail, wrap_eq_contribution hslot]
      simp
  | @more c slot x rest hshape =>
      have hslot : slot? g ⟨c, x.start, x.length + rest.length, 0, [x, rest]⟩ 0 = some slot := by
        simp only [slot?, hshape, if_true]
      have htail : contribution g input ⟨c, x.start, x.length + rest.length, 0, [x, rest]⟩
          (rest, 1) = rest.nodes g input := by
        simp [contribution, partLabel?, slot?, hshape]
      simp only [nodes, hshape, nodesInHead, nodesInTail, wrap_eq_contribution hslot]
      simp [htail]
  | @lookahead c pos kind slot hshape hkind =>
      cases kind with
      | oneOrMore => exact absurd rfl hkind
      | followedBy | notFollowedBy => simp only [nodes, hshape, List.zipIdx_nil, List.flatMap_nil]

theorem WellFormed.of_part (h : m.WellFormed g input) (hx : x ∈ m.parts) : x.WellFormed g input :=
  of_mem_descendants m h x
    (mem_descendants.mpr (.inr ⟨x, hx, mem_descendants.mpr (.inl rfl)⟩))

theorem WellFormed.layout (h : m.WellFormed g input) :
    EndToEnd m.start m.parts ∧ (m.parts = [] ∨ totalLength m.parts = m.length) := by
  cases h with
  | terminal | lookahead => exact ⟨trivial, .inl rfl⟩
  | seq _ _ _ hends => exact ⟨hends, .inr rfl⟩
  | choice | once => exact ⟨⟨rfl, trivial⟩, .inr (by simp [totalLength])⟩
  | more _ _ _ hstart => exact ⟨⟨rfl, hstart, trivial⟩, .inr (by simp [totalLength])⟩

def Spread (g : Grammar) (input : Input) (m : Match) : Prop :=
  Row input m.start m.stop (m.nodes g input)

theorem row_contribution (hx : x.WellFormed g input) (h : x.Spread g input) :
    Row input x.start x.stop (m.contribution g input (x, i)) := by
  rw [contribution]
  split
  · exact Row.singleton (h.around hx.stop_le _) h.le
  · exact h

theorem row_contributions {parts : List Match} (hwf : ∀ x ∈ parts, x.WellFormed g input)
    (hspread : ∀ x ∈ parts, x.Spread g input) {pos : Nat} (hends : EndToEnd pos parts) (k : Nat) :
    Row input pos (pos + totalLength parts)
      ((parts.zipIdx k).flatMap (m.contribution g input)) := by
  induction parts generalizing pos k with
  | nil => exact .nil (Nat.le_add_right ..)
  | cons x parts ih =>
      obtain ⟨hx, hwf⟩ := List.forall_mem_cons.mp hwf
      obtain ⟨hspreadx, hspread⟩ := List.forall_mem_cons.mp hspread
      obtain ⟨rfl, hends⟩ := hends
      have hstop : x.start + totalLength (x :: parts) = x.stop + totalLength parts := by
        simp [totalLength, stop, Nat.add_assoc]
      rw [hstop, List.zipIdx_cons, List.flatMap_cons]
      exact (row_contribution hx hspreadx).append (ih hwf hspread hends (k + 1))

theorem WellFormed.spread : (m : Match) → m.WellFormed g input → m.Spread g input
  | m, h => by
      have hwf : ∀ x ∈ m.parts, x.WellFormed g input := fun x hx => h.of_part hx
      have hspread : ∀ x ∈ m.parts, x.Spread g input := fun x hx => spread x (hwf x hx)
      obtain ⟨hends, hnone | hlength⟩ := h.layout
      · rw [Spread, h.nodes_eq, hnone]
        exact .nil (Nat.le_add_right ..)
      · rw [Spread, h.nodes_eq, stop, ← hlength]
        exact row_contributions hwf hspread hends 0
  termination_by m => m.height
  decreasing_by exact height_lt_of_mem hx

end Match

namespace Parse

inductive Returns (p : Parse) : Match → Prop
  | best {c pos : Nat} {m : Match} : p.best? c pos = some m → p.Returns m
  | stored {k : Key} {m : Match} : p.table.view k = some m → p.Returns m
  | nonOverlapping {rule : String} {ms : List Match} {m : Match} :
      p.nonOverlapping rule = .ok ms → m ∈ ms → p.Returns m
  | all {rule : String} {ms : List Match} {m : Match} :
      p.allMatches rule = .ok ms → m ∈ ms → p.Returns m
  | part {m x : Match} : p.Returns m → x ∈ m.parts → p.Returns x

theorem exists_best_of_nonOverlapping {p : Parse}
    (hview : p.grammar.SoundView p.input p.table.view) {rule : String} {ms : List Match} {m : Match}
    (h : p.nonOverlapping rule = .ok ms) (hm : m ∈ ms) : ∃ c, p.best? c m.start = some m := by
  rw [nonOverlapping] at h
  cases hrule : p.grammar.ruleOf rule with
  | error e => simp [hrule, Except.map] at h
  | ok r =>
      obtain rfl : p.clauseMatches r.clause = ms := by simpa [hrule, Except.map] using h
      exact ⟨r.clause, (anchored_of_sound hview).scan_best (scans_iff.mpr rfl) m hm⟩

theorem exists_best_of_allMatches {p : Parse} {rule : String} {ms : List Match} {m : Match}
    (h : p.allMatches rule = .ok ms) (hm : m ∈ ms) : ∃ c pos, p.best? c pos = some m := by
  rw [allMatches] at h
  cases hrule : p.grammar.ruleOf rule with
  | error e => simp [hrule, Except.map] at h
  | ok r =>
      obtain rfl : p.positions.filterMap (p.best? r.clause) = ms := by
        simpa [hrule, Except.map] using h
      obtain ⟨pos, _, hbest⟩ := List.mem_filterMap.mp hm
      exact ⟨r.clause, pos, hbest⟩

theorem Returns.wellFormed {p : Parse} (hview : p.grammar.SoundView p.input p.table.view)
    {m : Match} (h : p.Returns m) : m.WellFormed p.grammar p.input := by
  have hbest : ∀ {c pos m}, p.best? c pos = some m → m.WellFormed p.grammar p.input :=
    fun h => (fits_of_best? hview h).wellFormed
  induction h with
  | best h => exact hbest h
  | stored h => exact (hview _ _ h).wellFormed
  | nonOverlapping h hm =>
      obtain ⟨c, h⟩ := exists_best_of_nonOverlapping hview h hm
      exact hbest h
  | all h hm =>
      obtain ⟨c, pos, h⟩ := exists_best_of_allMatches h hm
      exact hbest h
  | part _ hx ih => exact ih.of_part hx

theorem trees_are_nested {source : Source} {g : Grammar} (h : source.compile = .ok g)
    (input : String) (limit : Option Nat) {m : Match} (hm : (ofString g input limit).Returns m)
    (label : String) :
    let p := ofString g input limit
    (p.tree m label).label = label ∧ (p.tree m label).span = ⟨m.start, m.stop⟩ ∧
      (p.tree m label).Nested p.input := by
  intro p
  have hwf := hm.wellFormed (sound_ofString (Source.compile_lawful h) input limit)
  exact ⟨rfl, rfl, (hwf.spread m).around hwf.stop_le label⟩

theorem sum_tree_is_nested :
    ∃ g m, Sample.arithmetic.compile = .ok g ∧ (ofString g "1+23" (some 8)).Returns m ∧
      ((ofString g "1+23" (some 8)).tree m "sum").sexpr = "(sum (add (num 1) (num 23)))" ∧
      ((ofString g "1+23" (some 8)).tree m "sum").span = ⟨0, 4⟩ ∧
      ((ofString g "1+23" (some 8)).tree m "sum").Nested (Input.ofString "1+23") := by
  have hrun : (Sample.arithmetic.compile.toOption.any fun g =>
      ((ofString g "1+23" (some 8)).nonOverlapping "Sum").toOption.any fun found =>
        found.any fun m => m.start = 0 && m.stop = 4 &&
          ((ofString g "1+23" (some 8)).tree m "sum").sexpr = "(sum (add (num 1) (num 23)))") =
      true := by
    decide +kernel
  obtain ⟨g, hg, hrun⟩ := Source.exists_of_compile_any hrun
  obtain ⟨found, hfound, hrun⟩ := exists_of_toOption_any hrun
  obtain ⟨m, hmem, hrun⟩ := List.any_eq_true.mp hrun
  simp only [Bool.and_eq_true, decide_eq_true_eq] at hrun
  obtain ⟨⟨hstart, hstop⟩, hsexpr⟩ := hrun
  have hm := Returns.nonOverlapping hfound hmem
  obtain ⟨_, hspan, hnested⟩ := trees_are_nested hg "1+23" (some 8) hm "sum"
  rw [hstart, hstop] at hspan
  exact ⟨g, m, hg, hm, hsexpr, hspan, input_ofString g "1+23" (some 8) ▸ hnested⟩

end Parse

end BottomUpPeg
