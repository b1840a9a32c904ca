import BottomUpPeg.Proofs.Pacing
import BottomUpPeg.Proofs.Selection
import BottomUpPeg.Tree.Extract

namespace BottomUpPeg

namespace Input

theorem digits_append (front text back : List Char) (htext : ∀ c ∈ text, c.isDigit = true)
    (hback : ∀ c ∈ back.head?, c.isDigit = false) :
    Digits (front ++ text ++ back).toArray front.length text.length := by
  refine ⟨fun j hj => ?_, ?_⟩
  · rw [digitAt, List.getElem?_toArray, List.append_assoc, List.getElem?_append_right (by omega),
      Nat.add_sub_cancel_left, List.getElem?_append_left hj, List.getElem?_eq_getElem hj]
    exact htext _ (List.getElem_mem hj)
  · rw [digitAt, List.getElem?_toArray, List.getElem?_append_right (by simp), List.length_append,
      Nat.sub_self, ← List.head?_eq_getElem?]
    cases hc : back.head? with
    | none => rfl
    | some c => exact hback c hc

def plusTexts (texts : List String) : List Char := texts.flatMap fun text => '+' :: text.toList

theorem toList_intercalate_plus (first : String) (rest : List String) :
    ("+".intercalate (first :: rest)).toList = first.toList ++ plusTexts rest := by
  induction rest generalizing first with
  | nil => simp [plusTexts]
  | cons text rest ih =>
      rw [String.intercalate_cons_cons, String.toList_append, String.toList_append, ih text]
      simp [plusTexts]

theorem ofString_intercalate_plus (first : String) (rest : List String) :
    ofString ("+".intercalate (first :: rest)) = (first.toList ++ plusTexts rest).toArray := by
  rw [ofString, toList_intercalate_plus]

theorem head?_plusTexts (texts : List String) :
    ∀ c ∈ (plusTexts texts).head?, c.isDigit = false := by
  cases texts with
  | nil => simp [plusTexts]
  | cons text texts => simp [plusTexts]

theorem plusTexts_cons (text : String) (texts : List String) :
    plusTexts (text :: texts) = ['+'] ++ text.toList ++ plusTexts texts := by
  simp [plusTexts]

def IsNumeral (text : String) : Prop := text.toList ≠ [] ∧ ∀ c ∈ text.toList, c.isDigit = true

theorem isNumeral_iff {text : String} :
    IsNumeral text ↔ (!text.toList.isEmpty && text.toList.all Char.isDigit) = true := by
  simp [IsNumeral]

instance (text : String) : Decidable (IsNumeral text) := decidable_of_iff _ isNumeral_iff.symm

theorem IsNumeral.length_pos {text : String} (h : IsNumeral text) : 0 < text.length := by
  rw [← String.length_toList]
  exact List.length_pos_iff.mpr h.1

theorem summands_plusTexts (front : List Char) {texts : List String}
    (htexts : ∀ text ∈ texts, IsNumeral text) :
    Summands (front ++ plusTexts texts).toArray front.length (texts.map String.length) := by
  induction texts generalizing front with
  | nil => simp [Summands, plusTexts]
  | cons text texts ih =>
      have htext := htexts text (List.mem_cons_self ..)
      have hrest := ih (front ++ ['+'] ++ text.toList) fun t ht => htexts t (List.mem_cons_of_mem _ ht)
      have hhere := digits_append (front ++ ['+']) text.toList (plusTexts texts) htext.2
        (head?_plusTexts texts)
      have hassoc : front ++ plusTexts (text :: texts) =
          front ++ ['+'] ++ text.toList ++ plusTexts texts := by
        rw [plusTexts_cons]
        simp
      rw [List.map_cons, Summands, hassoc]
      refine ⟨?_, ?_, ?_, ?_⟩
      · simp [plusAt]
      · exact htext.length_pos
      · simpa [String.length_toList] using hhere
      · have hlength : (front ++ ['+'] ++ text.toList).length = front.length + 1 + text.length := by
          simp [String.length_toList, Nat.add_assoc, Nat.add_comm]
        rwa [hlength] at hrest

theorem digits_first {first : String} (hfirst : IsNumeral first) (rest : List String) :
    (ofString ("+".intercalate (first :: rest))).Digits 0 first.length := by
  rw [ofString_intercalate_plus, ← String.length_toList]
  exact digits_append [] first.toList (plusTexts rest) hfirst.2 (head?_plusTexts rest)

theorem summands_rest (first : String) {rest : List String}
    (hrest : ∀ text ∈ rest, IsNumeral text) :
    (ofString ("+".intercalate (first :: rest))).Summands first.length (rest.map String.length) := by
  rw [ofString_intercalate_plus, ← String.length_toList]
  exact summands_plusTexts first.toList hrest

theorem text_ofString (text : String) : (ofString text).text ⟨0, (ofString text).size⟩ = text := by
  simp [Input.text, ofString]

end Input

namespace Grammar.IsArithmetic

variable {g : Grammar} {input : Input}

theorem number_fits (h : g.IsArithmetic) (pos : Nat) {length : Nat} (hpos : 0 < length)
    (hdigits : ∀ j < length, input.digitAt (pos + j) = true) :
    (number pos length).Fits g input ⟨2, pos⟩ := by
  induction length generalizing pos with
  | zero => omega
  | succ length ih =>
      have hhead : (Match.leaf 1 pos 1).WellFormed g input :=
        .terminal h.digit (Input.takes_digit_iff.mpr ⟨rfl, hdigits 0 hpos⟩)
      cases length with
      | zero => exact ⟨rfl, rfl, .once h.num rfl hhead⟩
      | succ length =>
          have hrest := ih (pos + 1) (by omega) fun j hj => by
            rw [show pos + 1 + j = pos + (j + 1) by omega]
            exact hdigits (j + 1) (by omega)
          have hlength := length_number (pos + 1) (length + 1)
          have hmore := Match.WellFormed.more (m := Match.leaf 1 pos 1) h.num rfl hrest.clause_eq
            hrest.start_eq Nat.one_pos (by rw [hlength]; omega) hhead hrest.wellFormed
          rw [hlength, Nat.add_comm (Match.leaf 1 pos 1).length] at hmore
          exact ⟨rfl, rfl, hmore⟩

theorem addition_fits (h : g.IsArithmetic) {pos : Nat} {s t : Match} (hs : s.Fits g input ⟨4, pos⟩)
    (hplus : input.plusAt (pos + s.length) = true)
    (ht : t.Fits g input ⟨2, pos + s.length + 1⟩) :
    (addition pos s t).Fits g input ⟨3, pos⟩ := by
  have hsign : (Match.leaf 0 (pos + s.length) 1).WellFormed g input :=
    .terminal h.plus (Input.takes_plus_iff.mpr ⟨rfl, hplus⟩)
  have hsize := hs.wellFormed.stop_le
  have hstart : s.start = pos := hs.start_eq
  have hstop : s.stop = pos + s.length := by rw [Match.stop, hstart]
  have hends : Match.EndToEnd pos [s, Match.leaf 0 (pos + s.length) 1, t] :=
    ⟨hstart, hstop.symm, ht.start_eq, trivial⟩
  have hpos : pos ≤ input.size := by omega
  have hseq := Match.WellFormed.seq h.add hpos (by simp [hs.clause_eq, ht.clause_eq, Match.leaf]) hends
    (by simpa using ⟨hs.wellFormed, hsign, ht.wellFormed⟩)
  have htotal : Match.totalLength [s, Match.leaf 0 (pos + s.length) 1, t] =
      s.length + 1 + t.length := by
    simp [Match.totalLength, Match.leaf, Nat.add_assoc]
  rw [htotal] at hseq
  exact ⟨rfl, rfl, hseq⟩

def extend (s : Match) (length : Nat) : Match :=
  Match.choose 4 0 (0, addition 0 s (number (s.length + 1) length))

theorem length_extend (s : Match) (length : Nat) :
    (extend s length).length = s.length + 1 + length := by
  simp [extend, Match.choose, addition, length_number]

theorem extend_fits (h : g.IsArithmetic) {s : Match} {length : Nat} (hs : s.Fits g input ⟨4, 0⟩)
    (hplus : input.plusAt s.length = true) (hpos : 0 < length)
    (hdigits : input.Digits (s.length + 1) length) :
    (extend s length).Fits g input ⟨4, 0⟩ := by
  have hnumber := h.number_fits _ hpos hdigits.1
  have hadd := h.addition_fits hs (by rwa [Nat.zero_add]) (by rwa [Nat.zero_add])
  exact ⟨rfl, rfl, .choice h.sum (by simp) rfl hadd.clause_eq hadd.wellFormed⟩

theorem nodes_number (h : g.IsArithmetic) (pos length : Nat) :
    (number pos length).nodes g input = [] := by
  induction length generalizing pos with
  | zero => simp [number, Match.leaf, Match.nodes, h.num, Match.nodesInHead, Match.nodesInTail]
  | succ length ih =>
      cases length with
      | zero =>
          simp [number, Match.leaf, Match.nodes, h.num, h.digit, Match.nodesInHead,
            Match.nodesInTail, Match.wrap, h.label]
      | succ length =>
          simp [number, Match.leaf, Match.nodes, h.num, h.digit, Match.nodesInHead,
            Match.nodesInTail, Match.wrap, h.label, ih (pos + 1)]

theorem nodes_extend (h : g.IsArithmetic) {s : Match} (hs : s.Fits g input ⟨4, 0⟩) (length : Nat) :
    (extend s length).nodes g input =
      [⟨"add", ⟨0, s.length + 1 + length⟩, input.text ⟨0, s.length + 1 + length⟩,
        s.nodes g input ++ [⟨"num", ⟨s.length + 1, s.length + 1 + length⟩,
          input.text ⟨s.length + 1, s.length + 1 + length⟩, []⟩]⟩] := by
  have hclause : (number (s.length + 1) length).clause = 2 ∧
      (number (s.length + 1) length).start = s.length + 1 := by
    cases length with
    | zero => exact ⟨rfl, rfl⟩
    | succ length => cases length <;> exact ⟨rfl, rfl⟩
  simp [extend, addition, Match.choose, Match.nodes, h.sum, h.add, h.plus, Match.nodesInHead,
    Match.nodesInSlots, Match.wrap, h.label, hs.clause_eq, hclause, h.nodes_number, Match.stop,
    length_number, Match.leaf]

end Grammar.IsArithmetic

theorem Input.text_append (front text back : List Char) :
    Input.text (front ++ text ++ back).toArray ⟨front.length, front.length + text.length⟩ =
      String.ofList text := by
  simp [Input.text, List.extract_eq_take_drop]

def Node.numeral (pos : Nat) (text : String) : Node :=
  ⟨"num", ⟨pos, pos + text.length⟩, text, []⟩

def Node.sum (left : Node) : List String → Node
  | [] => left
  | text :: rest =>
      sum ⟨"add", ⟨0, left.span.stop + 1 + text.length⟩, left.text ++ "+" ++ text,
        [left, numeral (left.span.stop + 1) text]⟩ rest

namespace Grammar.IsArithmetic

variable {g : Grammar}

structure Sums (g : Grammar) (input : Input) (m : Match) (front : List Char) (node : Node) :
    Prop where
  fits : m.Fits g input ⟨4, 0⟩
  length_eq : m.length = front.length
  nodes_eq : m.nodes g input = [node]
  span_eq : node.span = ⟨0, front.length⟩
  text_eq : node.text = String.ofList front

theorem sums_first (h : g.IsArithmetic) {first : String} (hfirst : Input.IsNumeral first)
    (rest : List String) :
    Sums g (first.toList ++ Input.plusTexts rest).toArray
      (Match.choose 4 0 (1, number 0 first.length)) first.toList (Node.numeral 0 first) := by
  have hdigits := Input.digits_append [] first.toList (Input.plusTexts rest) hfirst.2
    (Input.head?_plusTexts rest)
  have htext := Input.text_append [] first.toList (Input.plusTexts rest)
  simp only [List.nil_append, List.length_nil, Nat.zero_add, String.length_toList,
    String.ofList_toList] at hdigits htext
  have hnumber := h.number_fits _ hfirst.length_pos hdigits.1
  have hlength := length_number 0 first.length
  have hchoice := Match.WellFormed.choice (i := 1) h.sum (by simp) rfl hnumber.clause_eq
    hnumber.wellFormed
  rw [hnumber.start_eq] at hchoice
  refine ⟨⟨rfl, rfl, hchoice⟩, ?_, ?_, ?_, ?_⟩
  · rw [String.length_toList]
    exact hlength
  · simp [Match.choose, Match.nodes, h.sum, Match.nodesInHead, Match.wrap, h.label,
      hnumber.clause_eq, hnumber.start_eq, h.nodes_number, Match.stop, hlength, htext, Node.numeral]
  · simp [Node.numeral, String.length_toList]
  · simp [Node.numeral]

theorem sums_extend (h : g.IsArithmetic) {front back : List Char} {text : String}
    (htext : Input.IsNumeral text) (hback : ∀ c ∈ back.head?, c.isDigit = false) {m : Match}
    {node : Node}
    (hm : Sums g (front ++ ['+'] ++ text.toList ++ back).toArray m front node) :
    Sums g (front ++ ['+'] ++ text.toList ++ back).toArray (extend m text.length)
      (front ++ ['+'] ++ text.toList)
      ⟨"add", ⟨0, node.span.stop + 1 + text.length⟩, node.text ++ "+" ++ text,
        [node, Node.numeral (node.span.stop + 1) text]⟩ := by
  have hdigits := Input.digits_append (front ++ ['+']) text.toList back htext.2 hback
  have hwhole := Input.text_append [] (front ++ ['+'] ++ text.toList) back
  have hpart := Input.text_append (front ++ ['+']) text.toList back
  have hplus : Input.plusAt (front ++ ['+'] ++ text.toList ++ back).toArray m.length = true := by
    rw [hm.length_eq]
    simp [Input.plusAt]
  have hfront : (front ++ ['+']).length = m.length + 1 := by simp [hm.length_eq]
  have hlength : (front ++ ['+'] ++ text.toList).length = m.length + 1 + text.length := by
    rw [List.length_append, hfront, String.length_toList]
  have hspan : node.span.stop = m.length := by rw [hm.span_eq, hm.length_eq]
  have hjoin : String.ofList (front ++ ['+'] ++ text.toList) = node.text ++ "+" ++ text := by
    rw [hm.text_eq]
    simp [String.append_assoc]
  rw [hfront, String.length_toList] at hdigits hpart
  rw [List.nil_append, List.length_nil, Nat.zero_add, hlength] at hwhole
  refine ⟨h.extend_fits hm.fits hplus htext.length_pos hdigits, ?_, ?_, ?_, ?_⟩
  · rw [length_extend, hlength]
  · rw [h.nodes_extend hm.fits, hm.nodes_eq, hwhole, hpart, hspan, hjoin, String.ofList_toList]
    rfl
  · rw [hlength, hspan]
  · exact hjoin.symm

theorem exists_sums (h : g.IsArithmetic) {texts : List String}
    (htexts : ∀ text ∈ texts, Input.IsNumeral text) {front : List Char} {m : Match} {node : Node}
    (hm : Sums g (front ++ Input.plusTexts texts).toArray m front node) :
    ∃ m', Sums g (front ++ Input.plusTexts texts).toArray m' (front ++ Input.plusTexts texts)
      (node.sum texts) := by
  induction texts generalizing front m node with
  | nil => exact ⟨m, by simpa [Input.plusTexts, Node.sum] using hm⟩
  | cons text texts ih =>
      have hassoc : front ++ Input.plusTexts (text :: texts) =
          front ++ ['+'] ++ text.toList ++ Input.plusTexts texts := by
        rw [Input.plusTexts_cons]
        simp
      rw [hassoc] at hm ⊢
      exact ih (fun t ht => htexts t (List.mem_cons_of_mem _ ht))
        (h.sums_extend (htexts text (List.mem_cons_self ..)) (Input.head?_plusTexts texts) hm)

end Grammar.IsArithmetic

namespace Parse

variable {g : Grammar} {input : Input}

theorem best?_sum (h : g.IsArithmetic) (n pos : Nat) :
    (run g input n).best? 4 pos =
      if input.size < pos then none else (run g input n).table.view ⟨4, pos⟩ := by
  have hlookup : g.lookup input (run g input n).table.view 4 pos = _ :=
    h.lookup_kept h.isMemoized_sum _ pos
  rw [← hlookup]
  rfl

theorem best?_fits (hg : g.Lawful) {n c pos : Nat} {m : Match}
    (hm : (run g input n).best? c pos = some m) : m.Fits g input ⟨c, pos⟩ :=
  fits_of_best? (view_sound hg input n) hm

theorem nonOverlapping_eq {name : String} {c : Nat} (hrule : (g.rule? name).map (·.clause) = some c)
    (n : Nat) : (run g input n).nonOverlapping name = .ok ((run g input n).clauseMatches c) := by
  obtain ⟨rule, hrule, hclause⟩ := Option.map_eq_some_iff.mp hrule
  change (g.ruleOf name).map _ = _
  rw [Grammar.ruleOf, hrule]
  exact congrArg (fun c => Except.ok ((run g input n).clauseMatches c)) hclause

theorem clauseMatches_of_whole (hg : g.Lawful) {c n : Nat} {m : Match}
    (hpos : ∀ q (m' : Match), m'.Fits g input ⟨c, q⟩ → 0 < m'.length)
    (hm : (run g input n).best? c 0 = some m) (hlength : m.length = input.size) :
    (run g input n).clauseMatches c = [m] := by
  have hlengthPos := hpos 0 m (best?_fits hg hm)
  rw [clauseMatches, scan, hm]
  simp only [List.cons.injEq, true_and]
  apply scan_eq_nil
  intro q hq
  by_contra hfound
  obtain ⟨m', hm'⟩ := Option.ne_none_iff_exists'.mp hfound
  have hfits := best?_fits hg hm'
  have hstop := hfits.wellFormed.stop_le
  have hmore := hpos q m' hfits
  rw [Match.stop, show m'.start = q from hfits.start_eq] at hstop
  omega

theorem nonOverlapping_of_whole (hg : g.Lawful) {name : String} {c n : Nat} {m : Match}
    (hrule : (g.rule? name).map (·.clause) = some c)
    (hpos : ∀ q (m' : Match), m'.Fits g input ⟨c, q⟩ → 0 < m'.length)
    (hm : (run g input n).best? c 0 = some m) (hlength : m.length = input.size) :
    (run g input n).nonOverlapping name = .ok [m] := by
  rw [nonOverlapping_eq hrule, clauseMatches_of_whole hg hpos hm hlength]

theorem nonOverlapping_sum_iff (h : g.IsArithmetic) {n : Nat} {m : Match} :
    ((run g input n).nonOverlapping "Sum" = .ok [m] ∧ m.start = 0 ∧ m.length = input.size) ↔
      (run g input n).table.view ⟨4, 0⟩ = some m ∧ m.length = input.size := by
  have hbest : (run g input n).best? 4 0 = (run g input n).table.view ⟨4, 0⟩ := by
    rw [best?_sum h, if_neg (Nat.not_lt_zero _)]
  rw [nonOverlapping_eq h.rule, ← hbest]
  constructor
  · rintro ⟨hlist, hstart, hlength⟩
    refine ⟨?_, hlength⟩
    rw [Except.ok.injEq, clauseMatches, scan] at hlist
    cases hm : (run g input n).best? 4 0 with
    | none =>
        rw [hm] at hlist
        have hmem : m ∈ (run g input n).scan 4 (run g input n).input.size (0 + 1) := by
          simp only at hlist
          rw [hlist]
          exact List.mem_singleton_self m
        have hanchored : (run g input n).Anchored 4 := anchored_of_sound (view_sound h.lawful input n)
        have hle := (hanchored.scan_apart (scans_scan (by omega))).1 m hmem
        omega
    | some first =>
        rw [hm] at hlist
        rw [(List.cons.inj hlist).1]
  · rintro ⟨hm, hlength⟩
    have hpos : ∀ q (m' : Match), m'.Fits g input ⟨4, q⟩ → 0 < m'.length := fun q m' hm' =>
      (h.graded_sum input q m' m' hm' hm').1
    exact ⟨congrArg _ (clauseMatches_of_whole h.lawful hpos hm hlength),
      (best?_fits h.lawful hm).start_eq, hlength⟩

theorem lengthAt_eq_of_converged (h : g.IsArithmetic) {n r : Nat}
    (hconverged : (run g input n).state.converged = true)
    (hr : lengthAt g input r 4 0 = input.size) : lengthAt g input n 4 0 = input.size := by
  rcases Nat.le_total r n with hle | hle
  · have hmono := lengthAt_mono h input hle 4 0
    have hbound := lengthOf_le h.lawful input n ⟨4, 0⟩
    rw [hr] at hmono
    exact Nat.le_antisymm hbound hmono
  · obtain ⟨extra, rfl⟩ := Nat.exists_eq_add_of_le hle
    have hadd : (run g input (n + extra)).state = (run g input n).state :=
      (State.advance_add _ n extra).trans (State.advance_of_converged hconverged extra)
    rw [← hr, lengthAt, lengthAt, table, table, hadd]

theorem nodes_of_whole (h : g.IsArithmetic) {first : String} {rest : List String}
    (hfirst : Input.IsNumeral first) (hrest : ∀ text ∈ rest, Input.IsNumeral text)
    (hinput : input = Input.ofString ("+".intercalate (first :: rest))) {m : Match}
    (hfits : m.Fits g input ⟨4, 0⟩) (hlength : m.length = input.size) :
    m.nodes g input = [(Node.numeral 0 first).sum rest] := by
  rw [Input.ofString_intercalate_plus] at hinput
  obtain ⟨whole, hwhole⟩ := h.exists_sums hrest (h.sums_first hfirst rest)
  rw [← hinput] at hwhole
  have hsize : input.size = (first.toList ++ Input.plusTexts rest).length := by
    rw [hinput, List.size_toArray]
  have hsame := h.sum_unique hfits hwhole.fits (by rw [hlength, hwhole.length_eq, hsize])
  rw [hsame, hwhole.nodes_eq]

theorem tree_of_whole {n : Nat} {text : String} {m : Match} {nodes : List Node}
    (hstart : m.start = 0) (hlength : m.length = (Input.ofString text).size)
    (hnodes : m.nodes g (Input.ofString text) = nodes) (label : String) :
    (run g (Input.ofString text) n).tree m label =
      ⟨label, ⟨0, (Input.ofString text).size⟩, text, nodes⟩ := by
  have hstop : m.stop = (Input.ofString text).size := by
    rw [Match.stop, hstart, hlength, Nat.zero_add]
  rw [tree, Parse.text, hstart, hstop]
  change Node.mk label _ ((Input.ofString text).text _) (m.nodes g (Input.ofString text)) = _
  rw [hnodes, Input.text_ofString]

theorem sums_parse_whole_iff (h : Sample.arithmetic.compile = .ok g) (first : String)
    (rest : List String) (htexts : ∀ text ∈ first :: rest, Input.IsNumeral text) :
    let text := "+".intercalate (first :: rest)
    let p := ofString g text none
    p.converged = true ∧
      ((∃ m, p.nonOverlapping "Sum" = .ok [m] ∧ m.start = 0 ∧ m.length = p.input.size ∧
          ∀ label, p.tree m label =
            ⟨label, ⟨0, p.input.size⟩, text, [(Node.numeral 0 first).sum rest]⟩) ↔
        paced (first.length + 1) (rest.map String.length) = true) := by
  intro text p
  have hg := Sample.arithmetic_compile h
  obtain ⟨hfirst, hrest⟩ := List.forall_mem_cons.mp htexts
  obtain ⟨n, hconverged⟩ := exists_converged hg.lawful (hg.graded (Input.ofString text)) hg.stratum
  have hrun : p = run g (Input.ofString text) n := ofString_eq_run_of_converged hconverged
  have hdigits := Input.digits_first hfirst rest
  have hsummands := Input.summands_rest first hrest
  have hpaced := exists_whole_iff hg hdigits (reached_first hg hdigits) (Nat.le_refl _)
    (Nat.succ_pos _) hfirst.length_pos hsummands
  rw [hrun, ← hpaced]
  refine ⟨hconverged, ?_, ?_⟩
  · rintro ⟨m, hlist, hstart, hlength, _⟩
    obtain ⟨hview, _⟩ := (nonOverlapping_sum_iff hg).mp ⟨hlist, hstart, hlength⟩
    refine ⟨n, ?_⟩
    rw [lengthAt, hview]
    exact hlength
  · rintro ⟨r, hr⟩
    have hlength := lengthAt_eq_of_converged hg hconverged hr
    rw [lengthAt] at hlength
    cases hm : (run g (Input.ofString text) n).table.view ⟨4, 0⟩ with
    | none =>
        have hpos := hfirst.length_pos
        have hle : first.length ≤ (Input.ofString text).size := hsummands.le_size
        rw [hm, Match.lengthOf] at hlength
        omega
    | some m =>
        rw [hm] at hlength
        change m.length = _ at hlength
        have hnodes := nodes_of_whole hg hfirst hrest rfl (view_sound hg.lawful _ n _ m hm) hlength
        obtain ⟨hlist, hstart, _⟩ := (nonOverlapping_sum_iff hg).mpr ⟨hm, hlength⟩
        exact ⟨m, hlist, hstart, hlength, tree_of_whole hstart hlength hnodes⟩

theorem sum_in_pace_is_parsed_whole :
    ∃ g m, Sample.arithmetic.compile = .ok g ∧
      (ofString g ("+".intercalate ["1", "234"]) none).nonOverlapping "Sum" = .ok [m] ∧
      m.length = (ofString g ("+".intercalate ["1", "234"]) none).input.size := by
  have hok : Sample.arithmetic.compile.toOption.isSome = true := by decide +kernel
  have hnumerals : ∀ text ∈ ["1", "234"], Input.IsNumeral text := by decide
  cases hg : Sample.arithmetic.compile with
  | error e => simp [hg, Except.toOption] at hok
  | ok g =>
      obtain ⟨m, hlist, _, hlength, _⟩ :=
        (sums_parse_whole_iff hg "1" ["234"] hnumerals).2.mpr (by decide)
      exact ⟨g, m, rfl, hlist, hlength⟩

theorem sum_out_of_pace_is_cut :
    ∃ g, Sample.arithmetic.compile = .ok g ∧ (∀ text ∈ ["1", "2345"], Input.IsNumeral text) ∧
      ¬∃ m, (ofString g ("+".intercalate ["1", "2345"]) none).nonOverlapping "Sum" = .ok [m] := by
  have hrun : (Sample.arithmetic.compile.toOption.any fun g =>
      let p := run g (Input.ofString ("+".intercalate ["1", "2345"])) 12
      p.converged && decide ((p.nonOverlapping "Sum").toOption.map List.length = some 2)) = true := by
    decide +kernel
  have hnumerals : ∀ text ∈ ["1", "2345"], Input.IsNumeral text := by decide
  cases hg : Sample.arithmetic.compile with
  | error e => simp [hg, Except.toOption] at hrun
  | ok g =>
      simp only [hg, Except.toOption, Option.any_some, Bool.and_eq_true] at hrun
      refine ⟨g, rfl, hnumerals, ?_⟩
      rintro ⟨m, hm⟩
      rw [← ofString_eq_run_of_converged hrun.1, hm] at hrun
      cases hrun.2

end Parse

end BottomUpPeg
