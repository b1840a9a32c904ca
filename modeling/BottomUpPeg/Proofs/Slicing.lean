import BottomUpPeg.Proofs.Anatomy
import BottomUpPeg.Proofs.Placement

namespace BottomUpPeg

namespace Text

theorem utf8ByteSize_cons (c : Char) (cs : List Char) :
    (String.ofList (c :: cs)).utf8ByteSize = c.utf8Size + (String.ofList cs).utf8ByteSize := by
  rw [← List.singleton_append, String.ofList_append, String.utf8ByteSize_append,
    ← String.singleton_eq_ofList, String.utf8ByteSize_singleton]

theorem getElem?_offsetsFrom (cs : List Char) (place i : Nat) :
    (offsetsFrom place cs)[i]? =
      if i ≤ cs.length then some (place + (String.ofList (cs.take i)).utf8ByteSize) else none := by
  induction cs generalizing place i with
  | nil => cases i <;> simp [offsetsFrom]
  | cons c cs ih =>
      cases i with
      | zero => simp [offsetsFrom]
      | succ i =>
          rw [offsetsFrom, List.getElem?_cons_succ, ih, List.take_succ_cons, utf8ByteSize_cons,
            Nat.add_assoc]
          simp only [List.length_cons, Nat.succ_le_succ_iff]

theorem utf8ByteSize_take_lt (cs : List Char) {i j : Nat} (hij : i < j) (hj : j ≤ cs.length) :
    (String.ofList (cs.take i)).utf8ByteSize < (String.ofList (cs.take j)).utf8ByteSize := by
  induction cs generalizing i j with
  | nil => exact absurd (Nat.lt_of_lt_of_le hij hj) (Nat.not_lt_zero i)
  | cons c cs ih =>
      cases j with
      | zero => cases hij
      | succ j =>
          rw [List.take_succ_cons, utf8ByteSize_cons]
          have hc := c.utf8Size_pos
          cases i with
          | zero =>
              rw [List.take_zero, String.ofList_nil, String.utf8ByteSize_empty]
              omega
          | succ i =>
              have hlt := ih (Nat.lt_of_succ_lt_succ hij) (Nat.le_of_succ_le_succ hj)
              rw [List.take_succ_cons, utf8ByteSize_cons]
              omega

theorem between?_append (front middle back : String) :
    between? (front ++ middle ++ back) front.utf8ByteSize
      (front.utf8ByteSize + middle.utf8ByteSize) = some middle := by
  have hstart : String.Pos.Raw.IsValid (front ++ middle ++ back) ⟨front.utf8ByteSize⟩ :=
    String.Pos.Raw.isValid_iff_exists_append.mpr
      ⟨front, middle ++ back, String.append_assoc, rfl⟩
  have hstop : String.Pos.Raw.IsValid (front ++ middle ++ back)
      ⟨front.utf8ByteSize + middle.utf8ByteSize⟩ :=
    String.Pos.Raw.isValid_iff_exists_append.mpr
      ⟨front ++ middle, back, rfl, String.Pos.Raw.ext String.utf8ByteSize_append.symm⟩
  rw [between?, dif_pos ⟨hstart, hstop, Nat.le_add_right ..⟩, Option.some.injEq,
    ← String.toByteArray_inj, String.toByteArray_extract, String.toByteArray_append,
    String.toByteArray_append, ByteArray.append_assoc]
  have hfront : (front.toByteArray ++ (middle.toByteArray ++ back.toByteArray)).extract
      front.utf8ByteSize (front.utf8ByteSize + middle.utf8ByteSize) =
        (middle.toByteArray ++ back.toByteArray).extract 0 middle.utf8ByteSize := by
    rw [← String.size_toByteArray, ← Nat.add_zero front.toByteArray.size, Nat.add_assoc,
      ByteArray.extract_append_size_add, Nat.zero_add]
  rw [hfront]
  exact ByteArray.extract_append_eq_left String.size_toByteArray.symm

theorem between?_of_lt (text : String) {start stop : Nat} (h : stop < start) :
    between? text start stop = none :=
  dif_neg fun hvalid => Nat.not_le.mpr h hvalid.2.2

end Text

namespace Input

variable {input : Input}

theorem text_eq (input : Input) (start stop : Nat) :
    input.text ⟨start, stop⟩ =
      String.ofList ((input.toList.drop start).take (stop - start)) := by
  rw [text, Array.toList_extract, List.extract_eq_take_drop]

theorem getElem?_offsets (input : Input) (i : Nat) :
    input.offsets[i]? =
      if i ≤ input.size then some (String.ofList (input.toList.take i)).utf8ByteSize
      else none := by
  rw [offsets, Text.getElem?_offsetsFrom, Array.length_toList, Nat.zero_add]

theorem slice?_eq_text? (input : Input) (span : Span) : input.slice? span = input.text? span := by
  obtain ⟨start, stop⟩ := span
  rw [slice?, getElem?_offsets, getElem?_offsets, text?]
  by_cases hstart : start ≤ input.size
  · by_cases hstop : stop ≤ input.size
    · rw [if_pos hstart, if_pos hstop]
      dsimp only
      rcases Nat.lt_or_ge stop start with hlt | hle
      · have hplaces := Text.utf8ByteSize_take_lt input.toList hlt hstart
        rw [Text.between?_of_lt _ hplaces, if_neg fun h => Nat.not_le.mpr hlt h.1]
      · -- The text falls into what is before the span, in it and behind it.
        have hmiddle : input.toList.take stop =
            input.toList.take start ++ (input.toList.drop start).take (stop - start) := by
          rw [← List.take_add, Nat.add_sub_cancel' hle]
        have hwhole : input.toString = String.ofList (input.toList.take start) ++
            input.text ⟨start, stop⟩ ++ String.ofList (input.toList.drop stop) := by
          rw [text_eq, ← String.ofList_append, ← hmiddle, ← String.ofList_append,
            List.take_append_drop, toString]
        rw [hmiddle, String.ofList_append, String.utf8ByteSize_append, ← text_eq, hwhole,
          Text.between?_append, if_pos ⟨hle, hstop⟩]
    · rw [if_pos hstart, if_neg hstop, if_neg fun h => hstop h.2]
  · have hnot : ¬(start ≤ stop ∧ stop ≤ input.size) := fun h => hstart (Nat.le_trans h.1 h.2)
    rw [if_neg hstart, if_neg hnot]

theorem text_append_text {start mid stop : Nat} (hstart : start ≤ mid) (hstop : mid ≤ stop) :
    input.text ⟨start, mid⟩ ++ input.text ⟨mid, stop⟩ = input.text ⟨start, stop⟩ := by
  have hlength : stop - start = (mid - start) + (stop - mid) := by omega
  rw [text_eq, text_eq, text_eq, ← String.ofList_append, hlength, List.take_add, List.drop_drop,
    Nat.add_sub_cancel' hstart]

end Input

namespace Match

variable {g : Grammar} {input : Input} {m : Match}

theorem join_texts (input : Input) {parts : List Match} {pos : Nat} (h : EndToEnd pos parts) :
    String.join (parts.map fun x => input.text ⟨x.start, x.stop⟩) =
      input.text ⟨pos, pos + totalLength parts⟩ := by
  induction parts generalizing pos with
  | nil =>
      rw [List.map_nil, String.join_nil, totalLength_nil, Input.text_eq, Nat.add_zero,
        Nat.sub_self, List.take_zero, String.ofList_nil]
  | cons x parts ih =>
      obtain ⟨rfl, hrest⟩ := h
      have hstop : x.start + totalLength (x :: parts) = x.stop + totalLength parts := by
        rw [totalLength_cons, stop, Nat.add_assoc]
      rw [List.map_cons, String.join_cons, ih hrest, hstop]
      exact Input.text_append_text (Nat.le_add_right ..) (Nat.le_add_right ..)

-- A lookahead takes no characters and has no parts.
theorem WellFormed.totalLength_eq (h : m.WellFormed g input)
    (hshape : ∀ t, g.shape m.clause ≠ .terminal t) : totalLength m.parts = m.length := by
  obtain ⟨_, hnone | hlength⟩ := h.layout
  · cases h with
    | terminal hterminal => exact absurd hterminal (hshape _)
    | seq | lookahead => rfl
    | choice | once | more => cases hnone
  · exact hlength

theorem WellFormed.text_eq_join (h : m.WellFormed g input)
    (hshape : ∀ t, g.shape m.clause ≠ .terminal t) :
    input.text ⟨m.start, m.stop⟩ =
      String.join (m.parts.map fun x => input.text ⟨x.start, x.stop⟩) := by
  rw [join_texts input h.layout.1, h.totalLength_eq hshape, stop]

end Match

namespace Parse

theorem text?_eq {p : Parse} {m : Match} (h : m.WellFormed p.grammar p.input) :
    p.text? m = some (p.text m) := by
  rw [text?, Input.slice?_eq_text?, Input.text?, if_pos ⟨Nat.le_add_right .., h.stop_le⟩]
  rfl

theorem mapM_text? {p : Parse} {ms : List Match}
    (h : ∀ m ∈ ms, m.WellFormed p.grammar p.input) : ms.mapM p.text? = some (ms.map p.text) := by
  induction ms with
  | nil => rfl
  | cons m ms ih =>
      obtain ⟨hm, hms⟩ := List.forall_mem_cons.mp h
      rw [List.mapM_cons, text?_eq hm, ih hms]
      rfl

theorem texts_are_cut_exactly {source : Source} {g : Grammar} (h : source.compile = .ok g)
    (input : String) (limit : Option Nat) :
    let p := ofString g input limit
    (∀ start stop, p.input.slice? ⟨start, stop⟩ =
        if start ≤ stop ∧ stop ≤ input.length then
          some (String.ofList ((input.toList.drop start).take (stop - start)))
        else none) ∧
      ∀ m, p.Returns m → (∀ t, g.shape m.clause ≠ .terminal t) →
        ∃ texts, m.parts.mapM p.text? = some texts ∧ p.text? m = some (String.join texts) := by
  intro p
  have hinput : p.input = Input.ofString input := input_ofString g input limit
  refine ⟨fun start stop => ?_, fun m hm hshape => ?_⟩
  · have hlist : (Input.ofString input).toList = input.toList := rfl
    have hsize : (Input.ofString input).size = input.length := by
      rw [← Array.length_toList, hlist, String.length_toList]
    rw [hinput, Input.slice?_eq_text?, Input.text?, hsize, Input.text_eq, hlist]
  · have hwf := hm.wellFormed (sound_ofString (Source.compile_lawful h) input limit)
    have hterminal : ∀ t, p.grammar.shape m.clause ≠ .terminal t := fun t => by
      rw [show p.grammar = g from grammar_ofString g input limit]
      exact hshape t
    refine ⟨m.parts.map p.text, mapM_text? fun x hx => hwf.of_part hx, ?_⟩
    rw [text?_eq hwf]
    exact congrArg some (hwf.text_eq_join hterminal)

def accented : Source where
  definitions := [.plain "S" (.seq [.char 'é', .oneOrMore (.char '😀')])]
  lexical := none

theorem accents_are_cut_exactly :
    ∃ g m texts, accented.compile = .ok g ∧ (ofString g "é😀😀" (some 8)).Returns m ∧
      (∀ t, g.shape m.clause ≠ .terminal t) ∧
      m.parts.mapM (ofString g "é😀😀" (some 8)).text? = some texts ∧
      (ofString g "é😀😀" (some 8)).text? m = some (String.join texts) ∧
      (ofString g "é😀😀" (some 8)).input.slice? ⟨1, 3⟩ = some "😀😀" ∧
      (ofString g "é😀😀" (some 8)).input.slice? ⟨3, 1⟩ = none := by
  have hrun : (accented.compile.toOption.any fun g =>
      ((ofString g "é😀😀" (some 8)).nonOverlapping "S").toOption.any fun found =>
        found.any fun m => (g.shape m.clause).isMemoized) = true := by
    decide +kernel
  obtain ⟨g, hg, hrun⟩ := Source.exists_of_compile_any hrun
  obtain ⟨found, hfound, hrun⟩ := exists_of_toOption_any hrun
  obtain ⟨m, hmem, hmemoized⟩ := List.any_eq_true.mp hrun
  have hterminal : ∀ t, g.shape m.clause ≠ .terminal t := fun t ht => by
    rw [ht] at hmemoized
    cases hmemoized
  have hm := Returns.nonOverlapping hfound hmem
  obtain ⟨hslices, hmatches⟩ := texts_are_cut_exactly hg "é😀😀" (some 8)
  obtain ⟨texts, hparts, htext⟩ := hmatches m hm hterminal
  exact ⟨g, m, texts, hg, hm, hterminal, hparts, htext, (hslices 1 3).trans (by decide),
    (hslices 3 1).trans (by decide)⟩

end Parse

end BottomUpPeg
