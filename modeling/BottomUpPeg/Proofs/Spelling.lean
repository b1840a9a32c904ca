import BottomUpPeg.Proofs.Canonicity
import BottomUpPeg.Terminal
import Mathlib.Data.List.Basic

namespace BottomUpPeg

namespace Text

section Legible

variable {α : Type} {spell : α → List Char} {read : List Char → Option (α × List Char)}

def Legible (spell : α → List Char) (read : List Char → Option (α × List Char)) :
    List α → List Char → Prop
  | [], _ => True
  | a :: items, rest =>
      read (spell a ++ (items.flatMap spell ++ rest)) = some (a, items.flatMap spell ++ rest) ∧
        Legible spell read items rest

theorem legible_append {items more : List α} {rest : List Char} :
    Legible spell read (items ++ more) rest ↔
      Legible spell read items (more.flatMap spell ++ rest) ∧ Legible spell read more rest := by
  induction items with
  | nil => simp [Legible]
  | cons a items ih => simp [Legible, ih, and_assoc]

theorem legible_of_forall (h : ∀ a rest, read (spell a ++ rest) = some (a, rest)) (items : List α)
    (rest : List Char) : Legible spell read items rest := by
  induction items with
  | nil => trivial
  | cons a items ih => exact ⟨h a _, ih⟩

theorem Legible.eq_of_flatMap_eq (hnil : read [] = none) {items others : List α}
    (hi : Legible spell read items []) (ho : Legible spell read others [])
    (h : items.flatMap spell = others.flatMap spell) : items = others := by
  induction items generalizing others with
  | nil =>
      cases others with
      | nil => rfl
      | cons b others =>
          have hb := ho.1
          rw [List.append_nil, ← List.flatMap_cons, ← h] at hb
          simp [hnil] at hb
  | cons a items ih =>
      cases others with
      | nil =>
          have ha := hi.1
          rw [List.append_nil, ← List.flatMap_cons, h] at ha
          simp [hnil] at ha
      | cons b others =>
          have ha := hi.1
          have hb := ho.1
          rw [List.append_nil, ← List.flatMap_cons] at ha hb
          rw [h, hb] at ha
          obtain ⟨rfl, hrest⟩ := Prod.mk.inj (Option.some.inj ha)
          rw [ih hi.2 ho.2 hrest.symm]

/-- Each item takes a character at least, so the fuel has to be at least the length of the text. -/
def readAll (read : List Char → Option (α × List Char)) : Nat → List Char → Option (List α)
  | _, [] => some []
  | 0, _ :: _ => none
  | fuel + 1, c :: text =>
      match read (c :: text) with
      | some (item, rest) => (readAll read fuel rest).map (item :: ·)
      | none => none

theorem Legible.readAll_eq (hspell : ∀ a, spell a ≠ []) {items : List α}
    (h : Legible spell read items []) {fuel : Nat}
    (hfuel : (items.flatMap spell).length ≤ fuel) :
    readAll read fuel (items.flatMap spell) = some items := by
  induction items generalizing fuel with
  | nil => rw [List.flatMap_nil, readAll]
  | cons a items ih =>
      have hread := h.1
      rw [List.append_nil, ← List.flatMap_cons] at hread
      have hlength : (items.flatMap spell).length < ((a :: items).flatMap spell).length := by
        rw [List.flatMap_cons, List.length_append]
        exact Nat.lt_add_of_pos_left (List.length_pos_of_ne_nil (hspell a))
      cases htext : (a :: items).flatMap spell with
      | nil =>
          rw [htext] at hlength
          cases hlength
      | cons c text =>
          rw [htext] at hread hlength hfuel
          cases fuel with
          | zero => cases hfuel
          | succ fuel =>
              have hrest := ih h.2 (Nat.le_of_lt_succ (Nat.lt_of_lt_of_le hlength hfuel))
              rw [readAll, hread]
              dsimp only
              rw [hrest, Option.map_some]

end Legible

def hexValue (c : Char) : Nat := if c.toNat < 58 then c.toNat - 48 else c.toNat - 87

def ofHex (digits : List Char) : Nat := digits.foldl (fun n c => 16 * n + hexValue c) 0

theorem hexValue_digitChar : ∀ d < 16, hexValue (Nat.digitChar d) = d := by decide

theorem ofHex_toDigits (n : Nat) : ofHex (Nat.toDigits 16 n) = n := by
  induction n using Nat.strongRecOn with
  | ind n ih =>
      rcases Nat.lt_or_ge n 16 with hn | hn
      · rw [Nat.toDigits_of_lt_base hn]
        simp [ofHex, hexValue_digitChar n hn]
      · have hprefix := ih (n / 16) (by omega)
        rw [ofHex] at hprefix
        rw [Nat.toDigits_of_base_le (by decide) hn, ofHex, List.foldl_append, hprefix]
        simp only [List.foldl_cons, List.foldl_nil,
          hexValue_digitChar (n % 16) (Nat.mod_lt _ (by decide))]
        omega

theorem digitChar_of_mem_toDigits {n : Nat} {c : Char} (h : c ∈ Nat.toDigits 16 n) :
    ∃ d, c = Nat.digitChar d := by
  induction n using Nat.strongRecOn with
  | ind n ih =>
      rcases Nat.lt_or_ge n 16 with hn | hn
      · rw [Nat.toDigits_of_lt_base hn, List.mem_singleton] at h
        exact ⟨n, h⟩
      · rw [Nat.toDigits_of_base_le (by decide) hn, List.mem_append, List.mem_singleton] at h
        rcases h with h | h
        · exact ih (n / 16) (by omega) h
        · exact ⟨_, h⟩

theorem escape_cases (c : Char) :
    (escape c = [c] ∧ c ≠ '\'' ∧ c ≠ '"' ∧ c ≠ '\\') ∨
      ∃ d rest, escape c = '\\' :: d :: rest ∧
        ∀ x ∈ rest, x ≠ '\'' ∧ x ≠ '"' ∧ x ≠ ']' ∧ x ≠ '\\' := by
  unfold escape
  split_ifs with h0 ht hr hn hq hh
  · exact Or.inr ⟨'0', [], rfl, by simp⟩
  · exact Or.inr ⟨'t', [], rfl, by simp⟩
  · exact Or.inr ⟨'r', [], rfl, by simp⟩
  · exact Or.inr ⟨'n', [], rfl, by simp⟩
  · exact Or.inr ⟨c, [], rfl, by simp⟩
  · refine Or.inr ⟨'u', '\x7b' :: Nat.toDigits 16 c.toNat ++ ['\x7d'], rfl, ?_⟩
    intro x hx
    rcases List.mem_append.mp hx with hx | hx
    · rcases List.mem_cons.mp hx with rfl | hx
      · decide
      · obtain ⟨d, rfl⟩ := digitChar_of_mem_toDigits hx
        exact ⟨Nat.digitChar_ne _ (by decide), Nat.digitChar_ne _ (by decide),
          Nat.digitChar_ne _ (by decide), Nat.digitChar_ne _ (by decide)⟩
    · rw [List.mem_singleton.mp hx]
      decide
  · simp only [not_or] at hq
    exact Or.inl ⟨rfl, hq⟩

def unescape : List Char → Option (Char × List Char)
  | [] => none
  | '\\' :: '0' :: rest => some ('\x00', rest)
  | '\\' :: 't' :: rest => some ('\t', rest)
  | '\\' :: 'r' :: rest => some ('\r', rest)
  | '\\' :: 'n' :: rest => some ('\n', rest)
  | '\\' :: 'u' :: rest =>
      let digits := (rest.drop 1).takeWhile (· ≠ '\x7d')
      some (Char.ofNat (ofHex digits), rest.drop (digits.length + 2))
  | '\\' :: c :: rest => some (c, rest)
  | c :: rest => some (c, rest)

theorem unescape_codePointEscape (c : Char) (rest : List Char) :
    unescape (codePointEscape c ++ rest) = some (c, rest) := by
  have hclosing : ∀ d ∈ Nat.toDigits 16 c.toNat, decide (d ≠ '\x7d') = true := by
    intro d hd
    obtain ⟨k, rfl⟩ := digitChar_of_mem_toDigits hd
    exact decide_eq_true (Nat.digitChar_ne _ (by decide))
  have hdigits :
      (Nat.toDigits 16 c.toNat ++ '\x7d' :: rest).takeWhile (fun d => decide (d ≠ '\x7d')) =
        Nat.toDigits 16 c.toNat := by
    rw [List.takeWhile_append_of_pos hclosing]
    simp
  simp only [codePointEscape, List.cons_append, List.nil_append, List.append_assoc, unescape,
    List.drop_succ_cons, List.drop_zero, hdigits, ofHex_toDigits, Char.ofNat_toNat]
  simp

theorem unescape_cons {c : Char} (hc : c ≠ '\\') (rest : List Char) :
    unescape (c :: rest) = some (c, rest) := by
  unfold unescape
  split <;> simp_all

theorem unescape_escape (c : Char) (rest : List Char) :
    unescape (escape c ++ rest) = some (c, rest) := by
  unfold escape
  split_ifs with h0 ht hr hn hq hh
  · rw [h0]; rfl
  · rw [ht]; rfl
  · rw [hr]; rfl
  · rw [hn]; rfl
  · rcases hq with rfl | rfl | rfl <;> rfl
  · exact unescape_codePointEscape c rest
  · exact unescape_cons (fun h => hq (Or.inr (Or.inr h))) rest

end Text

namespace CharSet

inductive Mark where
  | caret
  | dash
  | char (c : Char)
  deriving DecidableEq

namespace Mark

def spell : Mark → List Char
  | .caret => ['^']
  | .dash => ['-']
  | .char c => bracketEscape c

def read : List Char → Option (Mark × List Char)
  | '^' :: rest => some (.caret, rest)
  | '-' :: rest => some (.dash, rest)
  | text => (Text.unescape text).map fun (c, rest) => (.char c, rest)

theorem unescape_bracketEscape (c : Char) (rest : List Char) :
    Text.unescape (bracketEscape c ++ rest) = some (c, rest) := by
  unfold bracketEscape
  split_ifs with h
  · rcases h with rfl | rfl | rfl | rfl | rfl <;> rfl
  · exact Text.unescape_escape c rest

theorem bracketEscape_head (c : Char) :
    ∃ d rest, bracketEscape c = d :: rest ∧ d ≠ '^' ∧ d ≠ '-' := by
  unfold bracketEscape
  split_ifs with h
  · exact ⟨'\\', [c], rfl, by decide, by decide⟩
  · simp only [not_or] at h
    rcases Text.escape_cases c with ⟨hc, -⟩ | ⟨d, rest, hc, -⟩
    · exact ⟨c, [], hc, h.2.2.2.1, h.2.2.2.2⟩
    · exact ⟨'\\', d :: rest, hc, by decide, by decide⟩

theorem spell_ne_nil (m : Mark) : m.spell ≠ [] := by
  cases m with
  | caret | dash => exact List.cons_ne_nil _ _
  | char c =>
      obtain ⟨d, rest, hc, _⟩ := bracketEscape_head c
      rw [spell, hc]
      exact List.cons_ne_nil _ _

theorem read_spell (m : Mark) (rest : List Char) : read (m.spell ++ rest) = some (m, rest) := by
  cases m with
  | caret => rfl
  | dash => rfl
  | char c =>
      obtain ⟨d, tail, hd, hcaret, hdash⟩ := bracketEscape_head c
      have h := unescape_bracketEscape c rest
      simp only [spell, hd, List.cons_append] at h ⊢
      unfold read
      split <;> simp_all

end Mark

def rangeMarks (r : CharRange) : List Mark :=
  if r.first = r.last then [.char r.first]
  else if rank r.first + 1 = rank r.last then [.char r.first, .char r.last]
  else [.char r.first, .dash, .char r.last]

def marks (s : CharSet) : List Mark :=
  (if s.inverted then [.caret] else []) ++ s.ranges.flatMap rangeMarks

theorem flatMap_spell_rangeMarks (r : CharRange) :
    (rangeMarks r).flatMap Mark.spell = rangeForm r := by
  unfold rangeMarks rangeForm
  split_ifs <;> simp [Mark.spell]

theorem flatMap_spell_marks (s : CharSet) :
    s.marks.flatMap Mark.spell =
      (if s.inverted then ['^'] else []) ++ s.ranges.flatMap rangeForm := by
  rw [marks, List.flatMap_append, List.flatMap_assoc]
  simp only [flatMap_spell_rangeMarks]
  split <;> simp [Mark.spell]

def ends (r : CharRange) : Char × Char := (r.first, r.last)

def readRanges : List Mark → List (Char × Char)
  | .char c :: .dash :: .char d :: rest => (c, d) :: readRanges rest
  -- Two characters side by side are one range if they are neighbours.
  | .char c :: .char d :: rest =>
      if rank c + 1 = rank d then (c, d) :: readRanges rest
      else (c, c) :: readRanges (.char d :: rest)
  | .char c :: rest => (c, c) :: readRanges rest
  | _ => []

theorem rangeMarks_head (r : CharRange) : ∃ rest, rangeMarks r = .char r.first :: rest := by
  unfold rangeMarks
  split_ifs <;> exact ⟨_, rfl⟩

theorem readRanges_flatMap (ranges : List CharRange) (h : CharRange.Normal ranges) :
    readRanges (ranges.flatMap rangeMarks) = ranges.map ends := by
  induction ranges with
  | nil => rfl
  | cons r rest ih =>
      obtain ⟨hr, hrest⟩ := List.pairwise_cons.mp h
      have ih := ih hrest
      rw [List.flatMap_cons, rangeMarks]
      split_ifs with hone htwo
      · cases rest with
        | nil => simp [readRanges, ends, hone]
        | cons s more =>
            -- A character that stands alone is no neighbour of the one after it.
            have hgap : ¬ rank r.last + 1 = rank s.first := by
              have hbefore : rank r.last + 1 < rank s.first := hr s (List.mem_cons_self ..)
              omega
            obtain ⟨tail, htail⟩ := rangeMarks_head s
            rw [List.flatMap_cons, htail] at ih ⊢
            simp only [List.cons_append, List.nil_append] at ih ⊢
            rw [hone, readRanges, if_neg hgap, ih]
            simp [ends, hone]
      · simp [readRanges, htwo, ih, ends]
      · simp [readRanges, ih, ends]

theorem caret_notMem_rangeMarks (r : CharRange) : Mark.caret ∉ rangeMarks r := by
  unfold rangeMarks
  split_ifs <;> simp

def ofMarks : List Mark → CharSet
  | .caret :: marks => (ofPairs (readRanges marks)).invert
  | marks => ofPairs (readRanges marks)

theorem ofMarks_of_not_mem {marks : List Mark} (h : Mark.caret ∉ marks) :
    ofMarks marks = ofPairs (readRanges marks) := by
  cases marks with
  | nil => rfl
  | cons m marks =>
      cases m with
      | caret => exact absurd (List.mem_cons_self ..) h
      | dash | char => rfl

theorem ofMarks_marks (s : CharSet) : ofMarks s.marks = s := by
  have hranges := readRanges_flatMap s.ranges s.normal
  rw [marks]
  cases hinverted : s.inverted with
  | false =>
      rw [if_neg (by decide), List.nil_append,
        ofMarks_of_not_mem (by simp [caret_notMem_rangeMarks]), hranges]
      exact ofPairs_ends hinverted
  | true =>
      have hinvert : s.invert.inverted = false := by rw [invert, hinverted]; rfl
      have htwice : s.invert.invert = s := by simp [invert]
      rw [if_pos rfl, List.singleton_append, ofMarks, hranges]
      exact (congrArg invert (ofPairs_ends hinvert)).trans htwice

theorem marks_injective : Function.Injective marks :=
  Function.LeftInverse.injective ofMarks_marks

theorem eq_of_single? {s t : CharSet} {c : Char} (hs : s.single? = some c)
    (ht : t.single? = some c) : s = t := by
  apply marks_injective
  have hmarks : ∀ u : CharSet, u.single? = some c → u.marks = [.char c] := by
    intro u hu
    unfold single? at hu
    split at hu
    · rename_i r hr hi
      split at hu
      · rename_i hone
        simp [marks, hr, hi, rangeMarks, hone, ← Option.some.inj hu]
      · cases hu
    · cases hu
  rw [hmarks s hs, hmarks t ht]

theorem toList_display (s : CharSet) :
    (∃ c, s.single? = some c ∧ s.display.toList = '\'' :: Text.escape c ++ ['\'']) ∨
      s.display.toList = '[' :: s.marks.flatMap Mark.spell ++ [']'] := by
  unfold display
  cases h : s.single? with
  | some c => exact Or.inl ⟨c, rfl, by simp⟩
  | none => exact Or.inr (by simp [flatMap_spell_marks])

theorem single?_singleton (c : Char) : (singleton c).single? = some c := by
  have hranges : (singleton c).ranges = [CharRange.between c c] := rfl
  have hbetween : CharRange.between c c = ⟨c, c, Nat.le_refl _⟩ := dif_pos (Nat.le_refl _)
  have hinverted : (singleton c).inverted = false := rfl
  simp only [single?, hranges, hinverted, hbetween, if_true]

/-- Reads what `display` writes: a quoted character, or marks between two brackets. -/
def ofDisplay? (text : String) : Option CharSet :=
  match text.toList with
  | '\'' :: rest => (Text.unescape rest).map fun p => singleton p.1
  | '[' :: rest => (Text.readAll Mark.read rest.length rest.dropLast).map ofMarks
  | _ => none

theorem ofDisplay?_display (s : CharSet) : ofDisplay? s.display = some s := by
  rcases toList_display s with ⟨c, hc, htext⟩ | htext
  · have hread : ofDisplay? s.display =
        (Text.unescape (Text.escape c ++ ['\''])).map fun p => singleton p.1 := by
      rw [ofDisplay?, htext]
      rfl
    rw [hread, Text.unescape_escape, Option.map_some, eq_of_single? hc (single?_singleton c)]
  · have hread : ofDisplay? s.display =
        (Text.readAll Mark.read (s.marks.flatMap Mark.spell ++ [']']).length
          (s.marks.flatMap Mark.spell ++ [']']).dropLast).map ofMarks := by
      rw [ofDisplay?, htext]
      rfl
    have hlegible := Text.legible_of_forall Mark.read_spell s.marks []
    rw [hread, List.dropLast_concat, hlegible.readAll_eq Mark.spell_ne_nil (by simp),
      Option.map_some, ofMarks_marks]

theorem display_injective : Function.Injective display := fun s t h => by
  have hread := ofDisplay?_display s
  rw [h, ofDisplay?_display t] at hread
  exact (Option.some.inj hread).symm

theorem displays_can_be_read (s t : CharSet) :
    ofDisplay? s.display = some s ∧ (s.display = t.display ↔ s = t) :=
  ⟨ofDisplay?_display s, display_injective.eq_iff⟩

-- A dash, brackets and a quote, and a range of the two neighbours across the surrogates.
example : ofDisplay? "[^\\-\\[-\\]\\'\\u\x7bd7ff\x7d\\u\x7be000\x7d]" =
    some (ofPairs [('-', '-'), ('[', ']'), ('\'', '\''), ('\ud7ff', '\ue000')]).invert := by
  decide +kernel

end CharSet

namespace Terminal

theorem toList_form_literal (text : String) (ignoreCase : Bool) :
    (form (.literal text ignoreCase)).toList =
      '"' :: text.toList.flatMap Text.escape ++ '"' :: if ignoreCase then ['i'] else [] := by
  cases ignoreCase <;> simp [form]

theorem literal_inj {s t : String} {i j : Bool}
    (h : (form (.literal s i)).toList = (form (.literal t j)).toList) : s = t ∧ i = j := by
  rw [toList_form_literal, toList_form_literal] at h
  have hcase : i = j := by
    have hlast := congrArg List.getLast? h
    rw [List.getLast?_append_cons, List.getLast?_append_cons] at hlast
    cases i <;> cases j <;> simp at hlast ⊢
  subst hcase
  have htext := List.append_cancel_right (List.cons.inj h).2
  have hlegible := Text.legible_of_forall Text.unescape_escape
  exact ⟨String.toList_injective ((hlegible _ _).eq_of_flatMap_eq rfl (hlegible _ _) htext), rfl⟩

def opener : Terminal → Char
  | .chars set => if set.single?.isSome then '\'' else '['
  | .literal _ _ => '"'
  | .nothing => '('
  | .start => '^'

theorem opener_chars (set : CharSet) :
    opener (.chars set) = '\'' ∨ opener (.chars set) = '[' := by
  cases h : set.single? <;> simp [opener, h]

theorem form_head (t : Terminal) : t.form.toList.head? = some t.opener := by
  cases t with
  | chars set => cases h : set.single? <;> simp [form, opener, CharSet.display, h]
  | literal text i => simp [toList_form_literal, opener]
  | nothing => simp [form, opener]
  | start => simp [form, opener]

theorem form_injective : Function.Injective form := by
  intro s t h
  have hopener : s.opener = t.opener := by
    rw [← Option.some_inj, ← form_head, ← form_head, h]
  cases s with
  | chars set =>
      cases t with
      | chars set' => rw [CharSet.display_injective h]
      | _ => rcases opener_chars set with hset | hset <;> rw [hset] at hopener <;> cases hopener
  | literal text i =>
      cases t with
      | chars set => rcases opener_chars set with hset | hset <;> rw [hset] at hopener <;> cases hopener
      | literal text' j =>
          obtain ⟨rfl, rfl⟩ := literal_inj (congrArg String.toList h)
          rfl
      | _ => simp [opener] at hopener
  | nothing =>
      cases t with
      | chars set => rcases opener_chars set with hset | hset <;> rw [hset] at hopener <;> cases hopener
      | nothing => rfl
      | _ => simp [opener] at hopener
  | start =>
      cases t with
      | chars set => rcases opener_chars set with hset | hset <;> rw [hset] at hopener <;> cases hopener
      | start => rfl
      | _ => simp [opener] at hopener

end Terminal

end BottomUpPeg
