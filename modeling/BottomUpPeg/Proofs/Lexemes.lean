import BottomUpPeg.Expr.Basic
import BottomUpPeg.Proofs.Spelling

namespace BottomUpPeg

namespace Text

def scan (close : Char) : List Char → Option (List Char × List Char)
  | [] => none
  | '\\' :: c :: rest => (scan close rest).map fun p => ('\\' :: c :: p.1, p.2)
  | c :: rest =>
      if c = close then some ([], rest) else (scan close rest).map fun p => (c :: p.1, p.2)

def Passes (close : Char) (text : List Char) : Prop :=
  ∀ rest, scan close (text ++ rest) = (scan close rest).map fun p => (text ++ p.1, p.2)

theorem scan_cons {close c : Char} (hc : c ≠ '\\') (rest : List Char) :
    scan close (c :: rest) =
      if c = close then some ([], rest) else (scan close rest).map fun p => (c :: p.1, p.2) := by
  cases rest <;> simp [scan, hc]

namespace Passes

variable {close : Char}

theorem nil : Passes close [] := by
  intro rest
  simp

theorem append {text more : List Char} (ht : Passes close text) (hm : Passes close more) :
    Passes close (text ++ more) := by
  intro rest
  rw [List.append_assoc, ht, hm, Option.map_map]
  simp only [Function.comp_def, List.append_assoc]

theorem cons {c : Char} {text : List Char} (hclose : c ≠ close) (hc : c ≠ '\\')
    (ht : Passes close text) : Passes close (c :: text) := by
  intro rest
  rw [List.cons_append, scan_cons hc, if_neg hclose, ht, Option.map_map]
  rfl

theorem pair {c : Char} {text : List Char} (ht : Passes close text) :
    Passes close ('\\' :: c :: text) := by
  intro rest
  rw [List.cons_append, List.cons_append, scan, ht, Option.map_map]
  rfl

theorem of_forall {text : List Char} (h : ∀ c ∈ text, c ≠ close ∧ c ≠ '\\') :
    Passes close text := by
  induction text with
  | nil => exact nil
  | cons c text ih =>
      obtain ⟨hc, htext⟩ := List.forall_mem_cons.mp h
      exact cons hc.1 hc.2 (ih htext)

theorem flatMap {α : Type} {items : List α} {f : α → List Char}
    (h : ∀ a ∈ items, Passes close (f a)) : Passes close (items.flatMap f) := by
  induction items with
  | nil => exact nil
  | cons a items ih =>
      obtain ⟨ha, hitems⟩ := List.forall_mem_cons.mp h
      exact append ha (ih hitems)

theorem scan_eq {text : List Char} (h : Passes close text) (hclose : close ≠ '\\')
    (rest : List Char) : scan close (text ++ close :: rest) = some (text, rest) := by
  rw [h, scan_cons hclose]
  simp

end Passes

theorem passes_escape {close : Char} (c : Char)
    (hclose : close = '\'' ∨ close = '"' ∨ close = ']') (hbracket : close = ']' → c ≠ ']') : Passes close (escape c) := by
  rcases escape_cases c with ⟨hc, hsingle, hdouble, hback⟩ | ⟨d, rest, hc, hrest⟩
  · rw [hc]
    refine Passes.cons ?_ hback Passes.nil
    rcases hclose with rfl | rfl | rfl
    · exact hsingle
    · exact hdouble
    · exact hbracket rfl
  · rw [hc]
    refine Passes.pair (Passes.of_forall fun x hx => ?_)
    obtain ⟨hsingle, hdouble, hx, hback⟩ := hrest x hx
    rcases hclose with rfl | rfl | rfl
    · exact ⟨hsingle, hback⟩
    · exact ⟨hdouble, hback⟩
    · exact ⟨hx, hback⟩

end Text

namespace CharSet

theorem passes_spell (m : Mark) : Text.Passes ']' m.spell := by
  cases m with
  | caret => exact Text.Passes.of_forall (by simp [Mark.spell])
  | dash => exact Text.Passes.of_forall (by simp [Mark.spell])
  | char c =>
      rw [Mark.spell, bracketEscape]
      split_ifs with h
      · exact Text.Passes.pair Text.Passes.nil
      · simp only [not_or] at h
        exact Text.passes_escape c (by simp) fun _ => h.2.1

end CharSet

inductive Lexeme where
  -- A terminal or the name of a rule.
  | word (text : String)
  | label (name : String)
  | opening
  | closing
  | sign (kind : Unary)
  | gap (kind : Group)
  deriving DecidableEq

namespace Lexeme

def spell : Lexeme → List Char
  | .word text => text.toList
  | .label name => name.toList ++ [':']
  | .opening => ['(']
  | .closing => [')']
  | .sign .oneOrMore => ['+']
  | .sign .followedBy => ['&']
  | .sign .notFollowedBy => ['!']
  | .gap .seq => [' ']
  | .gap .first => [' ', '/', ' ']
  | .gap .longest => [' ', '|', ' ']

def breaks (c : Char) : Bool := c = ' ' || c = ')' || c = '+' || c = ':'

def opens (c : Char) : Bool :=
  c = '\'' || c = '"' || c = '[' || c = '(' || c = '^' || c = '&' || c = '!'

def plain (name : String) : Bool :=
  name.toList.all (!breaks ·) && name.toList.head?.all (!opens ·)

def isName (name : String) : Bool :=
  -- A lone stroke would be taken for the one between alternatives.
  plain name && name ≠ "" && name ≠ "/" && name ≠ "|"

def readGap : List Char → Lexeme × List Char
  | '/' :: ' ' :: rest => (.gap .first, rest)
  | '|' :: ' ' :: rest => (.gap .longest, rest)
  | rest => (.gap .seq, rest)

def readOpening : List Char → Lexeme × List Char
  | ')' :: rest => (.word "()", rest)
  | rest => (.opening, rest)

def readQuoted (opener close : Char) (text : List Char) : Option (Lexeme × List Char) :=
  (Text.scan close text).map fun p => (.word (String.ofList (opener :: p.1 ++ [close])), p.2)

def readLiteral (text : List Char) : Option (Lexeme × List Char) :=
  (Text.scan '"' text).map fun p =>
    match p.2 with
    | 'i' :: rest => (.word (String.ofList ('"' :: p.1 ++ ['"', 'i'])), rest)
    | rest => (.word (String.ofList ('"' :: p.1 ++ ['"'])), rest)

def tagged (name : String) : List Char → Lexeme × List Char
  | ':' :: rest => (.label name, rest)
  | rest => (.word name, rest)

def readPlain (text : List Char) : Lexeme × List Char :=
  tagged (String.ofList (text.takeWhile (!breaks ·))) (text.dropWhile (!breaks ·))

def read : List Char → Option (Lexeme × List Char)
  | [] => none
  | c :: rest =>
      if c = ' ' then some (readGap rest)
      else if c = '(' then some (readOpening rest)
      else if c = ')' then some (.closing, rest)
      else if c = '+' then some (.sign .oneOrMore, rest)
      else if c = '&' then some (.sign .followedBy, rest)
      else if c = '!' then some (.sign .notFollowedBy, rest)
      else if c = '^' then some (.word "^", rest)
      else if c = '\'' then readQuoted '\'' '\'' rest
      else if c = '[' then readQuoted '[' ']' rest
      else if c = '"' then readLiteral rest
      else some (readPlain (c :: rest))

def Stops (rest : List Char) : Prop :=
  ∀ c ∈ rest.head?, c = ' ' ∨ c = ')' ∨ c = '+'

theorem stops_nil : Stops [] := by
  simp [Stops]

theorem read_eq_readPlain {c : Char} (rest : List Char) (hopens : opens c = false)
    (hbreaks : breaks c = true → c = ':') : read (c :: rest) = some (readPlain (c :: rest)) := by
  have hspace : c ≠ ' ' := by rintro rfl; simp [breaks] at hbreaks
  have hclosing : c ≠ ')' := by rintro rfl; simp [breaks] at hbreaks
  have hplus : c ≠ '+' := by rintro rfl; simp [breaks] at hbreaks
  simp only [opens, Bool.or_eq_false_iff, decide_eq_false_iff_not] at hopens
  simp [read, hspace, hclosing, hplus, hopens]

theorem readPlain_append {name : String} {rest : List Char}
    (hname : ∀ c ∈ name.toList, (!breaks c) = true) (hrest : ∀ c ∈ rest.head?, breaks c = true) :
    readPlain (name.toList ++ rest) = tagged name rest := by
  have htake : (name.toList ++ rest).takeWhile (!breaks ·) = name.toList := by
    rw [List.takeWhile_append_of_pos hname]
    cases rest with
    | nil => simp
    | cons c rest => simp [hrest c (by simp)]
  have hdrop : (name.toList ++ rest).dropWhile (!breaks ·) = rest := by
    rw [List.dropWhile_append_of_pos hname]
    cases rest with
    | nil => simp
    | cons c rest => simp [hrest c (by simp)]
  rw [readPlain, htake, hdrop, String.ofList_toList]

theorem forall_not_breaks {name : String} (h : plain name = true) :
    ∀ c ∈ name.toList, (!breaks c) = true := by
  simp only [plain, Bool.and_eq_true, List.all_eq_true] at h
  exact h.1

theorem read_plain {name : String} (h : plain name = true) (hname : name ≠ "") {rest : List Char} :
    read (name.toList ++ rest) = some (readPlain (name.toList ++ rest)) := by
  have hbreaks := forall_not_breaks h
  simp only [plain, Bool.and_eq_true] at h
  cases hlist : name.toList with
  | nil => exact absurd (by simpa using hlist) hname
  | cons c tail =>
      rw [hlist] at h hbreaks
      refine read_eq_readPlain _ (by simpa using h.2) fun hc => ?_
      simp [hc] at hbreaks

theorem read_label {name : String} (h : plain name = true) (rest : List Char) :
    read (spell (.label name) ++ rest) = some (.label name, rest) := by
  have hcolon : ∀ c ∈ (':' :: rest).head?, breaks c = true := by simp [breaks]
  rw [spell, List.append_assoc, List.singleton_append]
  by_cases hname : name = ""
  · subst hname
    rfl
  · rw [read_plain h hname, readPlain_append (forall_not_breaks h) hcolon, tagged]

theorem Stops.breaks {rest : List Char} (h : Stops rest) : ∀ c ∈ rest.head?, breaks c = true := by
  intro c hc
  rcases h c hc with rfl | rfl | rfl <;> rfl

theorem read_name {name : String} (h : isName name = true) {rest : List Char} (hrest : Stops rest) :
    read (spell (.word name) ++ rest) = some (.word name, rest) := by
  simp only [isName, Bool.and_eq_true, decide_eq_true_eq] at h
  rw [spell, read_plain h.1.1.1 h.1.1.2, readPlain_append (forall_not_breaks h.1.1.1) hrest.breaks]
  unfold tagged
  split
  · have hcolon := hrest ':' (by simp)
    simp at hcolon
  · rfl

theorem readQuoted_append (opener close : Char) (hclose : close ≠ '\\') {text : List Char}
    (h : Text.Passes close text) (rest : List Char) :
    readQuoted opener close (text ++ close :: rest) =
      some (.word (String.ofList (opener :: text ++ [close])), rest) := by
  rw [readQuoted, h.scan_eq hclose]
  rfl

theorem readLiteral_append {text : List Char} (h : Text.Passes '"' text) (ignoreCase : Bool)
    {rest : List Char} (hrest : Stops rest) :
    readLiteral (text ++ '"' :: ((if ignoreCase then ['i'] else []) ++ rest)) =
      some (.word (String.ofList ('"' :: text ++ '"' :: if ignoreCase then ['i'] else [])),
        rest) := by
  rw [readLiteral, h.scan_eq (by decide)]
  cases ignoreCase with
  | true => rfl
  | false =>
      simp only [Bool.false_eq_true, if_false, List.nil_append, Option.map_some]
      split
      · have hi := hrest 'i' (by simp)
        simp at hi
      · rfl

theorem read_form (t : Terminal) {rest : List Char} (hrest : Stops rest) :
    read (spell (.word t.form) ++ rest) = some (.word t.form, rest) := by
  rw [spell]
  cases t with
  | chars set =>
      rw [← String.ofList_toList (s := Terminal.form (.chars set)), Terminal.form]
      rcases set.toList_display with ⟨c, -, hset⟩ | hset
      · have hquoted := readQuoted_append '\'' '\'' (by decide)
          (Text.passes_escape c (by simp) (by simp)) rest
        simpa [hset, read] using hquoted
      · have hbracket := readQuoted_append '[' ']' (by decide)
          (Text.Passes.flatMap fun m (_ : m ∈ set.marks) => CharSet.passes_spell m) rest
        simpa [hset, read] using hbracket
  | literal text ignoreCase =>
      have hliteral := readLiteral_append
        (Text.Passes.flatMap fun c (_ : c ∈ text.toList) => Text.passes_escape c (by simp) (by simp))
        ignoreCase hrest
      rw [← String.ofList_toList (s := Terminal.form (.literal text ignoreCase)),
        Terminal.toList_form_literal]
      simpa [read] using hliteral
  | nothing => rfl
  | start => rfl

def leads : Lexeme → Bool
  | .word text => text ≠ "/" && text ≠ "|"
  | .label _ | .opening => true
  | .sign kind => kind ≠ .oneOrMore
  | .closing | .gap _ => false

def Begins (text : List Char) : Prop := ∃ l rest, read text = some (l, rest) ∧ l.leads = true

theorem read_opening {rest : List Char} (h : Begins rest) :
    read (spell .opening ++ rest) = some (.opening, rest) := by
  obtain ⟨l, tail, hread, hl⟩ := h
  show some (readOpening rest) = _
  unfold readOpening
  split
  · rw [show read (')' :: _) = some (.closing, _) from rfl] at hread
    obtain ⟨rfl, -⟩ := Prod.mk.inj (Option.some.inj hread)
    cases hl
  · rfl

theorem read_gap (kind : Group) {rest : List Char} (h : Begins rest) :
    read (spell (.gap kind) ++ rest) = some (.gap kind, rest) := by
  obtain ⟨l, tail, hread, hl⟩ := h
  cases kind with
  | first => rfl
  | longest => rfl
  | seq =>
      show some (readGap rest) = _
      unfold readGap
      split
      · rw [show read ('/' :: ' ' :: _) = some (.word "/", _) from rfl] at hread
        obtain ⟨rfl, -⟩ := Prod.mk.inj (Option.some.inj hread)
        cases hl
      · rw [show read ('|' :: ' ' :: _) = some (.word "|", _) from rfl] at hread
        obtain ⟨rfl, -⟩ := Prod.mk.inj (Option.some.inj hread)
        cases hl
      · rfl

/-- Lexemes that are read back in front of any text that can come after a part of a form, and whose
text is not taken for a part of what stands before it. -/
def Sound (lexemes : List Lexeme) : Prop :=
  ∀ rest, Stops rest →
    Text.Legible spell read lexemes rest ∧ Begins (lexemes.flatMap spell ++ rest)

def join (kind : Group) : List (List Lexeme) → List Lexeme
  | [] => []
  | piece :: pieces => piece ++ pieces.flatMap (.gap kind :: ·)

def bracketed (limit strength : Nat) (lexemes : List Lexeme) : List Lexeme :=
  if strength ≤ limit then .opening :: lexemes ++ [.closing] else lexemes

def slot (parent : Nat) (label : Option String) (strength : Nat) (lexemes : List Lexeme) :
    List Lexeme :=
  match label with
  | none => bracketed parent strength lexemes
  | some name => .label name :: bracketed (max parent 3) strength lexemes

theorem flatMap_spell_join (kind : Group) (pieces : List (List Lexeme)) :
    (join kind pieces).flatMap spell =
      (spell (.gap kind)).intercalate (pieces.map (·.flatMap spell)) := by
  cases pieces with
  | nil => rfl
  | cons piece pieces =>
      induction pieces generalizing piece with
      | nil => simp [join]
      | cons next pieces ih =>
          rw [List.map_cons, List.map_cons, List.intercalate_cons_cons, ← List.map_cons, ← ih next]
          simp [join]

namespace Sound

variable {lexemes more : List Lexeme}

theorem cons {l : Lexeme} (hl : l.leads = true)
    (hread : ∀ text, Begins text → read (l.spell ++ text) = some (l, text)) (h : Sound lexemes) :
    Sound (l :: lexemes) := by
  intro rest hrest
  obtain ⟨hlegible, hbegins⟩ := h rest hrest
  have hfirst := hread _ hbegins
  refine ⟨⟨hfirst, hlegible⟩, l, lexemes.flatMap spell ++ rest, ?_, hl⟩
  rwa [List.flatMap_cons, List.append_assoc]

theorem append (h : Sound lexemes)
    (hmore : ∀ rest, Stops rest →
      Stops (more.flatMap spell ++ rest) ∧ Text.Legible spell read more rest) :
    Sound (lexemes ++ more) := by
  intro rest hrest
  obtain ⟨hstops, hlegible⟩ := hmore rest hrest
  obtain ⟨hfirst, hbegins⟩ := h _ hstops
  refine ⟨Text.legible_append.mpr ⟨hfirst, hlegible⟩, ?_⟩
  rwa [List.flatMap_append, List.append_assoc]

theorem word {text : String} (hl : leads (.word text) = true)
    (hread : ∀ rest, Stops rest → read (spell (.word text) ++ rest) = some (.word text, rest)) :
    Sound [.word text] := by
  intro rest hrest
  have hfirst := hread rest hrest
  exact ⟨⟨hfirst, trivial⟩, .word text, rest, by simpa using hfirst, hl⟩

theorem label {name : String} (hname : plain name = true) (h : Sound lexemes) :
    Sound (.label name :: lexemes) :=
  cons rfl (fun text _ => read_label hname text) h

theorem sign {kind : Unary} (hkind : kind ≠ .oneOrMore) (h : Sound lexemes) :
    Sound (.sign kind :: lexemes) := by
  refine cons (decide_eq_true hkind) (fun text _ => ?_) h
  cases kind with
  | oneOrMore => exact absurd rfl hkind
  | followedBy => rfl
  | notFollowedBy => rfl

theorem repeated (h : Sound lexemes) : Sound (lexemes ++ [.sign .oneOrMore]) :=
  h.append fun rest _ => ⟨by simp [Stops, spell], rfl, trivial⟩

theorem enclosed (h : Sound lexemes) : Sound (.opening :: lexemes ++ [.closing]) :=
  cons rfl (fun _ => read_opening) (h.append fun rest _ => ⟨by simp [Stops, spell], rfl, trivial⟩)

theorem bracketed (h : Sound lexemes) (limit strength : Nat) :
    Sound (bracketed limit strength lexemes) := by
  unfold Lexeme.bracketed
  split
  · exact h.enclosed
  · exact h

theorem slot (h : Sound lexemes) {name : Option String}
    (hname : ∀ n ∈ name, plain n = true) (parent strength : Nat) :
    Sound (slot parent name strength lexemes) := by
  cases name with
  | none => exact h.bracketed _ _
  | some n => exact label (hname n rfl) (h.bracketed _ _)

theorem legible_gaps (kind : Group) {pieces : List (List Lexeme)} (h : ∀ p ∈ pieces, Sound p)
    (rest : List Char) (hrest : Stops rest) :
    Stops ((pieces.flatMap (.gap kind :: ·)).flatMap spell ++ rest) ∧
      Text.Legible spell read (pieces.flatMap (.gap kind :: ·)) rest := by
  induction pieces with
  | nil => exact ⟨hrest, trivial⟩
  | cons piece pieces ih =>
      obtain ⟨hpiece, hpieces⟩ := List.forall_mem_cons.mp h
      obtain ⟨hstops, hlegible⟩ := ih hpieces
      obtain ⟨hfirst, hbegins⟩ := hpiece _ hstops
      constructor
      · cases kind <;> simp [Stops, spell]
      · rw [List.flatMap_cons, List.cons_append]
        refine ⟨read_gap kind ?_, Text.legible_append.mpr ⟨hfirst, hlegible⟩⟩
        rwa [List.flatMap_append, List.append_assoc]

theorem join (kind : Group) {pieces : List (List Lexeme)} (hne : pieces ≠ [])
    (h : ∀ p ∈ pieces, Sound p) : Sound (join kind pieces) := by
  cases pieces with
  | nil => exact absurd rfl hne
  | cons piece pieces =>
      obtain ⟨hpiece, hpieces⟩ := List.forall_mem_cons.mp h
      exact hpiece.append (legible_gaps kind hpieces)

theorem eq_of_flatMap_eq (h : Sound lexemes) (hmore : Sound more)
    (heq : lexemes.flatMap spell = more.flatMap spell) : lexemes = more :=
  (h [] stops_nil).1.eq_of_flatMap_eq rfl (hmore [] stops_nil).1 heq

end Sound

end Lexeme

end BottomUpPeg
