import BottomUpPeg.Proofs.Lexemes

namespace BottomUpPeg

def Group.strength : Group → Nat
  | .seq => 2
  | .first | .longest => 1

namespace Expr

def named : Option String → Expr → Expr
  | none, e => e
  | some name, e => .label name e

def strength : Expr → Nat
  | .terminal _ | .reference _ => 4
  | .unary _ _ => 3
  | .group kind _ => kind.strength
  | .label _ item => item.strength

mutual

def core : Expr → Expr
  | .terminal t => .terminal t
  | .reference rule => .reference rule
  | .group kind items => .group kind (coreAll items)
  | .unary kind item => .unary kind (named item.outerLabel item.core)
  | .label _ item => item.core

def coreAll : List Expr → List Expr
  | [] => []
  | e :: rest => named e.outerLabel e.core :: coreAll rest

end

mutual

def lexemes : Expr → List Lexeme
  | .terminal t => [.word t.form]
  | .reference rule => [.word rule]
  | .group kind items => Lexeme.join kind (lexemesAll kind.strength items)
  | .unary .oneOrMore item =>
      Lexeme.slot 3 item.outerLabel item.strength item.lexemes ++ [.sign .oneOrMore]
  | .unary kind item => .sign kind :: Lexeme.slot 3 item.outerLabel item.strength item.lexemes
  | .label _ item => item.lexemes

def lexemesAll (parent : Nat) : List Expr → List (List Lexeme)
  | [] => []
  | e :: rest => Lexeme.slot parent e.outerLabel e.strength e.lexemes :: lexemesAll parent rest

end

mutual

def readable : Expr → Bool
  | .terminal _ => true
  | .reference rule => Lexeme.isName rule
  | .group _ items => 2 ≤ items.length && readableAll items
  | .unary _ item => item.outerLabel.all Lexeme.plain && item.readable
  | .label _ item => item.readable

def readableAll : List Expr → Bool
  | [] => true
  | e :: rest => e.outerLabel.all Lexeme.plain && e.readable && readableAll rest

end

theorem readable_group {kind : Group} {items : List Expr} :
    (Expr.group kind items).readable = true ↔ 2 ≤ items.length ∧ readableAll items = true := by
  simp [readable]

theorem readable_unary {kind : Unary} {item : Expr} :
    (Expr.unary kind item).readable = true ↔
      (∀ name ∈ item.outerLabel, Lexeme.plain name = true) ∧ item.readable = true := by
  rw [readable, Bool.and_eq_true, Option.all_eq_true]
  rfl

theorem readableAll_cons {e : Expr} {rest : List Expr} :
    readableAll (e :: rest) = true ↔
      (∀ name ∈ e.outerLabel, Lexeme.plain name = true) ∧ e.readable = true ∧
        readableAll rest = true := by
  rw [readableAll, Bool.and_eq_true, Bool.and_eq_true, Option.all_eq_true, and_assoc]
  rfl

theorem lexemesAll_eq_map (parent : Nat) (items : List Expr) :
    lexemesAll parent items =
      items.map fun e => Lexeme.slot parent e.outerLabel e.strength e.lexemes := by
  induction items with
  | nil => rfl
  | cons e rest ih => rw [lexemesAll, ih, List.map_cons]

theorem outerLabel_core (e : Expr) : e.core.outerLabel = none := by
  induction e using unlabeled.induct with
  | case1 _ item ih => simpa [core] using ih
  | case2 e h => cases e <;> simp_all [core, outerLabel]

theorem outerLabel_named (name : Option String) {e : Expr} (h : e.outerLabel = none) :
    (named name e).outerLabel = name := by
  cases name with
  | none => exact h
  | some n => rfl

@[simp] theorem strength_named (name : Option String) (e : Expr) :
    (named name e).strength = e.strength := by
  cases name <;> rfl

@[simp] theorem lexemes_named (name : Option String) (e : Expr) :
    (named name e).lexemes = e.lexemes := by
  cases name <;> simp [named, lexemes]

@[simp] theorem strength_core (e : Expr) : e.core.strength = e.strength := by
  induction e using unlabeled.induct with
  | case1 _ item ih => simpa [core, strength] using ih
  | case2 e h => cases e <;> simp_all [core, strength]

mutual

theorem lexemes_core : (e : Expr) → e.core.lexemes = e.lexemes
  | .terminal _ => rfl
  | .reference _ => rfl
  | .group kind items => by rw [core, lexemes, lexemes, lexemesAll_coreAll]
  | .unary kind item => by
      cases kind <;>
        simp [core, lexemes, outerLabel_named _ (outerLabel_core item), lexemes_core item]
  | .label _ item => by rw [core, lexemes, lexemes_core item]

theorem lexemesAll_coreAll (parent : Nat) :
    (items : List Expr) → lexemesAll parent (coreAll items) = lexemesAll parent items
  | [] => rfl
  | e :: rest => by
      simp [coreAll, lexemesAll, outerLabel_named _ (outerLabel_core e), lexemes_core e,
        lexemesAll_coreAll parent rest]

end

theorem opens_opener (t : Terminal) : Lexeme.opens t.opener = true := by
  cases t with
  | chars set => rcases Terminal.opener_chars set with hset | hset <;> rw [hset] <;> rfl
  | literal text ignoreCase => rfl
  | nothing => rfl
  | start => rfl

theorem leads_form (t : Terminal) : Lexeme.leads (.word t.form) = true := by
  have hne : ∀ text : String, text.toList.head?.any Lexeme.opens = false → t.form ≠ text := by
    rintro text htext rfl
    simp [t.form_head, opens_opener] at htext
  simp only [Lexeme.leads, Bool.and_eq_true, decide_eq_true_eq]
  exact ⟨hne _ rfl, hne _ rfl⟩

theorem leads_name {rule : String} (h : Lexeme.isName rule = true) :
    Lexeme.leads (.word rule) = true := by
  simp_all [Lexeme.leads, Lexeme.isName]

mutual

theorem sound_lexemes : (e : Expr) → e.readable = true → Lexeme.Sound e.lexemes
  | .terminal t, _ => .word (leads_form t) fun _ => Lexeme.read_form t
  | .reference rule, h => .word (leads_name h) fun _ => Lexeme.read_name h
  | .group kind items, h => by
      obtain ⟨hlength, hitems⟩ := readable_group.mp h
      refine .join kind ?_ (sound_lexemesAll _ items hitems)
      intro hnil
      rw [lexemesAll_eq_map, List.map_eq_nil_iff] at hnil
      simp [hnil] at hlength
  | .unary kind item, h => by
      obtain ⟨hlabel, hitem⟩ := readable_unary.mp h
      have hslot := (sound_lexemes item hitem).slot hlabel 3 item.strength
      cases kind with
      | oneOrMore => exact hslot.repeated
      | followedBy => exact hslot.sign (by decide)
      | notFollowedBy => exact hslot.sign (by decide)
  | .label _ item, h => sound_lexemes item h

theorem sound_lexemesAll (parent : Nat) :
    (items : List Expr) → readableAll items = true → ∀ p ∈ lexemesAll parent items, Lexeme.Sound p
  | [], _ => by simp [lexemesAll]
  | e :: rest, h => by
      obtain ⟨hlabel, he, hrest⟩ := readableAll_cons.mp h
      rw [lexemesAll, List.forall_mem_cons]
      exact ⟨(sound_lexemes e he).slot hlabel parent e.strength, sound_lexemesAll parent rest hrest⟩

end

open Classical in
noncomputable def ofWord (text : String) : Expr :=
  if h : ∃ t : Terminal, t.form = text then .terminal h.choose else .reference text

theorem ofWord_form (t : Terminal) : ofWord t.form = .terminal t := by
  have h : ∃ s : Terminal, s.form = t.form := ⟨t, rfl⟩
  rw [ofWord, dif_pos h, Terminal.form_injective h.choose_spec]

theorem ofWord_name {rule : String} (h : Lexeme.isName rule = true) :
    ofWord rule = .reference rule := by
  refine dif_neg ?_
  rintro ⟨t, rfl⟩
  simp [Lexeme.isName, Lexeme.plain, t.form_head, opens_opener] at h

end Expr

/-- What has been read of a form within one pair of brackets: the alternatives before the last
stroke and the parts after it, the last ones first, and the sign and the label before the part that
comes next. -/
structure Frame where
  kind : Group
  finished : List Expr
  parts : List Expr
  sign : Option Unary
  label : Option String

namespace Frame

def empty : Frame := ⟨.first, [], [], none, none⟩

def Clear (f : Frame) : Prop := f.sign = none ∧ f.label = none

def put (f : Frame) (e : Expr) : Frame :=
  let part := Expr.named f.label e
  { f with
    parts := (match f.sign with | none => part | some kind => .unary kind part) :: f.parts
    sign := none
    label := none }

def alternative (f : Frame) : Expr := Expr.groupOf .seq f.parts.reverse

def finish (f : Frame) : Expr :=
  match f.finished with
  | [] => f.alternative
  | finished => .group f.kind (f.alternative :: finished).reverse

def repeatLast (f : Frame) : Frame :=
  match f.parts with
  | [] => f
  | part :: parts => { f with parts := .unary .oneOrMore part :: parts }

def stroke (f : Frame) (kind : Group) : Frame :=
  ⟨kind, f.alternative :: f.finished, [], none, none⟩

noncomputable def step : List Frame → Lexeme → List Frame
  | f :: below, .word text => f.put (Expr.ofWord text) :: below
  | f :: below, .label name => { f with label := some name } :: below
  | f :: below, .sign .oneOrMore => f.repeatLast :: below
  | f :: below, .sign kind => { f with sign := some kind } :: below
  | f :: below, .opening => empty :: f :: below
  | f :: g :: below, .closing => g.put f.finish :: below
  | f :: below, .gap .seq => f :: below
  | f :: below, .gap kind => f.stroke kind :: below
  | stack, _ => stack

structure Took (f : Frame) (e : Expr) (g : Frame) : Prop where
  clear : g.Clear
  alternative : g.alternative = e
  finished : g.finished = f.finished
  kind : g.kind = f.kind

structure Reads (e : Expr) : Prop where
  -- What the lexemes may follow depends on how strongly the form binds.
  part : 3 ≤ e.strength → ∀ f below, (e.strength = 3 → f.Clear) →
    e.lexemes.foldl step (f :: below) = f.put e.core :: below
  alternative : 2 ≤ e.strength → ∀ f below, f.Clear → f.parts = [] →
    ∃ g, e.lexemes.foldl step (f :: below) = g :: below ∧ f.Took e.core g
  whole : ∀ below, ∃ g, e.lexemes.foldl step (empty :: below) = g :: below ∧ g.finish = e.core

variable {e : Expr} {f : Frame}

theorem put_named (h : f.label = none) (name : Option String) (e : Expr) :
    { f with label := name }.put e = f.put (Expr.named name e) := by
  simp [put, h, Expr.named]

theorem clear_put (f : Frame) (e : Expr) : (f.put e).Clear := ⟨rfl, rfl⟩

theorem put_eq (h : f.Clear) (e : Expr) : f.put e = { f with parts := e :: f.parts } := by
  obtain ⟨hsign, hlabel⟩ := h
  simp [put, hsign, hlabel, Expr.named]

theorem took_put (h : f.Clear) (hparts : f.parts = []) (e : Expr) : f.Took e (f.put e) :=
  ⟨clear_put f e, by simp [alternative, put_eq h, hparts, Expr.groupOf], rfl, rfl⟩

theorem finish_eq_group (h : f.finished ≠ []) :
    f.finish = .group f.kind (f.alternative :: f.finished).reverse := by
  unfold finish
  split
  · exact absurd ‹_› h
  · rfl

theorem Took.finish_eq {g : Frame} (h : f.Took e g) (hf : f.finished = []) : g.finish = e := by
  rw [finish, h.finished, hf]
  exact h.alternative

namespace Reads

theorem of_whole (hstrength : e.strength < 2)
    (h : ∀ below, ∃ g, e.lexemes.foldl step (empty :: below) = g :: below ∧ g.finish = e.core) :
    Reads e :=
  ⟨fun hs => by omega, fun hs => by omega, h⟩

theorem of_alternative (hstrength : e.strength < 3)
    (h : ∀ f below, f.Clear → f.parts = [] →
      ∃ g, e.lexemes.foldl step (f :: below) = g :: below ∧ f.Took e.core g) : Reads e := by
  refine ⟨fun hs => by omega, fun _ => h, fun below => ?_⟩
  obtain ⟨g, hg, htook⟩ := h empty below ⟨rfl, rfl⟩ rfl
  exact ⟨g, hg, htook.finish_eq rfl⟩

theorem of_part (h : ∀ f below, (e.strength = 3 → f.Clear) →
    e.lexemes.foldl step (f :: below) = f.put e.core :: below) : Reads e := by
  refine ⟨fun _ => h, fun _ f below hf hparts => ?_, fun below => ?_⟩
  · exact ⟨f.put e.core, h f below fun _ => hf, took_put hf hparts _⟩
  · have hempty : empty.Clear := ⟨rfl, rfl⟩
    exact ⟨empty.put e.core, h empty below fun _ => hempty, (took_put hempty rfl _).finish_eq rfl⟩

theorem enclosed (h : Reads e) (f : Frame) (below : List Frame) :
    (Lexeme.opening :: e.lexemes ++ [Lexeme.closing]).foldl step (f :: below) =
      f.put e.core :: below := by
  obtain ⟨g, hg, hfinish⟩ := h.whole (f :: below)
  rw [List.cons_append, List.foldl_cons, step, List.foldl_append, hg, List.foldl_cons,
    List.foldl_nil, step, hfinish]

theorem bracketed (h : Reads e) {limit : Nat} (hlimit : 2 ≤ limit) {f : Frame}
    (hf : limit = 2 → f.Clear) (below : List Frame) :
    (Lexeme.bracketed limit e.strength e.lexemes).foldl step (f :: below) =
      f.put e.core :: below := by
  unfold Lexeme.bracketed
  split
  · exact h.enclosed f below
  · exact h.part (by omega) f below fun hs => hf (by omega)

theorem slot (h : Reads e) {parent : Nat} (hparent : 2 ≤ parent) (name : Option String)
    (f : Frame) (hlabel : f.label = none) (hsign : parent = 2 → f.sign = none)
    (below : List Frame) :
    (Lexeme.slot parent name e.strength e.lexemes).foldl step (f :: below) =
      f.put (Expr.named name e.core) :: below := by
  cases name with
  | none => exact h.bracketed hparent (fun hp => ⟨hsign hp, hlabel⟩) below
  | some n =>
      rw [← put_named hlabel, Lexeme.slot, List.foldl_cons, step]
      exact h.bracketed (by omega) (by omega) below

theorem weakSlot (h : Reads e) (name : Option String) (f : Frame) (hf : f.Clear)
    (hparts : f.parts = []) (below : List Frame) :
    ∃ g, (Lexeme.slot 1 name e.strength e.lexemes).foldl step (f :: below) = g :: below ∧
      f.Took (Expr.named name e.core) g := by
  cases name with
  | none =>
      rw [Lexeme.slot, Lexeme.bracketed]
      split
      · exact ⟨_, h.enclosed f below, took_put hf hparts _⟩
      · exact h.alternative (by omega) f below hf hparts
  | some n =>
      -- A label binds more strongly than a group, so the part stands as it does in a unary form.
      have hslot := h.slot (show 2 ≤ 3 by omega) (some n) f hf.2 (by omega) below
      exact ⟨_, hslot, took_put hf hparts _⟩

theorem repeated (h : Reads e) : Reads (.unary .oneOrMore e) := by
  refine of_part fun f below hclear => ?_
  have hf : f.Clear := hclear rfl
  rw [Expr.lexemes, List.foldl_append, h.slot (by omega) e.outerLabel f hf.2 (by omega) below,
    List.foldl_cons, List.foldl_nil, step, put_eq hf, Expr.core, put_eq hf]
  rfl

theorem lookahead (h : Reads e) {kind : Unary} (hkind : kind ≠ .oneOrMore) :
    Reads (.unary kind e) := by
  refine of_part fun f below hclear => ?_
  have hf : f.Clear := hclear rfl
  have hlexemes : (Expr.unary kind e).lexemes =
      .sign kind :: Lexeme.slot 3 e.outerLabel e.strength e.lexemes := by
    cases kind <;> simp [Expr.lexemes] at hkind ⊢
  have hsign : step (f :: below) (.sign kind) = { f with sign := some kind } :: below := by
    cases kind <;> simp [step] at hkind ⊢
  rw [hlexemes, List.foldl_cons, hsign,
    h.slot (by omega) e.outerLabel { f with sign := some kind } hf.2 (by omega) below]
  simp [put, hf.1, hf.2, Expr.named, Expr.core]

theorem gaps {items : List Expr} (h : ∀ e ∈ items, Reads e) {f : Frame} (hf : f.Clear)
    (below : List Frame) :
    ((Expr.lexemesAll 2 items).flatMap (.gap .seq :: ·)).foldl step (f :: below) =
      { f with parts := (Expr.coreAll items).reverse ++ f.parts } :: below := by
  induction items generalizing f with
  | nil => rfl
  | cons e items ih =>
      obtain ⟨he, hitems⟩ := List.forall_mem_cons.mp h
      rw [Expr.lexemesAll, List.flatMap_cons, List.foldl_append, List.foldl_cons, step,
        he.slot (Nat.le_refl 2) _ f hf.2 (fun _ => hf.1), ih hitems (clear_put f _), put_eq hf,
        Expr.coreAll]
      simp

theorem sequence {items : List Expr} (hlength : 2 ≤ items.length) (h : ∀ e ∈ items, Reads e) :
    Reads (.group .seq items) := by
  refine of_alternative (by simp [Expr.strength, Group.strength]) fun f below hf hparts => ?_
  match items, hlength with
  | first :: second :: rest, _ =>
      obtain ⟨hfirst, hrest⟩ := List.forall_mem_cons.mp h
      rw [Expr.lexemes, Group.strength, Expr.lexemesAll, Lexeme.join, List.foldl_append,
        hfirst.slot (Nat.le_refl 2) _ f hf.2 (fun _ => hf.1), gaps hrest (clear_put f _)]
      refine ⟨_, rfl, ⟨rfl, rfl⟩, ?_, rfl, rfl⟩
      simp [Frame.alternative, put_eq hf, hparts, Expr.coreAll, Expr.core, Expr.groupOf]

theorem strokes {kind : Group} (hkind : kind ≠ .seq) {items : List Expr}
    (h : ∀ e ∈ items, Reads e) {f : Frame} (hf : f.Clear) (below : List Frame) :
    ∃ g, ((Expr.lexemesAll 1 items).flatMap (.gap kind :: ·)).foldl step (f :: below) = g :: below ∧
      g.alternative :: g.finished = (Expr.coreAll items).reverse ++ f.alternative :: f.finished ∧
      (f.kind = kind ∨ items ≠ [] → g.kind = kind) := by
  induction items generalizing f with
  | nil => exact ⟨f, rfl, rfl, by simp⟩
  | cons e items ih =>
      obtain ⟨he, hitems⟩ := List.forall_mem_cons.mp h
      have hstroke : step (f :: below) (.gap kind) = f.stroke kind :: below := by
        cases kind with
        | seq => exact absurd rfl hkind
        | first => rfl
        | longest => rfl
      obtain ⟨g, hg, htook⟩ := he.weakSlot e.outerLabel (f.stroke kind) ⟨rfl, rfl⟩ rfl below
      obtain ⟨g', hg', hread, hg'kind⟩ := ih hitems htook.clear
      refine ⟨g', ?_, ?_, fun _ => hg'kind (Or.inl htook.kind)⟩
      · rw [Expr.lexemesAll, List.flatMap_cons, List.foldl_append, List.foldl_cons, hstroke, hg,
          hg']
      · rw [hread, htook.alternative, htook.finished, Expr.coreAll]
        simp [stroke]

theorem choice {kind : Group} (hkind : kind ≠ .seq) {items : List Expr}
    (hlength : 2 ≤ items.length) (h : ∀ e ∈ items, Reads e) : Reads (.group kind items) := by
  have hstrength : kind.strength = 1 := by
    cases kind with
    | seq => exact absurd rfl hkind
    | first => rfl
    | longest => rfl
  refine of_whole (by simp [Expr.strength, hstrength]) fun below => ?_
  match items, hlength with
  | first :: second :: rest, _ =>
      obtain ⟨hfirst, hrest⟩ := List.forall_mem_cons.mp h
      obtain ⟨g, hg, htook⟩ := hfirst.weakSlot first.outerLabel empty ⟨rfl, rfl⟩ rfl below
      obtain ⟨g', hg', hread, hg'kind⟩ := strokes hkind hrest htook.clear below
      refine ⟨g', ?_, ?_⟩
      · rw [Expr.lexemes, hstrength, Expr.lexemesAll, Lexeme.join, List.foldl_append, hg, hg']
      · rw [htook.alternative, htook.finished] at hread
        have hfinished : g'.finished ≠ [] := by
          intro hnil
          have hcount := congrArg List.length hread
          simp [hnil, Expr.coreAll, empty] at hcount
        rw [finish_eq_group hfinished, hread, hg'kind (Or.inr (by simp)), Expr.core]
        simp [Expr.coreAll, empty]

end Reads

mutual

theorem reads : (e : Expr) → e.readable = true → Reads e
  | .terminal t, _ => .of_part fun f below _ => by
      simp [Expr.lexemes, step, Expr.ofWord_form, Expr.core]
  | .reference rule, h => .of_part fun f below _ => by
      simp [Expr.lexemes, step, Expr.ofWord_name h, Expr.core]
  | .group kind items, h => by
      obtain ⟨hlength, hitems⟩ := Expr.readable_group.mp h
      cases kind with
      | seq => exact .sequence hlength (readsAll items hitems)
      | first => exact .choice (by decide) hlength (readsAll items hitems)
      | longest => exact .choice (by decide) hlength (readsAll items hitems)
  | .unary kind item, h => by
      have hitem := reads item (Expr.readable_unary.mp h).2
      cases kind with
      | oneOrMore => exact hitem.repeated
      | followedBy => exact hitem.lookahead (by decide)
      | notFollowedBy => exact hitem.lookahead (by decide)
  | .label _ item, h =>
      have hitem := reads item h
      ⟨hitem.part, hitem.alternative, hitem.whole⟩

theorem readsAll : (items : List Expr) → Expr.readableAll items = true → ∀ e ∈ items, Reads e
  | [], _ => by simp
  | e :: rest, h => by
      obtain ⟨-, he, hrest⟩ := Expr.readableAll_cons.mp h
      exact List.forall_mem_cons.mpr ⟨reads e he, readsAll rest hrest⟩

end

end Frame

namespace Expr

def spelling (e : Expr) : List Char := e.lexemes.flatMap Lexeme.spell

theorem core_eq_of_lexemes_eq {e e' : Expr} (h : e.readable = true) (h' : e'.readable = true)
    (heq : e.lexemes = e'.lexemes) : e.core = e'.core := by
  obtain ⟨f, hf, hcore⟩ := (Frame.reads e h).whole []
  obtain ⟨g, hg, hcore'⟩ := (Frame.reads e' h').whole []
  rw [heq, hg] at hf
  rw [← hcore, ← hcore', (List.cons.inj hf).1]

theorem spelling_eq_iff {e e' : Expr} (h : e.readable = true) (h' : e'.readable = true) :
    e.spelling = e'.spelling ↔ e.core = e'.core := by
  constructor
  · intro heq
    have hlexemes := (sound_lexemes e h).eq_of_flatMap_eq (sound_lexemes e' h') heq
    exact core_eq_of_lexemes_eq h h' hlexemes
  · intro heq
    rw [spelling, spelling, ← lexemes_core e, ← lexemes_core e', heq]

end Expr

end BottomUpPeg
