import BottomUpPeg.Proofs.Linking
import BottomUpPeg.Proofs.Reading

namespace BottomUpPeg

namespace Expr

mutual

def parts : Expr → List Expr
  | .terminal t => [.terminal t]
  | .reference rule => [.reference rule]
  | .group kind items => .group kind items :: partsAll items
  | .unary kind item => .unary kind item :: item.parts
  | .label name item => .label name item :: item.parts

def partsAll : List Expr → List Expr
  | [] => []
  | e :: rest => e.parts ++ partsAll rest

end

end Expr

namespace Draft

variable {d : Draft} {e : Expr}

structure Writes (d : Draft) (e : Expr) : Prop where
  form : d.form.toList = e.spelling
  strength : d.body.strength = e.strength

theorem Writes.toList_wrapped (h : d.Writes e) (limit : Nat) :
    (d.wrapped limit).toList =
      (Lexeme.bracketed limit e.strength e.lexemes).flatMap Lexeme.spell := by
  rw [wrapped, Lexeme.bracketed, h.strength]
  split
  · simp [h.form, Expr.spelling, Lexeme.spell]
  · simp [h.form, Expr.spelling]

theorem Writes.toList_slotForm (h : d.Writes e) (parent : Nat) (name : Option String) :
    (slotForm parent name d).toList =
      (Lexeme.slot parent name e.strength e.lexemes).flatMap Lexeme.spell := by
  cases name with
  | none => exact h.toList_wrapped parent
  | some n => simp [slotForm, Lexeme.slot, h.toList_wrapped, Lexeme.spell]

end Draft

namespace Arena

variable {arena arena' : Arena} {e : Expr} {i j : Nat}

def Holds (arena : Arena) (i : Nat) (e : Expr) : Prop :=
  i < arena.size ∧ (arena.draft i).Writes e

def Extends (arena arena' : Arena) : Prop :=
  arena.size ≤ arena'.size ∧ ∀ i < arena.size, arena'.draft i = arena.draft i

structure Canonical (arena : Arena) : Prop where
  written : ∀ i < arena.size, ∃ e : Expr, e.readable = true ∧ (arena.draft i).Writes e
  distinct : ∀ i < arena.size, ∀ j < arena.size,
    (arena.draft i).form = (arena.draft j).form → i = j

structure Adds (arena : Arena) (e : Expr) (i : Nat) (arena' : Arena) : Prop where
  canonical : arena'.Canonical
  kept : arena.Extends arena'
  holds : arena'.Holds i e

theorem Extends.refl (arena : Arena) : arena.Extends arena := ⟨Nat.le_refl _, fun _ _ => rfl⟩

theorem Extends.trans {arena'' : Arena} (h : arena.Extends arena') (h' : arena'.Extends arena'') :
    arena.Extends arena'' :=
  ⟨Nat.le_trans h.1 h'.1, fun i hi => (h'.2 i (Nat.lt_of_lt_of_le hi h.1)).trans (h.2 i hi)⟩

theorem Holds.mono (h : arena.Holds i e) (hkept : arena.Extends arena') : arena'.Holds i e :=
  ⟨Nat.lt_of_lt_of_le h.1 hkept.1, by rw [hkept.2 i h.1]; exact h.2⟩

theorem Canonical.eq_iff_core_eq (h : arena.Canonical) {e' : Expr} (he : e.readable = true)
    (he' : e'.readable = true) (hi : arena.Holds i e) (hj : arena.Holds j e') :
    i = j ↔ e.core = e'.core := by
  rw [← Expr.spelling_eq_iff he he', ← hi.2.form, ← hj.2.form, String.toList_inj]
  exact ⟨fun hij => by rw [hij], h.distinct i hi.1 j hj.1⟩

theorem canonical_empty : Canonical #[] := ⟨by simp, by simp⟩

theorem draft_of_find? {form : String} (h : arena.find? form = some i) :
    (arena.draft i).form = form := by
  rw [find?, List.findIdx?_eq_some_iff_getElem] at h
  obtain ⟨hi, hform, -⟩ := h
  have hi : i < arena.size := by simpa using hi
  simpa [draft, hi] using hform

theorem ne_of_find?_eq_none {form : String} (h : arena.find? form = none) (hi : i < arena.size) :
    (arena.draft i).form ≠ form := by
  rw [find?, List.findIdx?_eq_none_iff] at h
  have hdraft : arena.draft i ∈ arena.toList := by simp [draft, hi]
  simpa using h _ hdraft

theorem extends_push (arena : Arena) (d : Draft) : arena.Extends (arena.push d) := by
  refine ⟨by simp, fun i hi => ?_⟩
  rw [draft_push, if_neg (Nat.ne_of_lt hi)]

theorem extends_add (arena : Arena) (body : Body) : arena.Extends (arena.add body).2 := by
  rw [add]
  split
  · exact .refl arena
  · exact extends_push arena _

theorem Canonical.push (h : arena.Canonical) {d : Draft} (he : e.readable = true)
    (hd : d.Writes e) (hnew : ∀ i < arena.size, (arena.draft i).form ≠ d.form) :
    Canonical (arena.push d) := by
  have hlast : draft (arena.push d) arena.size = d := by
    rw [draft_push, if_pos rfl]
  have hold := (extends_push arena d).2
  have hlt : ∀ {i}, i < (arena.push d).size → i < arena.size ∨ i = arena.size := by
    intro i hi
    exact Nat.lt_succ_iff_lt_or_eq.mp (by simpa using hi)
  refine ⟨fun i hi => ?_, fun i hi j hj hij => ?_⟩
  · rcases hlt hi with hi | rfl
    · rw [hold i hi]
      exact h.written i hi
    · rw [hlast]
      exact ⟨e, he, hd⟩
  · rcases hlt hi with hi | rfl <;> rcases hlt hj with hj | rfl
    · rw [hold i hi, hold j hj] at hij
      exact h.distinct i hi j hj hij
    · rw [hold i hi, hlast] at hij
      exact absurd hij (hnew i hi)
    · rw [hold j hj, hlast] at hij
      exact absurd hij.symm (hnew j hj)
    · rfl

theorem add_adds (h : arena.Canonical) (he : e.readable = true) {body : Body}
    (hform : (arena.bodyForm body).toList = e.spelling) (hstrength : body.strength = e.strength) :
    Adds arena e (arena.add body).1 (arena.add body).2 := by
  rw [add]
  split
  · rename_i i hfound
    have hi := lt_size_of_find? hfound
    have hwritten : (arena.draft i).form.toList = e.spelling := by
      rw [draft_of_find? hfound, hform]
    -- The draft was written for an expression with the same text, hence with the same core.
    obtain ⟨x, hx, hwrites⟩ := h.written i hi
    have hcore : x.core = e.core :=
      (Expr.spelling_eq_iff hx he).mp (hwrites.form.symm.trans hwritten)
    refine ⟨h, .refl arena, hi, hwritten, ?_⟩
    rw [hwrites.strength, ← x.strength_core, hcore, e.strength_core]
  · rename_i hnone
    have hwrites : Draft.Writes ⟨body, arena.bodyForm body⟩ e := ⟨hform, hstrength⟩
    refine ⟨h.push he hwrites fun i => ne_of_find?_eq_none hnone, extends_push arena _, by simp, ?_⟩
    rw [draft_push, if_pos rfl]
    exact hwrites

def Fills (arena : Arena) (items : List Expr) (slots : List Slot) : Prop :=
  List.Forall₂ (fun e s => s.label = e.outerLabel ∧ arena.Holds s.clause e) items slots

theorem toList_slotForm (slot : Slot) (hlabel : slot.label = e.outerLabel)
    (h : arena.Holds slot.clause e) (parent : Nat) :
    (arena.slotForm parent slot).toList =
      (Lexeme.slot parent e.outerLabel e.strength e.lexemes).flatMap Lexeme.spell := by
  rw [slotForm, hlabel]
  exact h.2.toList_slotForm parent e.outerLabel

theorem Fills.map_slotForm {items : List Expr} {slots : List Slot} (h : arena.Fills items slots)
    (parent : Nat) :
    (slots.map (arena.slotForm parent)).map String.toList =
      (Expr.lexemesAll parent items).map (·.flatMap Lexeme.spell) := by
  induction h with
  | nil => rfl
  | cons hs _ ih =>
      rw [List.map_cons, List.map_cons, Expr.lexemesAll, List.map_cons, ih,
        toList_slotForm _ hs.1 hs.2 parent]

theorem toList_groupForm {items : List Expr} {slots : List Slot} (h : arena.Fills items slots)
    (kind : Group) :
    (arena.bodyForm (.shape (.group kind slots))).toList = (Expr.group kind items).spelling := by
  rw [Expr.spelling, Expr.lexemes, Lexeme.flatMap_spell_join, ← h.map_slotForm]
  cases kind <;>
    simp only [bodyForm, shapeForm, Shape.strength, Group.strength, String.toList_intercalate] <;>
    rfl

theorem toList_unaryForm {item : Expr} (h : arena.Holds i item) (kind : Unary) :
    (arena.bodyForm (.shape (.unary kind ⟨i, item.outerLabel⟩))).toList =
      (Expr.unary kind item).spelling := by
  have hslot := toList_slotForm ⟨i, item.outerLabel⟩ rfl h 3
  cases kind <;>
    simp [bodyForm, shapeForm, Shape.strength, Expr.spelling, Expr.lexemes, hslot, Lexeme.spell]

mutual

theorem intern_adds : (e : Expr) → (arena : Arena) → arena.Canonical → e.readable = true →
    Adds arena e (intern e arena).1 (intern e arena).2
  | .terminal t, arena, h, he => by
      rw [intern]
      refine add_adds h he ?_ rfl
      simp [bodyForm, shapeForm, Expr.spelling, Expr.lexemes, Lexeme.spell]
  | .reference rule, arena, h, he => by
      rw [intern]
      refine add_adds h he ?_ rfl
      simp [bodyForm, Expr.spelling, Expr.lexemes, Lexeme.spell]
  | .group kind items, arena, h, he => by
      have hitems := (Expr.readable_group.mp he).2
      obtain ⟨hcanonical, hkept, hfills⟩ := internSlots_fills items arena h hitems
      have hadd := add_adds hcanonical he (toList_groupForm hfills kind) (by cases kind <;> rfl)
      rw [intern]
      exact ⟨hadd.canonical, hkept.trans hadd.kept, hadd.holds⟩
  | .unary kind item, arena, h, he => by
      have hitem := intern_adds item arena h (Expr.readable_unary.mp he).2
      have hadd := add_adds hitem.canonical he (toList_unaryForm hitem.holds kind) rfl
      rw [intern]
      exact ⟨hadd.canonical, hitem.kept.trans hadd.kept, hadd.holds⟩
  | .label name item, arena, h, he => by
      have hitem := intern_adds item arena h he
      rw [intern]
      exact ⟨hitem.canonical, hitem.kept, hitem.holds.1, hitem.holds.2.form, hitem.holds.2.strength⟩

theorem internSlots_fills : (items : List Expr) → (arena : Arena) → arena.Canonical →
    Expr.readableAll items = true →
    (internSlots items arena).2.Canonical ∧ arena.Extends (internSlots items arena).2 ∧
      (internSlots items arena).2.Fills items (internSlots items arena).1
  | [], arena, h, _ => ⟨h, .refl arena, .nil⟩
  | e :: rest, arena, h, hitems => by
      obtain ⟨-, hreadable, hrest⟩ := Expr.readableAll_cons.mp hitems
      have he := intern_adds e arena h hreadable
      obtain ⟨hcanonical, hkept, hfills⟩ := internSlots_fills rest _ he.canonical hrest
      rw [internSlots]
      exact ⟨hcanonical, he.kept.trans hkept, .cons ⟨rfl, he.holds.mono hkept⟩ hfills⟩

end

mutual

def numbered : Expr → Arena → List (Expr × Nat)
  | .terminal t, arena => [(.terminal t, (intern (.terminal t) arena).1)]
  | .reference rule, arena => [(.reference rule, (intern (.reference rule) arena).1)]
  | .group kind items, arena =>
      (.group kind items, (intern (.group kind items) arena).1) :: numberedSlots items arena
  | .unary kind item, arena =>
      (.unary kind item, (intern (.unary kind item) arena).1) :: numbered item arena
  | .label name item, arena =>
      (.label name item, (intern (.label name item) arena).1) :: numbered item arena

def numberedSlots : List Expr → Arena → List (Expr × Nat)
  | [], _ => []
  | e :: rest, arena => numbered e arena ++ numberedSlots rest (intern e arena).2

end

def numberedAll : List Definition → Arena → List (Expr × Nat)
  | [], _ => []
  | d :: rest, arena => numbered d.body arena ++ numberedAll rest (intern d.body arena).2

mutual

theorem map_fst_numbered : (e : Expr) → (arena : Arena) → (numbered e arena).map Prod.fst = e.parts
  | .terminal _, _ => rfl
  | .reference _, _ => rfl
  | .group _ items, arena => by
      rw [numbered, List.map_cons, map_fst_numberedSlots items arena, Expr.parts]
  | .unary _ item, arena => by
      rw [numbered, List.map_cons, map_fst_numbered item arena, Expr.parts]
  | .label _ item, arena => by
      rw [numbered, List.map_cons, map_fst_numbered item arena, Expr.parts]

theorem map_fst_numberedSlots : (items : List Expr) → (arena : Arena) →
    (numberedSlots items arena).map Prod.fst = Expr.partsAll items
  | [], _ => rfl
  | e :: rest, arena => by
      rw [numberedSlots, List.map_append, map_fst_numbered e arena, map_fst_numberedSlots rest,
        Expr.partsAll]

end

theorem map_fst_numberedAll (ds : List Definition) (arena : Arena) :
    (numberedAll ds arena).map Prod.fst = ds.flatMap (·.body.parts) := by
  induction ds generalizing arena with
  | nil => rfl
  | cons d rest ih =>
      rw [numberedAll, List.map_append, map_fst_numbered, ih, List.flatMap_cons]

def Records (arena : Arena) (pairs : List (Expr × Nat)) : Prop :=
  ∀ p ∈ pairs, p.1.readable = true ∧ arena.Holds p.2 p.1

theorem Records.mono {pairs : List (Expr × Nat)} (h : arena.Records pairs)
    (hkept : arena.Extends arena') : arena'.Records pairs :=
  fun p hp => ⟨(h p hp).1, (h p hp).2.mono hkept⟩

theorem Records.cons {pairs : List (Expr × Nat)} (he : e.readable = true) (hi : arena.Holds i e)
    (h : arena.Records pairs) : arena.Records ((e, i) :: pairs) :=
  List.forall_mem_cons.mpr ⟨⟨he, hi⟩, h⟩

theorem Records.append {pairs more : List (Expr × Nat)} (h : arena.Records pairs)
    (hmore : arena.Records more) : arena.Records (pairs ++ more) :=
  List.forall_mem_append.mpr ⟨h, hmore⟩

mutual

theorem records_numbered : (e : Expr) → (arena : Arena) → arena.Canonical → e.readable = true →
    Records (intern e arena).2 (numbered e arena)
  | .terminal t, arena, h, he =>
      .cons he (intern_adds (.terminal t) arena h he).holds (by simp [Records])
  | .reference rule, arena, h, he =>
      .cons he (intern_adds (.reference rule) arena h he).holds (by simp [Records])
  | .group kind items, arena, h, he => by
      have hitems := (Expr.readable_group.mp he).2
      refine .cons he (intern_adds _ arena h he).holds ?_
      rw [intern]
      exact (records_numberedSlots items arena h hitems).mono (extends_add _ _)
  | .unary kind item, arena, h, he => by
      have hitem := (Expr.readable_unary.mp he).2
      refine .cons he (intern_adds _ arena h he).holds ?_
      rw [intern]
      exact (records_numbered item arena h hitem).mono (extends_add _ _)
  | .label name item, arena, h, he =>
      .cons he (intern_adds (.label name item) arena h he).holds (records_numbered item arena h he)

theorem records_numberedSlots : (items : List Expr) → (arena : Arena) → arena.Canonical →
    Expr.readableAll items = true →
    Records (internSlots items arena).2 (numberedSlots items arena)
  | [], _, _, _ => by simp [Records, numberedSlots]
  | e :: rest, arena, h, hitems => by
      obtain ⟨-, hreadable, hrest⟩ := Expr.readableAll_cons.mp hitems
      have he := intern_adds e arena h hreadable
      obtain ⟨-, hkept, -⟩ := internSlots_fills rest _ he.canonical hrest
      have hfirst := records_numbered e arena h hreadable
      rw [internSlots, numberedSlots]
      exact (hfirst.mono hkept).append (records_numberedSlots rest _ he.canonical hrest)

end

theorem records_numberedAll {ds : List Definition} (hds : ∀ d ∈ ds, d.body.readable = true)
    (h : arena.Canonical) :
    (internAll ds arena).2.Canonical ∧ arena.Extends (internAll ds arena).2 ∧
      (internAll ds arena).2.Records (numberedAll ds arena) := by
  induction ds generalizing arena with
  | nil => exact ⟨h, .refl arena, by simp [Records, numberedAll]⟩
  | cons d rest ih =>
      obtain ⟨hd, hrest⟩ := List.forall_mem_cons.mp hds
      have hbody := intern_adds d.body arena h hd
      obtain ⟨hcanonical, hkept, hrecords⟩ := ih hrest hbody.canonical
      have hfirst := records_numbered d.body arena h hd
      exact ⟨hcanonical, hbody.kept.trans hkept, (hfirst.mono hkept).append hrecords⟩

theorem same_number_iff_same_core {ds : List Definition}
    (hds : ∀ d ∈ ds, d.body.readable = true) :
    (numberedAll ds #[]).map Prod.fst = ds.flatMap (·.body.parts) ∧
      ∀ p ∈ numberedAll ds #[], ∀ q ∈ numberedAll ds #[], p.2 = q.2 ↔ p.1.core = q.1.core := by
  obtain ⟨hcanonical, -, hrecords⟩ := records_numberedAll hds canonical_empty
  refine ⟨map_fst_numberedAll ds #[], fun p hp q hq => ?_⟩
  obtain ⟨hreadable, hholds⟩ := hrecords p hp
  obtain ⟨hreadable', hholds'⟩ := hrecords q hq
  exact hcanonical.eq_iff_core_eq hreadable hreadable' hholds hholds'

def relabeled : List Definition := [
  .plain "S" (.label "whole" (.seq [.reference "N[0]", .label "a" (.label "b" (.char ' '))])),
  .plain "T" (.oneOrMore (.seq [.reference "N[0]", .label "a" (.char ' ')])),
  .plain "N[0]" (.label "a" (.first [.literal "x y", .reference "T"]))]

theorem relabeled_share_a_number :
    (∀ d ∈ relabeled, d.body.readable = true) ∧
      ∃ e₁ e₂, (e₁, 2) ∈ numberedAll relabeled #[] ∧ (e₂, 2) ∈ numberedAll relabeled #[] ∧
        e₁ ≠ e₂ ∧ e₁.core = e₂.core := by
  have hreadable : ∀ d ∈ relabeled, d.body.readable = true := by decide +kernel
  have h₁ :
      (Expr.label "whole" (.seq [.reference "N[0]", .label "a" (.label "b" (.char ' '))]), 2) ∈
        numberedAll relabeled #[] := by
    decide +kernel
  have h₂ : (Expr.seq [.reference "N[0]", .label "a" (.char ' ')], 2) ∈
      numberedAll relabeled #[] := by
    decide +kernel
  have hsame := (same_number_iff_same_core hreadable).2 _ h₁ _ h₂
  exact ⟨hreadable, _, _, h₁, h₂, by decide +kernel, hsame.mp rfl⟩

/-- The name of the second rule reads like a sequence of the two rules after it. -/
def spacedName : List Definition := [
  .plain "S" (.reference "A B"),
  .plain "A B" (.char 'c'),
  .plain "A" (.char 'a'),
  .plain "B" (.char 'b'),
  .plain "T" (.seq [.reference "A", .reference "B"])]

theorem spaced_name_is_merged :
    ∃ e₁ e₂ i, (e₁, i) ∈ numberedAll spacedName #[] ∧ (e₂, i) ∈ numberedAll spacedName #[] ∧
      e₁.core ≠ e₂.core := by
  refine ⟨.reference "A B", .seq [.reference "A", .reference "B"], 0, ?_, ?_, ?_⟩ <;> decide +kernel

end Arena

end BottomUpPeg
