import BottomUpPeg.Match.Lookup
import Mathlib.Algebra.BigOperators.Group.List.Basic
import Mathlib.Algebra.GroupWithZero.Nat

namespace BottomUpPeg

namespace Terminal

def Takes (input : Input) (pos length : Nat) : Terminal → Prop
  | .chars set => length = 1 ∧ ∃ c, input[pos]? = some c ∧ set.contains c = true
  | .literal text ignoreCase =>
      length = text.toList.length ∧ pos ≤ input.size ∧
        ∀ i expected, text.toList[i]? = some expected → ∃ actual, input[pos + i]? = some actual ∧
          (actual = expected ∨
            ignoreCase = true ∧ Text.lowercase actual = Text.lowercase expected)
  | .nothing => length = 0 ∧ pos ≤ input.size
  | .start => length = 0 ∧ pos = 0

theorem spells_iff (input : Input) (ignoreCase : Bool) (cs : List Char) (pos : Nat) :
    spells input ignoreCase cs pos = true ↔
      ∀ i expected, cs[i]? = some expected → ∃ actual, input[pos + i]? = some actual ∧
        (actual = expected ∨
          ignoreCase = true ∧ Text.lowercase actual = Text.lowercase expected) := by
  induction cs generalizing pos with
  | nil => simp [spells]
  | cons c cs ih =>
      rw [spells]
      constructor
      · intro h i expected hi
        split at h
        · cases h
        · rename_i actual hactual
          simp only [Bool.and_eq_true, Bool.or_eq_true, beq_iff_eq] at h
          cases i with
          | zero =>
              cases hi
              exact ⟨actual, hactual, h.1⟩
          | succ i =>
              rw [show pos + (i + 1) = pos + 1 + i by omega]
              exact (ih (pos + 1)).mp h.2 i expected hi
      · intro h
        obtain ⟨actual, hactual, hsame⟩ := h 0 c rfl
        rw [Nat.add_zero] at hactual
        simp only [hactual, Bool.and_eq_true, Bool.or_eq_true, beq_iff_eq]
        refine ⟨hsame, (ih (pos + 1)).mpr fun i expected hi => ?_⟩
        rw [show pos + 1 + i = pos + (i + 1) by omega]
        exact h (i + 1) expected hi

theorem length?_eq_some_iff (input : Input) (pos length : Nat) (t : Terminal) :
    t.length? input pos = some length ↔ t.Takes input pos length := by
  rw [length?.eq_def]
  by_cases hpos : pos ≤ input.size
  · rw [if_pos hpos]
    cases t with
    | chars set =>
        cases hc : input[pos]? with
        | none => simp [Takes, hc]
        | some c =>
            by_cases hset : set.contains c = true
            · simp only [hset, if_true, Option.some.injEq, Takes, hc]
              exact ⟨fun h => ⟨h.symm, c, rfl, hset⟩, fun h => h.1.symm⟩
            · simp [Takes, hc, hset]
    | literal text ignoreCase =>
        by_cases hs : spells input ignoreCase text.toList pos = true
        · simp only [hs, if_true, Option.some.injEq, Takes]
          exact ⟨fun h => ⟨h.symm, hpos, (spells_iff input ignoreCase _ pos).mp hs⟩,
            fun h => h.1.symm⟩
        · simp only [hs, Bool.false_eq_true, if_false, Takes, reduceCtorEq, false_iff]
          exact fun h => hs ((spells_iff input ignoreCase _ pos).mpr h.2.2)
    | nothing => simp [Takes, hpos, eq_comm]
    | start => by_cases hzero : pos = 0 <;> simp [Takes, hzero, eq_comm]
  · rw [if_neg hpos]
    have hnone : input[pos]? = none := by simp; omega
    cases t with
    | chars set => simp [Takes, hnone]
    | literal text ignoreCase => simp [Takes, hpos]
    | nothing => simp [Takes, hpos]
    | start => simp [Takes]; omega

theorem Takes.le_size {input : Input} {pos length : Nat} {t : Terminal}
    (h : t.Takes input pos length) : pos + length ≤ input.size := by
  cases t with
  | chars set =>
      obtain ⟨rfl, c, hc, _⟩ := h
      obtain ⟨hlt, _⟩ := Array.getElem?_eq_some_iff.mp hc
      exact hlt
  | literal text ignoreCase =>
      obtain ⟨rfl, hpos, hchars⟩ := h
      cases htext : text.toList.length with
      | zero => exact hpos
      | succ n =>
          have hn : n < text.toList.length := by omega
          obtain ⟨actual, hactual, _⟩ := hchars n _ (List.getElem?_eq_getElem hn)
          obtain ⟨hlt, _⟩ := Array.getElem?_eq_some_iff.mp hactual
          omega
  | nothing => exact h.1 ▸ h.2
  | start =>
      obtain ⟨rfl, rfl⟩ := h
      exact Nat.zero_le _

end Terminal

namespace Match

def EndToEnd : Nat → List Match → Prop
  | _, [] => True
  | pos, m :: rest => m.start = pos ∧ EndToEnd m.stop rest

def totalLength (parts : List Match) : Nat := (parts.map (·.length)).sum

/-- A match tree that the grammar allows on the input. -/
inductive WellFormed (g : Grammar) (input : Input) : Match → Prop
  | terminal {c pos length : Nat} {t : Terminal} : g.shape c = .terminal t →
      t.Takes input pos length → WellFormed g input ⟨c, pos, length, 0, []⟩
  | seq {c pos : Nat} {slots : List Slot} {parts : List Match} : g.shape c = .group .seq slots →
      pos ≤ input.size → parts.map (·.clause) = slots.map (·.clause) → EndToEnd pos parts →
      (∀ m ∈ parts, WellFormed g input m) → WellFormed g input ⟨c, pos, totalLength parts, 0, parts⟩
  | choice {c i : Nat} {kind : Group} {slots : List Slot} {slot : Slot} {m : Match} :
      g.shape c = .group kind slots → kind ≠ .seq → slots[i]? = some slot → m.clause = slot.clause →
      WellFormed g input m → WellFormed g input ⟨c, m.start, m.length, i, [m]⟩
  | once {c : Nat} {slot : Slot} {m : Match} : g.shape c = .unary .oneOrMore slot →
      m.clause = slot.clause → WellFormed g input m →
      WellFormed g input ⟨c, m.start, m.length, 0, [m]⟩
  | more {c : Nat} {slot : Slot} {m rest : Match} : g.shape c = .unary .oneOrMore slot →
      m.clause = slot.clause → rest.clause = c → rest.start = m.stop → 0 < m.length →
      0 < rest.length → WellFormed g input m → WellFormed g input rest →
      WellFormed g input ⟨c, m.start, m.length + rest.length, 0, [m, rest]⟩
  | lookahead {c pos : Nat} {kind : Unary} {slot : Slot} : g.shape c = .unary kind slot →
      kind ≠ .oneOrMore → pos ≤ input.size → WellFormed g input ⟨c, pos, 0, 0, []⟩

theorem endToEnd_le {input : Input} {parts : List Match} {pos : Nat} (hpos : pos ≤ input.size)
    (hends : EndToEnd pos parts) (hle : ∀ m ∈ parts, m.stop ≤ input.size) :
    pos + totalLength parts ≤ input.size := by
  induction parts generalizing pos with
  | nil => simpa [totalLength] using hpos
  | cons m rest ih =>
      have hm := hle m (List.mem_cons_self ..)
      have hrest := ih hm hends.2 fun n hn => hle n (List.mem_cons_of_mem _ hn)
      have hstart := hends.1
      simp only [totalLength, stop, List.map_cons, List.sum_cons] at hrest ⊢
      omega

theorem WellFormed.stop_le {g : Grammar} {input : Input} {m : Match} (h : WellFormed g input m) :
    m.stop ≤ input.size := by
  induction h with
  | terminal _ ht => exact ht.le_size
  | seq _ hpos _ hends _ ih => exact endToEnd_le hpos hends ih
  | choice _ _ _ _ _ ih => exact ih
  | once _ _ _ ih => exact ih
  | more _ _ _ hstart _ _ _ _ _ ih =>
      simp only [stop] at hstart ih ⊢
      omega
  | lookahead _ _ hpos => exact hpos

structure Fits (g : Grammar) (input : Input) (k : Key) (m : Match) : Prop where
  clause_eq : m.clause = k.clause
  start_eq : m.start = k.start
  wellFormed : WellFormed g input m

end Match

namespace Look

variable {g : Grammar} {input : Input} {look : Look}

def Sound (g : Grammar) (input : Input) (look : Look) : Prop :=
  ∀ c pos m, pos ≤ input.size → look c pos = some m → m.Fits g input ⟨c, pos⟩

theorem chain_spec (hlook : look.Sound g input) (slots : List Slot) {pos stop : Nat}
    {parts : List Match} (hpos : pos ≤ input.size) (h : look.chain slots pos = some (parts, stop)) :
    parts.map (·.clause) = slots.map (·.clause) ∧ Match.EndToEnd pos parts ∧
      stop = pos + Match.totalLength parts ∧ ∀ m ∈ parts, m.WellFormed g input := by
  induction slots generalizing pos parts with
  | nil =>
      cases h
      simp [Match.EndToEnd, Match.totalLength]
  | cons s slots ih =>
      rw [chain] at h
      split at h
      · cases h
      rename_i m hm
      split at h
      · cases h
      rename_i rest last hrest
      cases h
      obtain ⟨hclause, hstart, hwf⟩ := hlook _ _ _ hpos hm
      obtain ⟨hclauses, hends, hlast, hall⟩ := ih hwf.stop_le hrest
      refine ⟨by simp [hclauses, hclause], ⟨hstart, hends⟩, ?_, ?_⟩
      · simp only at hstart
        simp only [hlast, Match.stop, Match.totalLength, List.map_cons, List.sum_cons]
        omega
      · intro n hn
        rcases List.mem_cons.mp hn with rfl | hn
        · exact hwf
        · exact hall n hn

theorem first_spec (look : Look) (pos : Nat) (slots : List Slot) (i : Nat) {j : Nat} {m : Match}
    (h : look.first pos i slots = some (j, m)) :
    ∃ n slot, j = i + n ∧ slots[n]? = some slot ∧ look slot.clause pos = some m := by
  induction slots generalizing i with
  | nil => cases h
  | cons s slots ih =>
      rw [first] at h
      split at h
      · rename_i hm
        cases h
        exact ⟨0, s, rfl, rfl, hm⟩
      · obtain ⟨n, slot, rfl, hslot, hm⟩ := ih (i + 1) h
        exact ⟨n + 1, slot, by omega, by simpa using hslot, hm⟩

theorem longest_spec (look : Look) (pos : Nat) (slots : List Slot) (i : Nat) {j : Nat} {m : Match}
    (h : look.longest pos i slots = some (j, m)) :
    ∃ n slot, j = i + n ∧ slots[n]? = some slot ∧ look slot.clause pos = some m := by
  induction slots generalizing i j m with
  | nil => cases h
  | cons s slots ih =>
      have later : ∀ {j m}, look.longest pos (i + 1) slots = some (j, m) →
          ∃ n slot, j = i + n ∧ (s :: slots)[n]? = some slot ∧ look slot.clause pos = some m := by
        intro j m hlater
        obtain ⟨n, slot, rfl, hslot, hm⟩ := ih (i + 1) hlater
        exact ⟨n + 1, slot, by omega, by simpa using hslot, hm⟩
      rw [longest] at h
      split at h
      · exact later h
      · rename_i hm _
        cases h
        exact ⟨0, s, rfl, rfl, hm⟩
      · rename_i hm hlater
        split at h <;> cases h
        · exact later hlater
        · exact ⟨0, s, rfl, rfl, hm⟩

theorem choose_fits (hlook : look.Sound g input) {c pos : Nat} {kind : Group} {slots : List Slot}
    (hshape : g.shape c = .group kind slots) (hkind : kind ≠ .seq) (hpos : pos ≤ input.size)
    {i : Nat} {slot : Slot} {m : Match} (hslot : slots[i]? = some slot)
    (hm : look slot.clause pos = some m) : (Match.choose c pos (i, m)).Fits g input ⟨c, pos⟩ := by
  obtain ⟨hclause, rfl, hwf⟩ := hlook _ _ _ hpos hm
  exact ⟨rfl, rfl, .choice hshape hkind hslot hclause hwf⟩

theorem repeated_fits (hlook : look.Sound g input) {c pos : Nat} {slot : Slot}
    {tail : Nat → Option Match}
    (htail : ∀ p m, p ≤ input.size → tail p = some m → m.Fits g input ⟨c, p⟩)
    (hshape : g.shape c = .unary .oneOrMore slot) (hpos : pos ≤ input.size) {m : Match}
    (h : look.repeated tail c slot pos = some m) : m.Fits g input ⟨c, pos⟩ := by
  rw [repeated] at h
  split at h
  · cases h
  rename_i head hhead
  obtain ⟨hclause, rfl, hwf⟩ := hlook _ _ _ hpos hhead
  split at h
  · rename_i hzero
    cases h
    exact ⟨rfl, rfl, hzero ▸ .once hshape hclause hwf⟩
  split at h
  · cases h
    exact ⟨rfl, rfl, .once hshape hclause hwf⟩
  rename_i rest hrest
  obtain ⟨hclause', hstart, hrest⟩ := htail _ _ hwf.stop_le hrest
  split at h
  · cases h
    exact ⟨rfl, rfl, .once hshape hclause hwf⟩
  · cases h
    exact ⟨rfl, rfl, .more hshape hclause hclause' hstart (by omega) (by omega) hwf hrest⟩

end Look

theorem Shape.step_fits {g : Grammar} {input : Input} {look : Look} (hlook : look.Sound g input)
    {c pos : Nat} {tail : Nat → Option Match}
    (htail : ∀ p m, p ≤ input.size → tail p = some m → m.Fits g input ⟨c, p⟩)
    (hpos : pos ≤ input.size) {m : Match}
    (h : (g.shape c).step input look tail c pos = some m) : m.Fits g input ⟨c, pos⟩ := by
  cases hshape : g.shape c with
  | terminal t =>
      rw [hshape, step, Option.map_eq_some_iff] at h
      obtain ⟨length, hlength, rfl⟩ := h
      exact ⟨rfl, rfl, .terminal hshape ((t.length?_eq_some_iff input pos length).mp hlength)⟩
  | group kind slots =>
      cases kind with
      | seq =>
          rw [hshape, step, Option.map_eq_some_iff] at h
          obtain ⟨⟨parts, stop⟩, hchain, rfl⟩ := h
          obtain ⟨hclauses, hends, rfl, hall⟩ := look.chain_spec hlook slots hpos hchain
          refine ⟨rfl, rfl, ?_⟩
          simp only [Nat.add_sub_cancel_left]
          exact .seq hshape hpos hclauses hends hall
      | first =>
          rw [hshape, step, Option.map_eq_some_iff] at h
          obtain ⟨⟨i, m⟩, hfirst, rfl⟩ := h
          obtain ⟨n, slot, rfl, hslot, hm⟩ := look.first_spec pos slots 0 hfirst
          rw [Nat.zero_add]
          exact look.choose_fits hlook hshape (by simp) hpos hslot hm
      | longest =>
          rw [hshape, step, Option.map_eq_some_iff] at h
          obtain ⟨⟨i, m⟩, hlongest, rfl⟩ := h
          obtain ⟨n, slot, rfl, hslot, hm⟩ := look.longest_spec pos slots 0 hlongest
          rw [Nat.zero_add]
          exact look.choose_fits hlook hshape (by simp) hpos hslot hm
  | unary kind slot =>
      rw [hshape] at h
      cases kind with
      | oneOrMore => exact look.repeated_fits hlook htail hshape hpos h
      | followedBy =>
          obtain ⟨_, _, rfl⟩ := Option.map_eq_some_iff.mp h
          exact ⟨rfl, rfl, .lookahead hshape (by simp) hpos⟩
      | notFollowedBy =>
          rw [step] at h
          split at h <;> cases h
          exact ⟨rfl, rfl, .lookahead hshape (by simp) hpos⟩

namespace Grammar

variable {g : Grammar} {input : Input}

theorem repetition_fits {look : Look} (hlook : look.Sound g input) {c : Nat} {slot : Slot}
    (hshape : g.shape c = .unary .oneOrMore slot) (fuel pos : Nat) {m : Match}
    (hpos : pos ≤ input.size) (h : look.repetition c slot fuel pos = some m) :
    m.Fits g input ⟨c, pos⟩ := by
  induction fuel generalizing pos m with
  | zero => cases h
  | succ fuel ih =>
      rw [Look.repetition] at h
      exact look.repeated_fits hlook (fun p m hp hm => ih p hp hm) hshape hpos h

theorem descend_sound (depth : Nat) : Look.Sound g input (g.descend input depth) := by
  induction depth with
  | zero => intro c pos m _ h; cases h
  | succ depth ih =>
      intro c pos m hpos h
      rw [descend] at h
      split at h
      · rename_i slot hshape
        exact repetition_fits ih hshape _ pos hpos h
      · exact Shape.step_fits ih (by simp) hpos h

theorem topDown_sound : Look.Sound g input (g.topDown input) := descend_sound g.size

theorem mapM_fits {f : Nat → Option Match} {pos : Nat}
    (hf : ∀ c m, f c = some m → m.Fits g input ⟨c, pos⟩ ∧ m.length = 0) (slots : List Slot)
    {parts : List Match} (h : slots.mapM (fun s => f s.clause) = some parts) :
    parts.map (·.clause) = slots.map (·.clause) ∧ Match.EndToEnd pos parts ∧
      Match.totalLength parts = 0 ∧ ∀ m ∈ parts, m.WellFormed g input := by
  induction slots generalizing parts with
  | nil =>
      cases h
      simp [Match.EndToEnd, Match.totalLength]
  | cons s slots ih =>
      simp only [List.mapM_cons, Option.bind_eq_bind, Option.bind_eq_some_iff, Option.pure_def,
        Option.some.injEq] at h
      obtain ⟨m, hm, rest, hrest, rfl⟩ := h
      obtain ⟨⟨hclause, hstart, hwf⟩, hzero⟩ := hf _ _ hm
      obtain ⟨hclauses, hends, htotal, hall⟩ := ih hrest
      refine ⟨by simp [hclauses, hclause], ⟨hstart, ?_⟩, ?_, ?_⟩
      · rw [Match.stop, hzero, hstart]
        exact hends
      · simpa [Match.totalLength, hzero] using htotal
      · intro n hn
        rcases List.mem_cons.mp hn with rfl | hn
        · exact hwf
        · exact hall n hn

theorem emptyMatch_fits {pos : Nat} (hpos : pos ≤ input.size) (fuel : Nat) (path : List Nat)
    (c : Nat) {m : Match} (h : g.emptyMatch pos fuel path c = some m) :
    m.Fits g input ⟨c, pos⟩ ∧ m.length = 0 := by
  induction fuel generalizing path c m with
  | zero => cases h
  | succ fuel ih =>
      rw [emptyMatch] at h
      split at h
      · split at h
        · rename_i hshape
          cases h
          exact ⟨⟨rfl, rfl, .terminal hshape ⟨rfl, hpos⟩⟩, rfl⟩
        · rename_i text ignoreCase hshape
          split at h <;> cases h
          rename_i hempty
          have hnil : text.toList = [] := List.isEmpty_iff.mp hempty
          exact ⟨⟨rfl, rfl, .terminal hshape (by simp [Terminal.Takes, hnil, hpos])⟩, rfl⟩
        · cases h
        · rename_i slots hshape
          obtain ⟨parts, hparts, rfl⟩ := Option.map_eq_some_iff.mp h
          obtain ⟨hclauses, hends, htotal, hall⟩ :=
            mapM_fits (fun c m hm => ih (_ :: path) c hm) slots hparts
          exact ⟨⟨rfl, rfl, htotal ▸ .seq hshape hpos hclauses hends hall⟩, rfl⟩
        · rename_i kind slots hkind hshape
          obtain ⟨⟨i, m⟩, hfirst, rfl⟩ := Option.map_eq_some_iff.mp h
          obtain ⟨n, slot, rfl, hslot, hm⟩ := Look.first_spec _ pos slots 0 hfirst
          obtain ⟨⟨hclause, hstart, hwf⟩, hzero⟩ := ih _ _ hm
          have hchoice := Match.WellFormed.choice hshape hkind hslot hclause hwf
          rw [hstart, hzero] at hchoice
          exact ⟨⟨rfl, rfl, by rwa [Nat.zero_add]⟩, rfl⟩
        · rename_i slot hshape
          obtain ⟨m, hm, rfl⟩ := Option.map_eq_some_iff.mp h
          obtain ⟨⟨hclause, hstart, hwf⟩, hzero⟩ := ih _ _ hm
          have honce := Match.WellFormed.once hshape hclause hwf
          rw [hstart, hzero] at honce
          exact ⟨⟨rfl, rfl, honce⟩, rfl⟩
        · rename_i slot hshape
          cases h
          exact ⟨⟨rfl, rfl, .lookahead hshape (by simp) hpos⟩, rfl⟩
        · cases h
      · cases h

def SoundView (g : Grammar) (input : Input) (view : View) : Prop :=
  ∀ k m, view k = some m → m.Fits g input k

theorem lookupWithin_sound {view : View} (hview : SoundView g input view) (fuel : Nat) :
    Look.Sound g input (g.lookupWithin input view fuel) := by
  induction fuel with
  | zero => intro c pos m _ h; cases h
  | succ fuel ih =>
      intro c pos m hpos h
      rw [lookupWithin] at h
      split at h
      · rename_i t hshape
        obtain ⟨length, hlength, rfl⟩ := Option.map_eq_some_iff.mp h
        exact ⟨rfl, rfl, .terminal hshape ((t.length?_eq_some_iff input pos length).mp hlength)⟩
      · rename_i slot hshape
        simp only at h
        split at h <;> cases h
        exact ⟨rfl, rfl, .lookahead hshape (by simp) hpos⟩
      · split at h
        · rename_i m' hm
          cases h
          exact hview _ _ hm
        · split at h
          · exact (emptyMatch_fits hpos _ _ _ h).1
          · cases h

theorem lookup_sound {view : View} (hview : SoundView g input view) :
    Look.Sound g input (g.lookup input view) := lookupWithin_sound hview g.size

theorem evaluate_fits {view : View} (hview : SoundView g input view) {k : Key}
    (hk : k.start ≤ input.size) {m : Match} (h : g.evaluate input view k = some m) :
    m.Fits g input k :=
  Shape.step_fits (lookup_sound hview) (fun p m hp hm => lookup_sound hview _ p m hp hm) hk h

end Grammar

end BottomUpPeg
