import BottomUpPeg.Proofs.Condensation

namespace BottomUpPeg.Graph

variable {next : Nat → List Nat} {size : Nat}

namespace Tarjan

variable {path seen : List Nat} {s t : Tarjan} {u v w : Nat}

def Entered (t : Tarjan) (v : Nat) : Prop := ∃ i, t.indexOf v = some i

theorem indexOf_enter (hv : v < t.index.size) (u : Nat) :
    (t.enter v).indexOf u = if u = v then some t.count else t.indexOf u :=
  getD_setIfInBounds hv ..

theorem lowOf_enter (hv : v < t.low.size) (u : Nat) :
    (t.enter v).lowOf u = if u = v then t.count else t.lowOf u := getD_setIfInBounds hv ..

theorem isOnStack_enter (hv : v < t.onStack.size) (u : Nat) :
    (t.enter v).isOnStack u = if u = v then true else t.isOnStack u := getD_setIfInBounds hv ..

theorem lowOf_lower (hv : v < t.low.size) (n u : Nat) :
    (t.lower v n).lowOf u = if u = v then min (t.lowOf v) n else t.lowOf u :=
  getD_setIfInBounds hv ..

theorem popTo_append {above below : List Nat} (hv : v ∉ above) :
    popTo v (above ++ v :: below) = (above ++ [v], below) := by
  induction above with
  | nil => simp [popTo]
  | cons w above ih =>
      obtain ⟨hne, hv⟩ := not_or.mp (mt List.mem_cons.mpr hv)
      simp [popTo, Ne.symm hne, ih hv]

def Earlier (t : Tarjan) (u v : Nat) : Prop :=
  ∃ i j, t.indexOf u = some i ∧ t.indexOf v = some j ∧ i < j

/-- What holds while the nodes of a path are still open. A node on the stack that was left leads to
one below it, and a node off the stack belongs to a finished component. -/
structure Invariant (next : Nat → List Nat) (size : Nat) (path : List Nat) (t : Tarjan) : Prop where
  index_size : t.index.size = size
  low_size : t.low.size = size
  onStack_size : t.onStack.size = size
  isOnStack_iff : ∀ v, t.isOnStack v = true ↔ v ∈ t.stack
  entered_iff : ∀ v, t.Entered v ↔ v ∈ t.stack ∨ v ∈ t.components.flatten
  index_lt : ∀ v i, t.indexOf v = some i → i < t.count
  stack_nodup : t.stack.Nodup
  apart : ∀ v ∈ t.stack, v ∉ t.components.flatten
  path_nodup : path.Nodup
  path_subset : ∀ v ∈ path, v ∈ t.stack
  left : ∀ v ∈ t.stack, v ∉ path →
    (∀ w ∈ next v, t.Entered w) ∧ ∃ u ∈ t.stack, t.Earlier u v ∧ Reaches next v u
  condensed : Condensed next t.components

namespace Invariant

theorem start : Invariant next size [] (start size) where
  index_size := Array.size_replicate
  low_size := Array.size_replicate
  onStack_size := Array.size_replicate
  isOnStack_iff := fun v => by
    simp only [isOnStack, Tarjan.start, Array.getElem?_replicate]
    split <;> simp
  entered_iff := fun v => by
    simp only [Entered, indexOf, Tarjan.start, Array.getElem?_replicate]
    split <;> simp
  index_lt := fun v i h => by
    simp only [indexOf, Tarjan.start, Array.getElem?_replicate] at h
    split at h <;> simp at h
  stack_nodup := .nil
  apart := by simp [Tarjan.start]
  path_nodup := .nil
  path_subset := by simp
  left := by simp [Tarjan.start]
  condensed := .nil

variable (h : Invariant next size path t)

include h

theorem lt_size (hv : t.Entered v) : v < size := by
  obtain ⟨i, hi⟩ := hv
  by_contra hlt
  rw [← h.index_size] at hlt
  simp [indexOf, hlt] at hi

theorem not_mem_stack (hv : ¬t.Entered v) : v ∉ t.stack := fun hmem =>
  hv ((h.entered_iff v).mpr (.inl hmem))

theorem entered_enter (hv : v < size) (u : Nat) :
    (t.enter v).Entered u ↔ u = v ∨ t.Entered u := by
  simp only [Entered, indexOf_enter (h.index_size.symm ▸ hv)]
  by_cases heq : u = v
  · simp [heq]
  · simp [heq]

theorem enter (hv : v < size) (hnew : ¬t.Entered v) :
    Invariant next size (v :: path) (t.enter v) := by
  have hindex := indexOf_enter (t := t) (h.index_size.symm ▸ hv)
  have hstack := h.not_mem_stack hnew
  have hkept : ∀ {x i}, t.indexOf x = some i → (t.enter v).indexOf x = some i := by
    intro x i hx
    have hne : x ≠ v := fun heq => hnew (heq ▸ ⟨i, hx⟩)
    rw [hindex, if_neg hne, hx]
  refine
    { index_size := (Array.size_setIfInBounds ..).trans h.index_size
      low_size := (Array.size_setIfInBounds ..).trans h.low_size
      onStack_size := (Array.size_setIfInBounds ..).trans h.onStack_size
      isOnStack_iff := fun u => ?_
      entered_iff := fun u => ?_
      index_lt := fun u i hi => ?_
      stack_nodup := List.nodup_cons.mpr ⟨hstack, h.stack_nodup⟩
      apart := ?_
      path_nodup := List.nodup_cons.mpr ⟨fun hmem => hstack (h.path_subset v hmem), h.path_nodup⟩
      path_subset := List.forall_mem_cons.mpr
        ⟨List.mem_cons_self .., fun u hu => List.mem_cons_of_mem _ (h.path_subset u hu)⟩
      left := ?_
      condensed := h.condensed }
  · rw [isOnStack_enter (h.onStack_size.symm ▸ hv)]
    refine Iff.trans ?_ List.mem_cons.symm
    split
    · rename_i heq
      exact iff_of_true rfl (.inl heq)
    · rename_i hne
      exact (h.isOnStack_iff u).trans (or_iff_right hne).symm
  · rw [h.entered_enter hv, h.entered_iff, ← or_assoc]
    exact or_congr_left List.mem_cons.symm
  · rw [hindex] at hi
    split at hi
    · cases hi
      exact Nat.lt_succ_self _
    · exact Nat.lt_succ_of_lt (h.index_lt u i hi)
  · refine List.forall_mem_cons.mpr ⟨fun hmem => hnew ?_, h.apart⟩
    exact (h.entered_iff v).mpr (.inr hmem)
  · intro u hu hopen
    obtain ⟨hne, hopen⟩ := not_or.mp (mt List.mem_cons.mpr hopen)
    obtain ⟨hnext, x, hx, ⟨i, j, hi, hj, hlt⟩, hreach⟩ :=
      h.left u ((List.mem_cons.mp hu).resolve_left hne) hopen
    refine ⟨fun w hw => (h.entered_enter hv w).mpr (.inr (hnext w hw)), x,
      List.mem_cons_of_mem _ hx, ⟨i, j, hkept hi, hkept hj, hlt⟩, hreach⟩

theorem lower (v n : Nat) : Invariant next size path (t.lower v n) where
  index_size := h.index_size
  low_size := (Array.size_setIfInBounds ..).trans h.low_size
  onStack_size := h.onStack_size
  isOnStack_iff := h.isOnStack_iff
  entered_iff := h.entered_iff
  index_lt := h.index_lt
  stack_nodup := h.stack_nodup
  apart := h.apart
  path_nodup := h.path_nodup
  path_subset := h.path_subset
  left := h.left
  condensed := h.condensed

end Invariant

/-- What a search leaves as it was: it numbers new nodes upwards and pushes them on the stack. -/
structure Grows (t s : Tarjan) : Prop where
  index_eq : ∀ u i, t.indexOf u = some i → s.indexOf u = some i
  count_le : t.count ≤ s.count
  later : ∀ u i, s.indexOf u = some i → ¬t.Entered u → t.count ≤ i
  stack_eq : ∃ above, s.stack = above ++ t.stack ∧ ∀ u ∈ above, ¬t.Entered u

namespace Grows

theorem entered (h : Grows t s) (hu : t.Entered u) : s.Entered u := by
  obtain ⟨i, hi⟩ := hu
  exact ⟨i, h.index_eq u i hi⟩

theorem refl (t : Tarjan) : Grows t t where
  index_eq := fun _ _ h => h
  count_le := Nat.le_refl _
  later := fun _ i h hn => absurd ⟨i, h⟩ hn
  stack_eq := ⟨[], rfl, by simp⟩

theorem trans {r : Tarjan} (h : Grows t s) (h' : Grows s r) : Grows t r where
  index_eq := fun u i hi => h'.index_eq u i (h.index_eq u i hi)
  count_le := h.count_le.trans h'.count_le
  later := by
    intro u i hi hn
    by_cases hu : s.Entered u
    · obtain ⟨j, hj⟩ := hu
      obtain rfl : i = j := Option.some.inj (hi.symm.trans (h'.index_eq u j hj))
      exact h.later u i hj hn
    · exact h.count_le.trans (h'.later u i hi hu)
  stack_eq := by
    obtain ⟨above, hs, hnew⟩ := h.stack_eq
    obtain ⟨more, hr, hnew'⟩ := h'.stack_eq
    refine ⟨more ++ above, by rw [hr, hs, List.append_assoc], fun u hu hold => ?_⟩
    rcases List.mem_append.mp hu with hu | hu
    · exact hnew' u hu (h.entered hold)
    · exact hnew u hu hold

theorem lower (h : Grows t s) (v n : Nat) : Grows t (s.lower v n) :=
  ⟨h.index_eq, h.count_le, h.later, h.stack_eq⟩

end Grows

/-- What the visit of a new node does. The low number that it ends with is that of a node on the
stack before the visit, or else its own, and no edge from what was entered leads below it. -/
structure Visited (next : Nat → List Nat) (size : Nat) (path : List Nat) (t : Tarjan) (v : Nat)
    (s : Tarjan) : Prop where
  invariant : Invariant next size path s
  grows : Grows t s
  low_eq : ∀ u, t.Entered u → s.lowOf u = t.lowOf u
  entered : s.Entered v
  reached : ∀ u, s.Entered u → ¬t.Entered u → Reaches next v u
  low_mem : s.lowOf v = t.count ∨
    ∃ x ∈ t.stack, t.indexOf x = some (s.lowOf v) ∧ Reaches next v x
  low_le : ∀ u, s.Entered u → ¬t.Entered u → ∀ w ∈ next u, w ∈ t.stack →
    ∀ i, t.indexOf w = some i → s.lowOf v ≤ i

/-- A visit under way: the node is entered, and some of its edges have been followed. -/
structure Exploring (next : Nat → List Nat) (size : Nat) (path : List Nat) (t : Tarjan) (v : Nat)
    (seen : List Nat) (s : Tarjan) : Prop where
  before : Invariant next size path t
  new : ¬t.Entered v
  invariant : Invariant next size (v :: path) s
  grows : Grows (t.enter v) s
  low_eq : ∀ u, t.Entered u → s.lowOf u = t.lowOf u
  reached : ∀ u, s.Entered u → ¬t.Entered u → Reaches next v u
  low_mem : s.lowOf v = t.count ∨
    ∃ x ∈ t.stack, t.indexOf x = some (s.lowOf v) ∧ Reaches next v x
  low_le : ∀ u, s.Entered u → ¬t.Entered u → ∀ w ∈ next u, (u = v → w ∈ seen) → w ∈ t.stack →
    ∀ i, t.indexOf w = some i → s.lowOf v ≤ i
  seen_entered : ∀ w ∈ seen, s.Entered w

namespace Exploring

theorem enter (h : Invariant next size path t) (hv : v < size) (hnew : ¬t.Entered v) :
    Exploring next size path t v [] (t.enter v) where
  before := h
  new := hnew
  invariant := h.enter hv hnew
  grows := .refl _
  low_eq := fun u hu => by
    have hne : u ≠ v := fun heq => hnew (heq ▸ hu)
    rw [lowOf_enter (h.low_size.symm ▸ hv), if_neg hne]
  reached := fun u hu hn => by
    rw [((h.entered_enter hv u).mp hu).resolve_right hn]
  low_mem := .inl (by rw [lowOf_enter (h.low_size.symm ▸ hv), if_pos rfl])
  low_le := fun u hu hn w _ hseen => by
    have heq := ((h.entered_enter hv u).mp hu).resolve_right hn
    exact absurd (hseen heq) List.not_mem_nil
  seen_entered := by simp

variable (h : Exploring next size path t v seen s)

include h

theorem lt_size : v < size :=
  h.invariant.lt_size ((h.invariant.entered_iff v).mpr
    (.inl (h.invariant.path_subset v (List.mem_cons_self ..))))

theorem indexOf_self : s.indexOf v = some t.count := by
  refine h.grows.index_eq v _ ?_
  rw [indexOf_enter (h.before.index_size.symm ▸ h.lt_size), if_pos rfl]

theorem indexOf_eq {i : Nat} (hu : t.indexOf u = some i) : s.indexOf u = some i := by
  have hne : u ≠ v := fun heq => h.new (heq ▸ ⟨i, hu⟩)
  refine h.grows.index_eq u i ?_
  rw [indexOf_enter (h.before.index_size.symm ▸ h.lt_size), if_neg hne, hu]

theorem entered (hu : t.Entered u) : s.Entered u := by
  obtain ⟨i, hi⟩ := hu
  exact ⟨i, h.indexOf_eq hi⟩

theorem stack_eq : ∃ above, s.stack = above ++ v :: t.stack ∧ v ∉ above ∧
    ∀ u ∈ above, ¬t.Entered u := by
  obtain ⟨above, hstack, hnew⟩ := h.grows.stack_eq
  refine ⟨above, hstack, fun hv => hnew v hv ?_, fun u hu hold => hnew u hu ?_⟩
  · exact (h.before.entered_enter h.lt_size v).mpr (.inl rfl)
  · exact (h.before.entered_enter h.lt_size u).mpr (.inr hold)

-- A number below that of the node that is visited was given before the visit.
theorem mem_stack {x i : Nat} (hx : x ∈ s.stack) (hi : s.indexOf x = some i) (hlt : i < t.count) :
    x ∈ t.stack ∧ t.indexOf x = some i := by
  have hold : (t.enter v).Entered x := by
    by_contra hnew
    have hle : t.count + 1 ≤ i := h.grows.later x i hi hnew
    omega
  have hne : x ≠ v := by
    rintro rfl
    rw [h.indexOf_self] at hi
    cases hi
    exact absurd hlt (Nat.lt_irrefl _)
  obtain ⟨j, hj⟩ := ((h.before.entered_enter h.lt_size x).mp hold).resolve_left hne
  obtain rfl : j = i := Option.some.inj ((h.indexOf_eq hj).symm.trans hi)
  obtain ⟨above, hstack, _, hnew⟩ := h.stack_eq
  rw [hstack, List.mem_append, List.mem_cons] at hx
  rcases hx with hx | rfl | hx
  · exact absurd ⟨j, hj⟩ (hnew x hx)
  · exact absurd rfl hne
  · exact ⟨hx, hj⟩

theorem low_le_count : s.lowOf v ≤ t.count := by
  rcases h.low_mem with heq | ⟨x, _, hx, _⟩
  · exact Nat.le_of_eq heq
  · exact Nat.le_of_lt (h.before.index_lt x _ hx)

theorem skip (hw : s.Entered w) (hstack : w ∉ s.stack) :
    Exploring next size path t v (seen ++ [w]) s where
  before := h.before
  new := h.new
  invariant := h.invariant
  grows := h.grows
  low_eq := h.low_eq
  reached := h.reached
  low_mem := h.low_mem
  low_le := by
    intro u hu hn x hx hseen hxt i hi
    refine h.low_le u hu hn x hx (fun heq => ?_) hxt i hi
    refine (List.mem_append.mp (hseen heq)).resolve_right fun hxw => hstack ?_
    obtain ⟨above, hs, _⟩ := h.stack_eq
    rw [← List.mem_singleton.mp hxw, hs]
    exact List.mem_append_right _ (List.mem_cons_of_mem _ hxt)
  seen_entered := by
    intro x hx
    rcases List.mem_append.mp hx with hx | hx
    · exact h.seen_entered x hx
    · exact List.mem_singleton.mp hx ▸ hw

theorem back {i : Nat} (hnext : w ∈ next v) (hw : w ∈ s.stack) (hi : s.indexOf w = some i) :
    Exploring next size path t v (seen ++ [w]) (s.lower v i) := by
  have hlow := lowOf_lower (t := s) (h.invariant.low_size.symm ▸ h.lt_size) i
  refine
    { before := h.before
      new := h.new
      invariant := h.invariant.lower v i
      grows := h.grows.lower v i
      low_eq := fun u hu => ?_
      reached := h.reached
      low_mem := ?_
      low_le := ?_
      seen_entered := ?_ }
  · have hne : u ≠ v := fun heq => h.new (heq ▸ hu)
    rw [hlow, if_neg hne, h.low_eq u hu]
  · rw [hlow, if_pos rfl]
    rcases Nat.le_total (s.lowOf v) i with hle | hle
    · rw [Nat.min_eq_left hle]
      exact h.low_mem
    · rw [Nat.min_eq_right hle]
      rcases Nat.lt_or_ge i t.count with hlt | hge
      · obtain ⟨hw, hi⟩ := h.mem_stack hw hi hlt
        exact .inr ⟨w, hw, hi, .single hnext⟩
      · exact .inl (Nat.le_antisymm (hle.trans h.low_le_count) hge)
  · intro u hu hn x hx hseen hxt j hj
    rw [hlow, if_pos rfl]
    by_cases hsame : x = w
    · subst hsame
      obtain rfl : j = i := Option.some.inj ((h.indexOf_eq hj).symm.trans hi)
      exact Nat.min_le_right _ _
    · refine (Nat.min_le_left _ _).trans (h.low_le u hu hn x hx (fun heq => ?_) hxt j hj)
      exact (List.mem_append.mp (hseen heq)).resolve_right fun hxw =>
        hsame (List.mem_singleton.mp hxw)
  · intro x hx
    rcases List.mem_append.mp hx with hx | hx
    · exact h.seen_entered x hx
    · exact List.mem_singleton.mp hx ▸ ⟨i, hi⟩

theorem descend {r : Tarjan} (hnext : w ∈ next v) (hw : ¬s.Entered w)
    (hr : Visited next size (v :: path) s w r) :
    Exploring next size path t v (seen ++ [w]) (r.lower v (r.lowOf w)) := by
  have hlow := lowOf_lower (t := r) (hr.invariant.low_size.symm ▸ h.lt_size) (r.lowOf w)
  have hself : r.lowOf v = s.lowOf v := hr.low_eq v ⟨_, h.indexOf_self⟩
  obtain ⟨above, hstack, _, _⟩ := h.stack_eq
  refine
    { before := h.before
      new := h.new
      invariant := hr.invariant.lower v _
      grows := (h.grows.trans hr.grows).lower v _
      low_eq := fun u hu => ?_
      reached := fun u hu hn => ?_
      low_mem := ?_
      low_le := ?_
      seen_entered := ?_ }
  · have hne : u ≠ v := fun heq => h.new (heq ▸ hu)
    rw [hlow, if_neg hne, hr.low_eq u (h.entered hu), h.low_eq u hu]
  · by_cases hs : s.Entered u
    · exact h.reached u hs hn
    · exact .head hnext (hr.reached u hu hs)
  · rw [hlow, if_pos rfl, hself]
    rcases Nat.le_total (s.lowOf v) (r.lowOf w) with hle | hle
    · rw [Nat.min_eq_left hle]
      exact h.low_mem
    · rw [Nat.min_eq_right hle]
      rcases Nat.lt_or_ge (r.lowOf w) t.count with hlt | hge
      · rcases hr.low_mem with heq | ⟨x, hx, hxi, hreach⟩
        · have hcount : t.count + 1 ≤ s.count := h.grows.count_le
          omega
        · obtain ⟨hx, hxi⟩ := h.mem_stack hx hxi hlt
          exact .inr ⟨x, hx, hxi, .head hnext hreach⟩
      · exact .inl (Nat.le_antisymm (hle.trans h.low_le_count) hge)
  · intro u hu hn x hx hseen hxt j hj
    have hxs : x ∈ s.stack := by
      rw [hstack]
      exact List.mem_append_right _ (List.mem_cons_of_mem _ hxt)
    rw [hlow, if_pos rfl, hself]
    by_cases hs : s.Entered u
    · refine (Nat.min_le_left _ _).trans (h.low_le u hs hn x hx (fun heq => ?_) hxt j hj)
      refine (List.mem_append.mp (hseen heq)).resolve_right fun hxw => ?_
      exact hw (List.mem_singleton.mp hxw ▸ ⟨j, h.indexOf_eq hj⟩)
    · exact (Nat.min_le_right _ _).trans (hr.low_le u hu hs x hx hxs j (h.indexOf_eq hj))
  · intro x hx
    rcases List.mem_append.mp hx with hx | hx
    · exact hr.grows.entered (h.seen_entered x hx)
    · exact List.mem_singleton.mp hx ▸ hr.entered

end Exploring

section Leave

variable (h : Exploring next size path t v (next v) s)

include h

theorem Exploring.later {i : Nat} (hi : s.indexOf u = some i) (hn : ¬t.Entered u) :
    t.count ≤ i := by
  by_cases heq : u = v
  · subst heq
    exact Nat.le_of_eq (Option.some.inj (h.indexOf_self.symm.trans hi))
  · refine (Nat.le_succ _).trans (h.grows.later u i hi fun hold => hn ?_)
    exact ((h.before.entered_enter h.lt_size u).mp hold).resolve_left heq

theorem Exploring.seen_next (hu : u ∈ s.stack) (hn : ¬t.Entered u) : ∀ w ∈ next u, s.Entered w := by
  by_cases heq : u = v
  · subst heq
    exact h.seen_entered
  · refine (h.invariant.left u hu fun hopen => ?_).1
    have hold := h.before.path_subset u ((List.mem_cons.mp hopen).resolve_left heq)
    exact hn ((h.before.entered_iff u).mpr (.inl hold))

-- Some node on the stack before the visit is reached, so the new nodes stay.
theorem Exploring.keep (hlow : s.indexOf v ≠ some (s.lowOf v)) :
    Visited next size path t v s := by
  have hself := h.indexOf_self
  obtain ⟨x, hx, hxi, hreach⟩ := h.low_mem.resolve_left fun heq => hlow (by rw [hself, heq])
  obtain ⟨above, hstack, hv, hnew⟩ := h.stack_eq
  have hxs : x ∈ s.stack := by
    rw [hstack]
    exact List.mem_append_right _ (List.mem_cons_of_mem _ hx)
  have hgrows : Grows t s := by
    refine ⟨fun u i => h.indexOf_eq, (Nat.le_succ _).trans h.grows.count_le, fun u i => h.later,
      above ++ [v], by simp [hstack], fun u hu => ?_⟩
    rcases List.mem_append.mp hu with hu | hu
    · exact hnew u hu
    · exact List.mem_singleton.mp hu ▸ h.new
  refine
    { invariant := { h.invariant with path_nodup := ?_, path_subset := ?_, left := ?_ }
      grows := hgrows
      low_eq := h.low_eq
      entered := ⟨_, hself⟩
      reached := h.reached
      low_mem := .inr ⟨x, hx, hxi, hreach⟩
      low_le := fun u hu hn w hw => h.low_le u hu hn w hw fun heq => heq ▸ hw }
  · exact h.before.path_nodup
  · exact fun u hu => h.invariant.path_subset u (List.mem_cons_of_mem _ hu)
  · intro u hu hopen
    by_cases heq : u = v
    · subst heq
      exact ⟨h.seen_entered, x, hxs,
        ⟨_, _, h.indexOf_eq hxi, hself, h.before.index_lt x _ hxi⟩, hreach⟩
    · exact h.invariant.left u hu fun hmem => hopen ((List.mem_cons.mp hmem).resolve_left heq)

section Pop

variable {above : List Nat} (hstack : s.stack = above ++ v :: t.stack)
  (hnew : ∀ u ∈ above, ¬t.Entered u) (hlow : s.lowOf v = t.count)

include hstack hnew

theorem Exploring.not_entered (hu : u ∈ above ++ [v]) : u ∈ s.stack ∧ ¬t.Entered u := by
  rw [hstack]
  rcases List.mem_append.mp hu with hu | hu
  · exact ⟨List.mem_append_left _ hu, hnew u hu⟩
  · rw [List.mem_singleton.mp hu]
    exact ⟨by simp, h.new⟩

include hlow

theorem Exploring.next_popped (hu : u ∈ above ++ [v]) (hw : w ∈ next u) :
    w ∈ above ++ [v] ∨ w ∈ s.components.flatten := by
  obtain ⟨hus, hun⟩ := h.not_entered hstack hnew hu
  rcases (h.invariant.entered_iff w).mp (h.seen_next hus hun w hw) with hws | hws
  · rw [hstack, List.append_cons, List.mem_append] at hws
    refine .inl (hws.resolve_right fun hwt => ?_)
    obtain ⟨i, hi⟩ := (h.before.entered_iff w).mpr (.inl hwt)
    have hentered := (h.invariant.entered_iff u).mpr (.inl hus)
    have hle := h.low_le u hentered hun w hw (fun heq => heq ▸ hw) hwt i hi
    have hlt := h.before.index_lt w i hi
    omega
  · exact .inr hws

theorem Exploring.reaches_popped {x : Nat} (hu : u ∈ above ++ [v]) (hreach : Reaches next u x) :
    x ∈ above ++ [v] ∨ x ∈ s.components.flatten := by
  induction hreach with
  | refl => exact .inl hu
  | tail _ hstep ih =>
      rcases ih with hmem | hmem
      · exact h.next_popped hstack hnew hlow hmem hstep
      · exact .inr (h.invariant.condensed.mem_of_reaches hmem (.single hstep))

-- By induction on the number of a node: each but the first leads to one with a smaller number.
theorem Exploring.popped_reaches (hu : u ∈ above ++ [v]) : Reaches next u v := by
  obtain ⟨hus, hun⟩ := h.not_entered hstack hnew hu
  obtain ⟨n, hn⟩ := (h.invariant.entered_iff u).mpr (.inl hus)
  induction n using Nat.strong_induction_on generalizing u with
  | _ n ih =>
      by_cases heq : u = v
      · rw [heq]
      · have hclosed : u ∉ v :: path := fun hopen => hun ((h.before.entered_iff u).mpr
          (.inl (h.before.path_subset u ((List.mem_cons.mp hopen).resolve_left heq))))
        obtain ⟨_, x, hx, ⟨i, j, hi, hj, hlt⟩, hreach⟩ := h.invariant.left u hus hclosed
        obtain rfl : n = j := Option.some.inj (hn.symm.trans hj)
        have hmem := (h.reaches_popped hstack hnew hlow hu hreach).resolve_right
          (h.invariant.apart x hx)
        obtain ⟨hxs, hxn⟩ := h.not_entered hstack hnew hmem
        exact hreach.trans (ih i hlt hmem hxs hxn hi)

theorem Exploring.condensed_popped : Condensed next (s.components ++ [above ++ [v]]) := by
  have hnodup := h.invariant.stack_nodup
  rw [hstack, List.append_cons] at hnodup
  have hreached : ∀ {u}, u ∈ above ++ [v] → Reaches next v u := fun {u} hu => by
    obtain ⟨hus, hun⟩ := h.not_entered hstack hnew hu
    exact h.reached u ((h.invariant.entered_iff u).mpr (.inl hus)) hun
  exact h.invariant.condensed.push (List.nodup_append.mp hnodup).1
    (fun u hu => h.invariant.apart u (h.not_entered hstack hnew hu).1)
    (fun u hu w hw => (h.popped_reaches hstack hnew hlow hu).trans (hreached hw))
    (fun u hu w => h.next_popped hstack hnew hlow hu)

end Pop

theorem Exploring.pop (hlow : s.indexOf v = some (s.lowOf v)) :
    Visited next size path t v (s.leave v) := by
  have hself := h.indexOf_self
  have hcount : s.lowOf v = t.count := Option.some.inj (hlow.symm.trans hself)
  obtain ⟨above, hstack, hv, hnew⟩ := h.stack_eq
  have hleave : s.leave v = { s with
      onStack := assign s.onStack (above ++ [v]) false
      stack := t.stack
      components := s.components ++ [above ++ [v]] } := by
    simp only [leave, if_pos hlow, hstack, popTo_append hv]
  have hnodup := h.invariant.stack_nodup
  rw [hstack, List.append_cons] at hnodup
  have hapart : ∀ u ∈ t.stack, u ∉ above ++ [v] := fun u hu hmem =>
    (List.nodup_append.mp hnodup).2.2 u hmem u hu rfl
  have hsub : ∀ u ∈ t.stack, u ∈ s.stack := fun u hu => by
    rw [hstack]
    exact List.mem_append_right _ (List.mem_cons_of_mem _ hu)
  have hflat : ∀ u, u ∈ (s.components ++ [above ++ [v]]).flatten ↔
      u ∈ s.components.flatten ∨ u ∈ above ++ [v] := by simp
  rw [hleave]
  refine
    { invariant :=
        { index_size := h.invariant.index_size
          low_size := h.invariant.low_size
          onStack_size := (size_assign ..).trans h.invariant.onStack_size
          isOnStack_iff := fun u => ?_
          entered_iff := fun u => ?_
          index_lt := h.invariant.index_lt
          stack_nodup := h.before.stack_nodup
          apart := fun u hu hmem => ?_
          path_nodup := h.before.path_nodup
          path_subset := h.before.path_subset
          left := fun u hu hopen => ?_
          condensed := h.condensed_popped hstack hnew hcount }
      grows := ⟨fun u i => h.indexOf_eq, (Nat.le_succ _).trans h.grows.count_le, fun u i => h.later,
        [], rfl, by simp⟩
      low_eq := h.low_eq
      entered := ⟨_, hself⟩
      reached := h.reached
      low_mem := .inl hcount
      low_le := fun u hu hn w hw => h.low_le u hu hn w hw fun heq => heq ▸ hw }
  · rw [isOnStack, getD_assign_self]
    split
    · rename_i hmem
      exact iff_of_false Bool.false_ne_true fun hu => hapart u hu hmem
    · rename_i hmem
      refine (h.invariant.isOnStack_iff u).trans ?_
      rw [hstack, List.append_cons, List.mem_append]
      exact or_iff_right hmem
  · rw [hflat, or_comm (a := u ∈ s.components.flatten), ← or_assoc]
    refine (h.invariant.entered_iff u).trans (or_congr_left ?_)
    rw [hstack, List.append_cons, List.mem_append]
    exact or_comm
  · rcases (hflat u).mp hmem with hmem | hmem
    · exact h.invariant.apart u (hsub u hu) hmem
    · exact hapart u hu hmem
  · have hne : u ≠ v := fun heq => hapart u hu (heq ▸ by simp)
    obtain ⟨hnext, x, hx, ⟨i, j, hi, hj, hlt⟩, hreach⟩ := h.invariant.left u (hsub u hu)
      fun hmem => hopen ((List.mem_cons.mp hmem).resolve_left hne)
    -- What it leads to has a smaller number, and so it is not popped either.
    obtain ⟨k, hk⟩ := (h.before.entered_iff u).mpr (.inl hu)
    obtain rfl : k = j := Option.some.inj ((h.indexOf_eq hk).symm.trans hj)
    have hxt := (h.mem_stack hx hi (hlt.trans (h.before.index_lt u k hk))).1
    exact ⟨hnext, x, hxt, ⟨i, k, hi, hj, hlt⟩, hreach⟩

theorem Exploring.leave : Visited next size path t v (s.leave v) := by
  by_cases hlow : s.indexOf v = some (s.lowOf v)
  · exact h.pop hlow
  · rw [Tarjan.leave, if_neg hlow]
    exact h.keep hlow

end Leave

theorem Exploring.follow {visit : Tarjan → Nat → Tarjan} (h : Exploring next size path t v seen s)
    (hvisit : ∀ r, Invariant next size (v :: path) r → ¬r.Entered w →
      Visited next size (v :: path) r w (visit r w))
    (hw : w ∈ next v) : Exploring next size path t v (seen ++ [w]) (follow visit v s w) := by
  rw [Tarjan.follow]
  cases hindex : s.indexOf w with
  | none =>
      have hnew : ¬s.Entered w := fun ⟨i, hi⟩ => by simp [hindex] at hi
      exact h.descend hw hnew (hvisit s h.invariant hnew)
  | some i =>
      by_cases hstack : s.isOnStack w = true
      · simp only [hstack, if_true]
        exact h.back hw ((h.invariant.isOnStack_iff w).mp hstack) hindex
      · simp only [hstack]
        exact h.skip ⟨i, hindex⟩ fun hmem => hstack ((h.invariant.isOnStack_iff w).mpr hmem)

theorem Exploring.foldl {visit : Tarjan → Nat → Tarjan} {rest : List Nat}
    (hvisit : ∀ r w, w ∈ next v → Invariant next size (v :: path) r → ¬r.Entered w →
      Visited next size (v :: path) r w (visit r w))
    (hsplit : seen ++ rest = next v) (h : Exploring next size path t v seen s) :
    Exploring next size path t v (next v) (rest.foldl (Tarjan.follow visit v) s) := by
  induction rest generalizing seen s with
  | nil => rwa [← hsplit, List.append_nil]
  | cons w rest ih =>
      have hw : w ∈ next v := by simp [← hsplit]
      exact ih (by simp [← hsplit]) (h.follow (fun r => hvisit r w hw) hw)

theorem visit_visited (hb : Bounded next size) {fuel : Nat} (h : Invariant next size path t)
    (hv : v < size) (hnew : ¬t.Entered v) (hfuel : size ≤ path.length + fuel) :
    Visited next size path t v (visit next fuel t v) := by
  induction fuel generalizing path t v with
  | zero =>
      have hlt : ∀ u ∈ v :: path, u < size := List.forall_mem_cons.mpr ⟨hv, fun u hu =>
        h.lt_size ((h.entered_iff u).mpr (.inl (h.path_subset u hu)))⟩
      have hle := length_le_of_nodup (h.enter hv hnew).path_nodup hlt
      rw [List.length_cons] at hle
      omega
  | succ fuel ih =>
      have hvisit : ∀ r w, w ∈ next v → Invariant next size (v :: path) r → ¬r.Entered w →
          Visited next size (v :: path) r w (visit next fuel r w) := fun r w hw hr hrw =>
        ih hr (hb v w hw) hrw (by rw [List.length_cons]; omega)
      rw [visit]
      exact (Exploring.foldl hvisit rfl (.enter h hv hnew)).leave

theorem Invariant.stack_eq_nil (h : Invariant next size [] t) : t.stack = [] := by
  refine List.eq_nil_iff_forall_not_mem.mpr fun v hv => ?_
  obtain ⟨n, hn⟩ := (h.entered_iff v).mpr (.inl hv)
  induction n using Nat.strong_induction_on generalizing v with
  | _ n ih =>
      obtain ⟨_, u, hu, ⟨i, j, hi, hj, hlt⟩, _⟩ := h.left v hv List.not_mem_nil
      obtain rfl : n = j := Option.some.inj (hn.symm.trans hj)
      exact ih i hlt u hu hi

theorem visitNew_spec (hb : Bounded next size) (h : Invariant next size [] t) (hv : v < size) :
    Invariant next size [] (visitNew next size t v) ∧
      ∀ u, u = v ∨ t.Entered u → (visitNew next size t v).Entered u := by
  rw [visitNew]
  cases hindex : t.indexOf v with
  | some i =>
      simp only [Option.isNone_some, Bool.false_eq_true, if_false]
      refine ⟨h, ?_⟩
      rintro u (rfl | hu)
      · exact ⟨i, hindex⟩
      · exact hu
  | none =>
      simp only [Option.isNone_none, if_true]
      have hnew : ¬t.Entered v := fun ⟨i, hi⟩ => by simp [hindex] at hi
      have hvisited := visit_visited hb h hv hnew (Nat.le_add_left size _)
      refine ⟨hvisited.invariant, ?_⟩
      rintro u (rfl | hu)
      · exact hvisited.entered
      · exact hvisited.grows.entered hu

theorem foldl_visitNew (hb : Bounded next size) {vs : List Nat} (hvs : ∀ v ∈ vs, v < size)
    (h : Invariant next size [] t) :
    Invariant next size [] (vs.foldl (visitNew next size) t) ∧
      ∀ u, u ∈ vs ∨ t.Entered u → (vs.foldl (visitNew next size) t).Entered u := by
  induction vs generalizing t with
  | nil => exact ⟨h, by simp⟩
  | cons v vs ih =>
      obtain ⟨hv, hvs⟩ := List.forall_mem_cons.mp hvs
      obtain ⟨hfirst, hentered⟩ := visitNew_spec hb h hv
      obtain ⟨hrest, hall⟩ := ih hvs hfirst
      refine ⟨hrest, fun u hu => hall u ?_⟩
      rcases hu with hu | hu
      · rcases List.mem_cons.mp hu with heq | hu
        · exact .inr (hentered u (.inl heq))
        · exact .inl hu
      · exact .inr (hentered u (.inr hu))

theorem search_invariant (hb : Bounded next size) :
    Invariant next size [] (search next size) ∧ ∀ v < size, (search next size).Entered v := by
  obtain ⟨hinvariant, hall⟩ := foldl_visitNew hb (fun v => List.mem_range.mp) .start
  exact ⟨hinvariant, fun v hv => hall v (.inl (List.mem_range.mpr hv))⟩

end Tarjan

theorem components_condensed (hb : Bounded next size) : Condensed next (components next size) :=
  (Tarjan.search_invariant hb).1.condensed

theorem mem_components (hb : Bounded next size) (v : Nat) :
    v ∈ (components next size).flatten ↔ v < size := by
  obtain ⟨hinv, hall⟩ := Tarjan.search_invariant hb
  have hentered := hinv.entered_iff v
  rw [hinv.stack_eq_nil] at hentered
  refine ⟨fun hv => hinv.lt_size (hentered.mpr (.inr hv)), fun hv => ?_⟩
  exact (hentered.mp (hall v hv)).resolve_left List.not_mem_nil

end BottomUpPeg.Graph
