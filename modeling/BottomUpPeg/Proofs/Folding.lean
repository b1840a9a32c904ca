namespace BottomUpPeg

variable {ε α β : Type} {xs : List α}

theorem foldlM_invariant {f : β → α → Except ε β} {P : β → Prop}
    (hstep : ∀ x ∈ xs, ∀ b b', P b → f b x = .ok b' → P b') {b r : β} (hb : P b)
    (h : xs.foldlM f b = .ok r) : P r := by
  induction xs generalizing b with
  | nil =>
      cases h
      exact hb
  | cons x xs ih =>
      rw [List.foldlM_cons] at h
      cases hx : f b x with
      | error e =>
          rw [hx] at h
          cases h
      | ok b' =>
          rw [hx] at h
          exact ih (fun y hy => hstep y (List.mem_cons_of_mem _ hy))
            (hstep x (List.mem_cons_self ..) b b' hb hx) h

theorem steps_of_foldlM {f : β → α → Except ε β} {R : β → β → Prop} (hrefl : ∀ b, R b b)
    (htrans : ∀ {a b c}, R a b → R b c → R a c)
    (hstep : ∀ x ∈ xs, ∀ b b', f b x = .ok b' → R b b') {b r : β} (h : xs.foldlM f b = .ok r) :
    R b r ∧ ∀ x ∈ xs, ∃ b₁ b₂, R b b₁ ∧ f b₁ x = .ok b₂ ∧ R b₂ r := by
  induction xs generalizing b with
  | nil =>
      cases h
      exact ⟨hrefl _, by simp⟩
  | cons x xs ih =>
      rw [List.foldlM_cons] at h
      cases hx : f b x with
      | error e =>
          rw [hx] at h
          cases h
      | ok b' =>
          rw [hx] at h
          have hfirst := hstep x (List.mem_cons_self ..) b b' hx
          obtain ⟨hr, hxs⟩ := ih (fun y hy => hstep y (List.mem_cons_of_mem _ hy)) h
          refine ⟨htrans hfirst hr, List.forall_mem_cons.mpr ⟨⟨b, b', hrefl b, hx, hr⟩, ?_⟩⟩
          intro y hy
          obtain ⟨b₁, b₂, hbefore, hy, hafter⟩ := hxs y hy
          exact ⟨b₁, b₂, htrans hfirst hbefore, hy, hafter⟩

theorem exists_of_foldlM_error {f : β → α → Except ε β} {b : β} {e : ε}
    (h : xs.foldlM f b = .error e) : ∃ x ∈ xs, ∃ b', f b' x = .error e := by
  induction xs generalizing b with
  | nil => cases h
  | cons x xs ih =>
      rw [List.foldlM_cons] at h
      cases hx : f b x with
      | error e' =>
          rw [hx] at h
          cases h
          exact ⟨x, List.mem_cons_self .., b, hx⟩
      | ok b' =>
          rw [hx] at h
          obtain ⟨y, hy, hfails⟩ := ih h
          exact ⟨y, List.mem_cons_of_mem _ hy, hfails⟩

end BottomUpPeg
