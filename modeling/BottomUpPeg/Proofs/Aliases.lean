import BottomUpPeg.Proofs.Faithful

namespace BottomUpPeg.Arena

variable {arena : Arena} {roots : List (String × Nat)}

def Aliases (arena : Arena) (roots : List (String × Nat)) (rule next : String) : Prop :=
  ∃ root, roots.lookup rule = some root ∧ (arena.draft root).body = .reference next

structure Closes (arena : Arena) (roots : List (String × Nat)) (chain : List String) : Prop where
  aliases : chain.IsChain (arena.Aliases roots)
  returns : ∃ front last, chain = front ++ [last] ∧ last ∈ front

inductive Follows (arena : Arena) (roots : List (String × Nat)) :
    List String → Nat → Except GrammarError (Nat × Linked) → Prop
  | shape {chain : List String} {i : Nat} {s : Shape} : (arena.draft i).body = .shape s →
      Follows arena roots chain i (.ok (i, ⟨s, (arena.draft i).form⟩))
  | again {chain : List String} {i : Nat} {rule : String} :
      (arena.draft i).body = .reference rule → rule ∈ chain →
        Follows arena roots chain i (.error (.aliasCycle (chain ++ [rule])))
  | onward {chain : List String} {i root : Nat} {rule : String}
      {outcome : Except GrammarError (Nat × Linked)} :
      (arena.draft i).body = .reference rule → rule ∉ chain → roots.lookup rule = some root →
        Follows arena roots (chain ++ [rule]) root outcome → Follows arena roots chain i outcome

theorem isChain_concat {chain : List String} {i : Nat} {rule : String}
    (hr : (arena.draft i).body = .reference rule) (hchain : chain.IsChain (arena.Aliases roots))
    (hlast : ∀ rule ∈ chain.getLast?, roots.lookup rule = some i) :
    (chain ++ [rule]).IsChain (arena.Aliases roots) := by
  refine List.isChain_append.mpr ⟨hchain, List.isChain_singleton _, fun x hx y hy => ?_⟩
  cases hy
  exact ⟨i, hlast x hx, hr⟩

namespace Follows

variable {chain : List String} {i : Nat} {outcome outcome' : Except GrammarError (Nat × Linked)}

theorem unique (h : arena.Follows roots chain i outcome)
    (h' : arena.Follows roots chain i outcome') : outcome = outcome' := by
  induction h with
  | shape hs =>
      cases h' with
      | shape hs' => rw [hs] at hs'; cases hs'; rfl
      | again hr _ => rw [hs] at hr; cases hr
      | onward hr _ _ _ => rw [hs] at hr; cases hr
  | again hr hmem =>
      cases h' with
      | shape hs => rw [hr] at hs; cases hs
      | again hr' _ => rw [hr] at hr'; cases hr'; rfl
      | onward hr' hnot _ _ => rw [hr] at hr'; cases hr'; exact absurd hmem hnot
  | onward hr hnot hroot _ ih =>
      cases h' with
      | shape hs => rw [hr] at hs; cases hs
      | again hr' hmem => rw [hr] at hr'; cases hr'; exact absurd hmem hnot
      | onward hr' _ hroot' hrest =>
          rw [hr] at hr'
          cases hr'
          rw [hroot] at hroot'
          cases hroot'
          exact ih hrest

theorem closes {e : GrammarError} (h : arena.Follows roots chain i (.error e))
    (hchain : chain.IsChain (arena.Aliases roots))
    (hlast : ∀ rule ∈ chain.getLast?, roots.lookup rule = some i) :
    ∃ added, e = .aliasCycle (chain ++ added) ∧ arena.Closes roots (chain ++ added) := by
  generalize ho : (Except.error e : Except GrammarError (Nat × Linked)) = o at h
  induction h with
  | shape => cases ho
  | @again chain i rule hr hmem =>
      cases ho
      exact ⟨[rule], rfl, isChain_concat hr hchain hlast, chain, rule, rfl, hmem⟩
  | @onward chain i root rule _ hr _ hroot _ ih =>
      obtain ⟨added, he, hcloses⟩ := ih (isChain_concat hr hchain hlast) (by simpa using hroot) ho
      rw [List.append_assoc] at he hcloses
      exact ⟨rule :: added, he, hcloses⟩

end Follows

end BottomUpPeg.Arena
