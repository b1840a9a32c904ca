import BottomUpPeg.Terminal

namespace BottomUpPeg

/-- How a list of parts is matched: all in order, the first that matches, or the one with the
longest match. -/
inductive Group where
  | seq
  | first
  | longest
  deriving DecidableEq, Repr

inductive Unary where
  | oneOrMore
  | followedBy
  | notFollowedBy
  deriving DecidableEq, Repr

/-- The body of a rule as written; other rules are named. A label names a node of the syntax tree
and does not change what is matched. -/
inductive Expr where
  | terminal (t : Terminal)
  | reference (rule : String)
  | group (kind : Group) (items : List Expr)
  | unary (kind : Unary) (item : Expr)
  | label (name : String) (item : Expr)

namespace Expr

def char (c : Char) : Expr := .terminal (.chars (CharSet.singleton c))

def charRange (a b : Char) : Expr := .terminal (.chars (CharSet.range a b))

def oneOf (chars : String) : Expr := .terminal (.chars (CharSet.ofString chars))

def charSet (set : CharSet) : Expr := .terminal (.chars set)

def anyChar : Expr := .terminal (.chars CharSet.any)

def literal (text : String) : Expr := .terminal (.literal text false)

def literalIgnoringCase (text : String) : Expr := .terminal (.literal text true)

def nothing : Expr := .terminal .nothing

def start : Expr := .terminal .start

def groupOf (kind : Group) : List Expr → Expr
  | [e] => e
  | items => .group kind items

def seq (items : List Expr) : Expr := groupOf .seq items

def first (items : List Expr) : Expr := groupOf .first items

def longest (items : List Expr) : Expr := groupOf .longest items

def oneOrMore (e : Expr) : Expr := .unary .oneOrMore e

def zeroOrMore (e : Expr) : Expr := .group .first [oneOrMore e, nothing]

def optional (e : Expr) : Expr := .group .first [e, nothing]

def followedBy (e : Expr) : Expr := .unary .followedBy e

def notFollowedBy (e : Expr) : Expr := .unary .notFollowedBy e

def children : Expr → List Expr
  | .terminal _ | .reference _ => []
  | .group _ items => items
  | .unary _ item | .label _ item => [item]

def outerLabel : Expr → Option String
  | .label name _ => some name
  | _ => none

def unlabeled : Expr → Expr
  | .label _ item => item.unlabeled
  | e => e

mutual

def beq : Expr → Expr → Bool
  | .terminal s, .terminal t => s == t
  | .reference m, .reference n => m == n
  | .group k xs, .group l ys => k == l && beqAll xs ys
  | .unary k x, .unary l y => k == l && beq x y
  | .label m x, .label n y => m == n && beq x y
  | _, _ => false

def beqAll : List Expr → List Expr → Bool
  | [], [] => true
  | x :: xs, y :: ys => beq x y && beqAll xs ys
  | _, _ => false

end

mutual

theorem beq_eq_true_iff : (a b : Expr) → (a.beq b = true ↔ a = b)
  | .terminal _, b => by cases b <;> simp [beq]
  | .reference _, b => by cases b <;> simp [beq]
  | .group _ xs, b => by
      cases b with
      | group l ys => simp [beq, beqAll_eq_true_iff xs ys]
      | _ => simp [beq]
  | .unary _ x, b => by
      cases b with
      | unary l y => simp [beq, beq_eq_true_iff x y]
      | _ => simp [beq]
  | .label _ x, b => by
      cases b with
      | label n y => simp [beq, beq_eq_true_iff x y]
      | _ => simp [beq]

theorem beqAll_eq_true_iff : (xs ys : List Expr) → (beqAll xs ys = true ↔ xs = ys)
  | [], ys => by cases ys <;> simp [beqAll]
  | x :: xs, ys => by
      cases ys with
      | nil => simp [beqAll]
      | cons y ys => simp [beqAll, beq_eq_true_iff x y, beqAll_eq_true_iff xs ys]

end

instance : DecidableEq Expr := fun a b => decidable_of_iff _ (beq_eq_true_iff a b)

end Expr

end BottomUpPeg
