import BottomUpPeg.CharSet.Basic

namespace BottomUpPeg

structure Overflow where
  augend : Nat
  addend : Nat
  deriving DecidableEq, Repr

namespace CharSet

def printableCount : Nat := 95

def printable (i : Nat) : Char := Char.ofNat (' '.toNat + i % printableCount)

/-- Each sum `n + k` is taken in a 64-bit word. -/
def searchPrintable (s : CharSet) (n : UInt64) : List Nat → Except Overflow (Option Char)
  | [] => .ok none
  | k :: rest =>
      if n.toNat + k < UInt64.size then
        if s.contains (printable (n.toNat + k)) then .ok (some (printable (n.toNat + k)))
        else searchPrintable s n rest
      else .error ⟨n.toNat, k⟩

/-- The first member stands in for a surrogate. -/
def pick (r : CharRange) (n : UInt64) : Char :=
  let code := r.first.toNat + n.toNat / 7 % (r.last.toNat - r.first.toNat + 1)
  if code.isValidChar then Char.ofNat code else r.first

def sample (s : CharSet) (n : UInt64) : Except Overflow (Option Char) :=
  if s.inverted then searchPrintable s n (List.range printableCount)
  else .ok (s.ranges[n.toNat % max s.ranges.length 1]?.map (pick · n))

end CharSet

end BottomUpPeg
