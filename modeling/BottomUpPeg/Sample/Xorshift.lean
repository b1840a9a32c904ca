namespace BottomUpPeg.Sample

/-- A source of 64-bit words by shifts and exclusive ors. Bits shifted out are lost, and the state
zero is never left. -/
structure Xorshift where
  state : UInt64
  deriving DecidableEq, Repr

namespace Xorshift

def ofSeed (seed : UInt64) : Xorshift := ⟨seed ^^^ 0x853c49e6748fea9b⟩

def advance (x : Xorshift) : Xorshift :=
  let a := x.state ^^^ (x.state <<< 13)
  let b := a ^^^ (a >>> 7)
  ⟨b ^^^ (b <<< 17)⟩

end Xorshift

end BottomUpPeg.Sample
