import BottomUpPeg.Match.TopDown

namespace BottomUpPeg

structure Lexing where
  cuts : List Nat
  lexemes : List Match

namespace Lexing

/-- Where the rule does not match, or takes no characters, one character is skipped, so every cut
lies further on. -/
def scan (g : Grammar) (input : Input) (clause : Nat) : Nat → Nat → Lexing
  | 0, _ => ⟨[], []⟩
  | fuel + 1, pos =>
      if pos < input.size then
        match (g.topDown input clause pos).filter (0 < ·.length) with
        | some m =>
            let rest := scan g input clause fuel (pos + m.length)
            ⟨(pos + m.length) :: rest.cuts, m :: rest.lexemes⟩
        | none =>
            let rest := scan g input clause fuel (pos + 1)
            ⟨(pos + 1) :: rest.cuts, rest.lexemes⟩
      else ⟨[], []⟩

def ofRule (g : Grammar) (input : Input) (rule : Rule) : Lexing :=
  let rest := scan g input rule.clause input.size 0
  ⟨0 :: rest.cuts, rest.lexemes⟩

end Lexing

/-- Without a lexical rule a parse may start everywhere, the end of the input included. -/
def Grammar.lex (g : Grammar) (input : Input) : Lexing :=
  match g.lexical with
  | none => ⟨List.range (input.size + 1), []⟩
  | some rule => Lexing.ofRule g input rule

end BottomUpPeg
