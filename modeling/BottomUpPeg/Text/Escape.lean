import BottomUpPeg.Text.Visible

namespace BottomUpPeg.Text

def codePointEscape (c : Char) : List Char :=
  ['\\', 'u', '\x7b'] ++ Nat.toDigits 16 c.toNat ++ ['\x7d']

/-- Both quotes and the backslash are escaped, so a spelling never ends a quoted text early. -/
def escape (c : Char) : List Char :=
  if c = '\x00' then ['\\', '0']
  else if c = '\t' then ['\\', 't']
  else if c = '\r' then ['\\', 'r']
  else if c = '\n' then ['\\', 'n']
  else if c = '\'' ∨ c = '"' ∨ c = '\\' then ['\\', c]
  else if isHidden c then codePointEscape c
  else [c]

def escapeInString (c : Char) : List Char :=
  if c = '\'' then [c] else escape c

def quoted (s : String) : String :=
  String.ofList ('"' :: s.toList.flatMap escapeInString ++ ['"'])

end BottomUpPeg.Text
