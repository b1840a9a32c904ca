import BottomUpPeg.Grammar.Compile

namespace BottomUpPeg.Sample

def arithmetic : Source where
  definitions := [
    .plain "Sum" (.first [
      .label "add" (.seq [.reference "Sum", .char '+', .reference "Num"]),
      .reference "Num"]),
    .plain "Num" (.label "num" (.oneOrMore (.charRange '0' '9')))]
  lexical := none

def precedence : Source where
  definitions := [
    .leveled "E" 0 (.label "add" (.seq [.reference "E", .char '+', .reference "E[1]"])),
    .leveled "E" 1 (.first [
      .label "mul" (.seq [.reference "E[1]", .char '*', .reference "E[2]"]),
      .reference "E[2]"]),
    .leveled "E" 2 (.first [
      .seq [.char '(', .reference "E", .char ')'],
      .label "num" (.oneOrMore (.charRange '0' '9'))])]
  lexical := none

def wordList : Source where
  definitions := [
    .plain "Words" (.seq [
      .reference "Word",
      .zeroOrMore (.seq [.oneOrMore (.char ' '), .reference "Word"])]),
    .plain "Word" (.label "word" (.oneOrMore (.charRange 'a' 'z'))),
    .plain "Lexeme" (.first [.reference "Word", .oneOrMore (.char ' ')])]
  lexical := some "Lexeme"

end BottomUpPeg.Sample
