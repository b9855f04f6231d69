
namespace Esoterica.Brainfuck.Ook

def isMark (c : Char) : Bool :=
  c == '.' || c == '?' || c == '!'

-- The command that two marks stand for; two equal question marks stand for none.
def command? : Char × Char → Option Char
  | ('.', '?') => some '>'
  | ('?', '.') => some '<'
  | ('.', '.') => some '+'
  | ('!', '!') => some '-'
  | ('!', '.') => some '.'
  | ('.', '!') => some ','
  | ('!', '?') => some '['
  | ('?', '!') => some ']'
  | _ => none

-- Neighbours in pairs; an odd last one is left out.
def pairs {α : Type} : List α → List (α × α)
  | a :: b :: rest => (a, b) :: pairs rest
  | _ => []

def decode (text : List Char) : List Char :=
  (pairs (text.filter isMark)).filterMap command?

end Esoterica.Brainfuck.Ook
