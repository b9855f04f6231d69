import Esoterica.Console.Basic
import Esoterica.Text.Line

namespace Esoterica

open Text

structure Script where
  unread : List Char
  -- what has been written, the last character first
  written : List Char := []
  journal : Array Entry := #[]

namespace Script

def ofInput (input : String) : Script :=
  { unread := input.toList }

def output (s : Script) : String :=
  String.ofList s.written.reverse

def remaining (s : Script) : String :=
  String.ofList s.unread

def emit (s : Script) (c : Char) : Script :=
  { s with written := c :: s.written }

def emitLine (s : Script) (line : List Char) : Script :=
  { s with written := '\n' :: line.reverse ++ s.written }

def readChar (s : Script) : Option Char × Script :=
  match s.unread with
  | [] => (none, s)
  | c :: rest => (some c, { s with unread := rest })

-- Reads up to a line feed or the end of the input. One carriage return at the end of the line is
-- dropped.
def readLine (s : Script) : Option (List Char) × Script :=
  if s.unread.isEmpty then (none, s)
  else
    let (line, rest) := splitLine s.unread
    (some (dropReturn line), { s with unread := rest.getD [] })

instance : Console Script where
  emit := emit
  readChar := readChar
  readLine := readLine
  note s e := { s with journal := s.journal.push e }

end Script

end Esoterica
