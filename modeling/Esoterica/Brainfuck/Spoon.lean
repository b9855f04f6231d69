import Esoterica.Journal
import Esoterica.PrefixCode
import Esoterica.Text.Utf8

namespace Esoterica.Brainfuck.Spoon

open Text

-- The run of digits that begins at `offset` stands for no command.
inductive Fault where
  | invalidCode (offset : Nat)
  deriving DecidableEq, Repr

def Fault.message : Fault → String
  | .invalidCode offset => s!"invalid spoon code at {offset}"

def table : List (List Bool × Char) :=
  let o := false
  let i := true
  [([i], '+'),
    ([o, o, o], '-'),
    ([o, i, o], '>'),
    ([o, i, i], '<'),
    ([o, o, i, i], ']'),
    ([o, o, i, o, o], '['),
    ([o, o, i, o, i, o], '.'),
    ([o, o, i, o, i, i, o], ','),
    ([o, o, i, o, i, i, i, i], '\x00')]

def digit? (b : UInt8) : Option Bool :=
  if b = 48 then some false else if b = 49 then some true else none

def digitsFrom (i : Nat) (bytes : List UInt8) : List (Nat × Bool) :=
  (bytes.zipIdx i).filterMap fun (b, offset) => (digit? b).map (offset, ·)

def read (text : List Char) : Except Fault (PrefixCode.Reading Bool Char) :=
  match PrefixCode.decode table (digitsFrom 0 (Utf8.encode text)) with
  | .ok reading => .ok reading
  | .error offset => .error (.invalidCode offset)

-- The Brainfuck text of a program. Digits at the end that make no command are left out.
def decode (text : List Char) : Except Fault (List Char) :=
  (read text).map (·.items)

def entries (filter : Filter) (text : List Char) : List Entry :=
  match read text with
  | .error _ => []
  | .ok reading =>
    if reading.pending.isEmpty then []
    else filter.entry .debug fun _ =>
      let count := reading.pending.length
      s!"spoon: dropping {count} trailing bits"

end Esoterica.Brainfuck.Spoon
