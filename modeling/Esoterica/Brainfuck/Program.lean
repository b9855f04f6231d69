import Esoterica.Brainfuck.Command
import Esoterica.Text.Utf8

namespace Esoterica.Brainfuck

inductive Fault where
  | unbalancedBracket (offset : Nat)
  -- the move at `offset` left the tape
  | pointerOffTape (offset : Nat)
  -- the pointer was off the tape when a command was to be executed
  | noCell (pointer : UInt64)
  deriving DecidableEq, Repr

def tapeLength : Nat := 32767

def Fault.message : Fault → String
  | .unbalancedBracket offset => s!"unbalanced bracket at {offset}"
  | .pointerOffTape offset => s!"pointer moved off the tape at {offset}"
  | .noCell pointer => s!"index out of bounds: the len is {tapeLength} but the index is {pointer}"

-- Goes through the commands from offset `i` on. `opened` holds the offsets of the brackets that
-- are still open, the innermost first, and `partners` the pairs found so far.
def matchBrackets (i : Nat) (opened : List Nat) (partners : Array Nat) :
    List Command → Except Fault (Array Nat)
  | [] =>
    match opened with
    | [] => .ok partners
    | last :: _ => .error (.unbalancedBracket last)
  | .loop :: rest => matchBrackets (i + 1) (i :: opened) partners rest
  | .repeat :: rest =>
    match opened with
    | [] => .error (.unbalancedBracket i)
    | start :: opened =>
      matchBrackets (i + 1) opened ((partners.setIfInBounds start i).setIfInBounds i start) rest
  | _ :: rest => matchBrackets (i + 1) opened partners rest

structure Program where
  code : Array Command
  -- the offset of the other bracket of its pair for each bracket, and 0 for every other command
  partners : Array Nat

namespace Program

def ofCommands (commands : List Command) : Except Fault Program :=
  (matchBrackets 0 [] (Array.replicate commands.length 0) commands).map fun partners =>
    ⟨commands.toArray, partners⟩

-- Reads a text as a program; its brackets have to be balanced.
def ofText (text : List Char) : Except Fault Program :=
  ofCommands ((Text.Utf8.encode text).map Command.ofByte)

def partner (p : Program) (offset : Nat) : Nat :=
  p.partners.getD offset 0

end Program

end Esoterica.Brainfuck
