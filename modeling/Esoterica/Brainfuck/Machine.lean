import Esoterica.Brainfuck.Program
import Esoterica.Console.Basic
import Esoterica.Progress

namespace Esoterica.Brainfuck

structure Machine where
  cells : Vector UInt16 tapeLength := .replicate tapeLength 0
  -- a move may leave it off the tape, and a move left of the first cell wraps around
  pointer : UInt64 := 0
  offset : Nat := 0

namespace Machine

-- The character that a cell stands for; a surrogate becomes U+FFFD.
def charOf (cell : UInt16) : Char :=
  if h : cell.toNat.isValidChar then Char.ofNatAux cell.toNat h else '�'

-- The low sixteen bits of a character's code.
def cellOf (c : Char) : UInt16 :=
  c.toNat.toUInt16

variable {κ : Type}

def advance (m : Machine) (c : κ) : Progress (Machine × κ) (Except Fault Unit) :=
  .next ({ m with offset := m.offset + 1 }, c)

-- Goes on after the bracket that belongs to the one at hand.
def leap (p : Program) (m : Machine) (c : κ) : Progress (Machine × κ) (Except Fault Unit) :=
  .next ({ m with offset := p.partner m.offset + 1 }, c)

-- Moves the pointer, which has to stay on the tape.
def move (pointer : UInt64) (m : Machine) (c : κ) : Progress (Machine × κ) (Except Fault Unit) :=
  let m := { m with pointer }
  if pointer.toNat < tapeLength then advance m c
  else .stop (.error (.pointerOffTape m.offset)) (m, c)

def put (cell : UInt16) (m : Machine) (h : m.pointer.toNat < tapeLength) (c : κ) :
    Progress (Machine × κ) (Except Fault Unit) :=
  advance { m with cells := m.cells.set m.pointer.toNat cell h } c

variable [Console κ]

def exec (p : Program) (command : Command) (m : Machine) (h : m.pointer.toNat < tapeLength)
    (c : κ) : Progress (Machine × κ) (Except Fault Unit) :=
  match command with
  | .right => move (m.pointer + 1) m c
  | .left => move (m.pointer - 1) m c
  | .increment => put (m.cells[m.pointer.toNat] + 1) m h c
  | .decrement => put (m.cells[m.pointer.toNat] - 1) m h c
  | .output => advance m (Console.emit c (charOf m.cells[m.pointer.toNat]))
  | .input =>
    match Console.readChar c with
    | (some char, c) => put (cellOf char) m h c
    | (none, c) => advance m c
  | .loop => if m.cells[m.pointer.toNat] = 0 then leap p m c else advance m c
  | .repeat => if m.cells[m.pointer.toNat] = 0 then advance m c else leap p m c
  | .stop => .stop (.ok ()) (m, c)
  | .comment => advance m c

def step (p : Program) (s : Machine × κ) : Progress (Machine × κ) (Except Fault Unit) :=
  let (m, c) := s
  match p.code[m.offset]? with
  | none => .stop (.ok ()) (m, c)
  | some command =>
    if h : m.pointer.toNat < tapeLength then exec p command m h c
    else .stop (.error (.noCell m.pointer)) (m, c)

def run (p : Program) (bound : Nat) (m : Machine) (c : κ) :
    Option (Except Fault Unit × Machine × κ) :=
  runFor (step p) bound (m, c)

def entries (filter : Filter) (p : Program) (m : Machine) : List Entry :=
  let halted := filter.entry .debug fun _ =>
    s!"brainfuck halted at {m.offset}, pointer {m.pointer}"
  match p.code[m.offset]? with
  | none => halted
  | some .stop => if m.pointer.toNat < tapeLength then halted else []
  | some _ => []

def runLogged (filter : Filter) (p : Program) (bound : Nat) (m : Machine) (c : κ) :
    Option (Except Fault Unit × Machine × κ) :=
  runFor (fun (m, c) => step p (m, Console.noteAll c (entries filter p m))) bound (m, c)

end Machine

end Esoterica.Brainfuck
