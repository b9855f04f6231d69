import Esoterica.Brainfuck.Machine

namespace Esoterica.Brainfuck

-- A command that is neither a bracket nor a comment.
inductive Action where
  | right
  | left
  | increment
  | decrement
  | output
  | input
  | stop

def Command.action? : Command → Option Action
  | right => some .right
  | left => some .left
  | increment => some .increment
  | decrement => some .decrement
  | output => some .output
  | input => some .input
  | stop => some .stop
  | loop | .repeat | comment => none

-- The bytes that say something. All others are comments.
def Command.table : List (UInt8 × Command) :=
  [('>'.toUInt8, right), ('<'.toUInt8, left), ('+'.toUInt8, increment), ('-'.toUInt8, decrement),
    ('.'.toUInt8, output), (','.toUInt8, input), ('['.toUInt8, loop), (']'.toUInt8, .repeat),
    (0, stop)]

def Command.meaning (b : UInt8) : Command :=
  (table.lookup b).getD comment

inductive Block where
  | done
  -- an action, the offset where it stands in the text, and what follows
  | action (offset : Nat) (action : Action) (rest : Block)
  | loop (body rest : Block)

namespace Block

-- Reads commands from offset `i` on, the last one first. Gives the block in front of the first
-- closing bracket without a partner, and for each such bracket the block behind it.
def parseFrom (i : Nat) : List Command → Option (Block × List Block)
  | [] => some (.done, [])
  | command :: commands => do
    let (block, outer) ← parseFrom (i + 1) commands
    match command with
    | .loop =>
      match outer with
      | [] => none
      | rest :: outer => return (.loop block rest, outer)
    | .repeat => return (.done, block :: outer)
    | command =>
      match command.action? with
      | some a => return (.action i a block, outer)
      | none => return (block, outer)

def ofCommands (commands : List Command) : Option Block :=
  match parseFrom 0 commands with
  | some (block, []) => some block
  | _ => none

def ofText (text : List Char) : Option Block :=
  ofCommands ((Text.Utf8.encode text).map Command.meaning)

end Block

-- Cells, and the one at hand.
structure Tape where
  cells : Vector UInt16 tapeLength := .replicate tapeLength 0
  pointer : Fin tapeLength := ⟨0, by decide⟩

namespace Tape

def cell (t : Tape) : UInt16 :=
  t.cells[t.pointer]

def put (t : Tape) (cell : UInt16) : Tape :=
  { t with cells := t.cells.set t.pointer cell }

end Tape

inductive Ending (κ : Type) where
  -- the block has been executed to its end
  | finished (tape : Tape) (console : κ)
  -- the whole program is over, with the pointer on the tape or off it
  | stopped (result : Except Fault Unit) (cells : Vector UInt16 tapeLength) (pointer : UInt64)
      (console : κ)

def Ending.outcome {κ : Type} :
    Ending κ → Except Fault Unit × Vector UInt16 tapeLength × UInt64 × κ
  | finished t c => (.ok (), t.cells, .ofNat t.pointer, c)
  | stopped r cells pointer c => (r, cells, pointer, c)

-- The character with the code in the cell. A surrogate is no character, and U+FFFD is written.
def Tape.char (t : Tape) : Char :=
  if t.cell.toNat < 0xD800 ∨ 0xDFFF < t.cell.toNat then Char.ofNat t.cell.toNat else '\uFFFD'

variable {κ : Type} [Console κ]

-- Performs the action that stands at `offset`.
def Action.perform (offset : Nat) (t : Tape) (c : κ) : Action → Ending κ
  | right =>
    if h : t.pointer + 1 < tapeLength then .finished { t with pointer := ⟨t.pointer + 1, h⟩ } c
    else .stopped (.error (.pointerOffTape offset)) t.cells (.ofNat tapeLength) c
  | left =>
    if 0 < t.pointer.val then
      .finished { t with pointer := ⟨t.pointer - 1, by omega⟩ } c
    else .stopped (.error (.pointerOffTape offset)) t.cells (-1) c
  | increment => .finished (t.put (t.cell + 1)) c
  | decrement => .finished (t.put (t.cell - 1)) c
  | output => .finished t (Console.emit c t.char)
  | input =>
    match Console.readChar c with
    | (some char, c) => .finished (t.put (.ofNat char.toNat)) c
    | (none, c) => .finished t c
  | stop => .stopped (.ok ()) t.cells (.ofNat t.pointer) c

-- What a block comes to, on a tape and at a console.
inductive Block.Exec : Block → Tape → κ → Ending κ → Prop
  | done {t : Tape} {c : κ} : Exec .done t c (.finished t c)
  | next {offset : Nat} {a : Action} {rest : Block} {t t' : Tape} {c c' : κ} {e : Ending κ}
      (h : a.perform offset t c = .finished t' c') (more : Exec rest t' c' e) :
      Exec (.action offset a rest) t c e
  | stop {offset : Nat} {a : Action} {rest : Block} {t : Tape} {c c' : κ}
      {r : Except Fault Unit} {cells : Vector UInt16 tapeLength} {pointer : UInt64}
      (h : a.perform offset t c = .stopped r cells pointer c') :
      Exec (.action offset a rest) t c (.stopped r cells pointer c')
  | skip {body rest : Block} {t : Tape} {c : κ} {e : Ending κ} (h : t.cell = 0)
      (more : Exec rest t c e) : Exec (.loop body rest) t c e
  | again {body rest : Block} {t t' : Tape} {c c' : κ} {e : Ending κ} (h : t.cell ≠ 0)
      (once : Exec body t c (.finished t' c')) (more : Exec (.loop body rest) t' c' e) :
      Exec (.loop body rest) t c e
  | leave {body rest : Block} {t : Tape} {c c' : κ} {r : Except Fault Unit}
      {cells : Vector UInt16 tapeLength} {pointer : UInt64} (h : t.cell ≠ 0)
      (once : Exec body t c (.stopped r cells pointer c')) :
      Exec (.loop body rest) t c (.stopped r cells pointer c')

end Esoterica.Brainfuck
