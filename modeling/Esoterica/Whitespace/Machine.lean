import Std.Data.ExtTreeMap
import Esoterica.Console.Basic
import Esoterica.Progress
import Esoterica.Text.Blank
import Esoterica.Whitespace.JumpTable

namespace Esoterica.Whitespace

open Text

inductive Fault where
  -- an instruction that cannot be read, or a jump into the middle of one
  | malformed (offset : Nat)
  | undefinedLabel (label : Label)
  | stackUnderflow
  | returnOutsideCall
  | undefinedAddress (address : Int64)
  | divisionByZero
  | notANumber
  | notACharacter (value : Int64)
  | endOfInput
  deriving DecidableEq, Repr

def Fault.message : Fault → String
  | .malformed offset => s!"malformed instruction at {offset}"
  | .undefinedLabel label => "undefined label " ++ label.text
  | .stackUnderflow => "stack underflow"
  | .returnOutsideCall => "return outside of a call"
  | .undefinedAddress address => "undefined heap address " ++ Decimal.text address
  | .divisionByZero => "division by zero"
  | .notANumber => "input is not a number"
  | .notACharacter value => Decimal.text value ++ " is not a character"
  | .endOfInput => "unexpected end of input"

inductive Stop where
  -- the text has been read to its end
  | atEnd
  | exited
  -- a slice of instructions is over
  | interrupted
  deriving DecidableEq, Repr

structure Program where
  source : Source
  jumps : JumpTable

-- Makes the jump table of a text, which has to be free of faults.
def Program.ofSource (source : Source) : Except ScanFault Program :=
  (tokens? source).map fun tokens => ⟨source, .ofTokens tokens⟩

-- Numbers at addresses. An address without a number is undefined.
abbrev Heap := Std.ExtTreeMap Int64 Int64

structure Machine where
  -- operands, the top first
  stack : List Int64 := []
  -- ends of the calls that have not returned, the innermost first
  calls : List Nat := []
  heap : Heap := ∅
  -- where reading goes on
  cursor : Nat := 0
  -- how many instructions have been completed, as far as slices count them
  ticks : UInt64 := 0

inductive Outcome (κ : Type) where
  | done (machine : Machine) (console : κ)
  | exit (machine : Machine) (console : κ)
  | fault (fault : Fault) (machine : Machine) (console : κ)

namespace Machine

variable {κ : Type}

-- Goes on after the instruction that ends at `target`.
def seek (p : Program) (target : Nat) (m : Machine) (c : κ) : Outcome κ :=
  if p.jumps.isBoundary target then .done { m with cursor := target + 1 } c
  else .fault (.malformed target) m c

def jump (p : Program) (label : Label) (m : Machine) (c : κ) : Outcome κ :=
  match p.jumps.target? label with
  | some target => seek p target m c
  | none => .fault (.undefinedLabel label) m c

-- Takes two operands, the right one first, and puts their combination back.
def binary (f : Int64 → Int64 → Except Fault Int64) (m : Machine) (c : κ) : Outcome κ :=
  match m.stack with
  | right :: left :: rest =>
    match f left right with
    | .ok value => .done { m with stack := value :: rest } c
    | .error fault => .fault fault { m with stack := rest } c
  | _ => .fault .stackUnderflow { m with stack := [] } c

def unary (f : Int64 → Machine → Outcome κ) (m : Machine) (c : κ) : Outcome κ :=
  match m.stack with
  | value :: rest => f value { m with stack := rest }
  | [] => .fault .stackUnderflow m c

def quotient (left right : Int64) : Except Fault Int64 :=
  if right = 0 then .error .divisionByZero else .ok (left / right)

-- The remainder of `quotient`, which has the sign of `left`.
def remainder (left right : Int64) : Except Fault Int64 :=
  if right = 0 then .error .divisionByZero else .ok (left % right)

variable [Console κ]

def exec (p : Program) (stop : Nat) (i : Instr) (m : Machine) (c : κ) : Outcome κ :=
  match i with
  | ⟨.push, value⟩ => .done { m with stack := value :: m.stack } c
  | ⟨.dup, _⟩ =>
    match m.stack with
    | value :: _ => .done { m with stack := value :: m.stack } c
    | [] => .fault .stackUnderflow m c
  | ⟨.copy, depth⟩ =>
    match if 0 ≤ depth.toInt then m.stack[depth.toInt.toNat]? else none with
    | some value => .done { m with stack := value :: m.stack } c
    | none => .fault .stackUnderflow m c
  | ⟨.swap, _⟩ =>
    match m.stack with
    | first :: second :: rest => .done { m with stack := second :: first :: rest } c
    | _ => .fault .stackUnderflow m c
  | ⟨.pop, _⟩ => unary (fun _ m => .done m c) m c
  | ⟨.slide, count⟩ =>
    -- a negative count drops nothing
    unary (fun value m =>
      if count.toInt.toNat ≤ m.stack.length then
        .done { m with stack := value :: m.stack.drop count.toInt.toNat } c
      else .fault .stackUnderflow m c) m c
  | ⟨.add, _⟩ => binary (fun left right => .ok (left + right)) m c
  | ⟨.sub, _⟩ => binary (fun left right => .ok (left - right)) m c
  | ⟨.mul, _⟩ => binary (fun left right => .ok (left * right)) m c
  | ⟨.div, _⟩ => binary quotient m c
  | ⟨.mod, _⟩ => binary remainder m c
  | ⟨.store, _⟩ =>
    unary (fun value m =>
      unary (fun address m => .done { m with heap := m.heap.insert address value } c) m c) m c
  | ⟨.retr, _⟩ =>
    unary (fun address m =>
      match m.heap[address]? with
      | some value => .done { m with stack := value :: m.stack } c
      | none => .fault (.undefinedAddress address) m c) m c
  | ⟨.label, _⟩ => .done m c
  | ⟨.call, label⟩ => jump p label { m with calls := stop :: m.calls } c
  | ⟨.jmp, label⟩ => jump p label m c
  | ⟨.jz, label⟩ => unary (fun value m => if value = 0 then jump p label m c else .done m c) m c
  | ⟨.jn, label⟩ => unary (fun value m => if value < 0 then jump p label m c else .done m c) m c
  | ⟨.ret, _⟩ =>
    match m.calls with
    | target :: rest => seek p target { m with calls := rest } c
    | [] => .fault .returnOutsideCall m c
  | ⟨.exit, _⟩ => .exit { m with cursor := p.source.size } c
  | ⟨.outchar, _⟩ =>
    unary (fun value m =>
      match scalar? value with
      | some char => .done m (Console.emit c char)
      | none => .fault (.notACharacter value) m c) m c
  | ⟨.outnum, _⟩ =>
    unary (fun value m => .done m (Console.emitAll c (Decimal.ofInt value.toInt))) m c
  | ⟨.readchar, _⟩ =>
    unary (fun address m =>
      match Console.readChar c with
      | (some char, c) => .done { m with heap := m.heap.insert address (codeOf char) } c
      | (none, c) => .fault .endOfInput m c) m c
  | ⟨.readnum, _⟩ =>
    unary (fun address m =>
      match Console.readLine c with
      | (some line, c) =>
        match Decimal.readInt64 (trim line) with
        | .ok value => .done { m with heap := m.heap.insert address value } c
        | .error _ => .fault .notANumber m c
      | (none, c) => .fault .endOfInput m c) m c

-- Counts a completed instruction. With a period other than 0 a slice is over whenever the count
-- is a multiple of the period.
def tick (period : UInt64) (m : Machine) (c : κ) :
    Progress (Machine × κ) (Except Fault Stop) :=
  if period = 0 then .next (m, c)
  else
    let m := { m with ticks := m.ticks + 1 }
    if m.ticks % period = 0 then .stop (.ok .interrupted) (m, c) else .next (m, c)

-- Each instruction is read from the text at the moment when it is executed.
def step (p : Program) (period : UInt64) (s : Machine × κ) :
    Progress (Machine × κ) (Except Fault Stop) :=
  let (m, c) := s
  match nextToken? p.source m.cursor with
  | .error fault => .stop (.error (.malformed fault.offset)) ({ m with cursor := p.source.size }, c)
  | .ok none => .stop (.ok .atEnd) (m, c)
  | .ok (some t) =>
    match exec p t.stop t.instr { m with cursor := t.next } c with
    | .done m c => tick period m c
    | .exit m c => .stop (.ok .exited) (m, c)
    | .fault fault m c => .stop (.error fault) (m, c)

def run (p : Program) (period : UInt64) (bound : Nat) (m : Machine) (c : κ) :
    Option (Except Fault Stop × Machine × κ) :=
  runFor (step p period) bound (m, c)

def jumpEntries (filter : Filter) (p : Program) (label : Label) : List Entry :=
  match p.jumps.target? label with
  | some target =>
    filter.entry .debug fun _ => s!"jump to {label.text} at {target}"
  | none => []

def entries (filter : Filter) (p : Program) (m : Machine) : List Entry :=
  match nextToken? p.source m.cursor with
  | .error _ => []
  | .ok none =>
    filter.entry .debug fun _ =>
      let count := m.stack.length
      s!"end of source, {count} values left on the stack"
  | .ok (some t) =>
    filter.entry .trace (fun _ =>
      "[" ++ String.ofList (Decimal.padded 4 t.stop) ++ "] " ++ t.instr.opcode.mnemonic ++ " " ++
        t.instr.opcode.kind.quoted t.instr.operand ++ " " ++ Decimal.listText m.stack.reverse) ++
    match t.instr with
    | ⟨.label, label⟩ => filter.entry .trace fun _ => "passing label " ++ label.text
    | ⟨.call, label⟩ => jumpEntries filter p label
    | ⟨.jmp, label⟩ => jumpEntries filter p label
    | ⟨.jz, label⟩ => if m.stack.head? = some 0 then jumpEntries filter p label else []
    | ⟨.jn, label⟩ => if m.stack.head?.any (· < 0) then jumpEntries filter p label else []
    | ⟨.exit, _⟩ => filter.entry .debug fun _ => s!"exit at {t.stop}"
    | _ => []

def runLogged (filter : Filter) (p : Program) (period : UInt64) (bound : Nat) (m : Machine)
    (c : κ) : Option (Except Fault Stop × Machine × κ) :=
  runFor (fun (m, c) => step p period (m, Console.noteAll c (entries filter p m))) bound (m, c)

end Machine

end Esoterica.Whitespace
