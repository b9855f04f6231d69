import Esoterica.Proofs.Lockstep
import Esoterica.Proofs.Whitespace.JumpTable
import Esoterica.Whitespace.Machine

namespace Esoterica.Whitespace.Indexed

open Text

structure State where
  -- the index of the next instruction
  pc : Nat := 0
  -- operands, the top first
  stack : List Int64 := []
  -- the calls that have not returned, the innermost first
  calls : List Nat := []
  heap : Heap := ∅
  ticks : UInt64 := 0

-- Where control goes when an instruction has succeeded.
inductive Flow where
  | onward
  -- to the instruction after the one at `index`
  | behind (index : Nat)
  | out

-- What a part of an instruction does. When it fails, the changes made before stay.
abbrev Action (κ α : Type) : Type :=
  ExceptT Fault (StateM (State × κ)) α

section Actions

variable {κ : Type}

def pop : Action κ Int64 := do
  let (s, c) ← get
  match s.stack with
  | [] => throw .stackUnderflow
  | value :: rest =>
    set ({ s with stack := rest }, c)
    return value

def push (value : Int64) : Action κ Unit :=
  modify fun (s, c) => ({ s with stack := value :: s.stack }, c)

def store (address value : Int64) : Action κ Unit :=
  modify fun (s, c) => ({ s with heap := s.heap.insert address value }, c)

-- The instruction at `pc` becomes the innermost call.
def enter : Action κ Unit :=
  modify fun (s, c) => ({ s with calls := s.pc :: s.calls }, c)

def jump (code : List Instr) (label : Label) : Action κ Flow :=
  match definition? code label with
  | some index => return .behind index
  | none => throw (.undefinedLabel label)

def combine (f : Int64 → Int64 → Except Fault Int64) : Action κ Flow := do
  let right ← pop
  let left ← pop
  match f left right with
  | .ok value =>
    push value
    return .onward
  | .error fault => throw fault

end Actions

variable {κ : Type} [Console κ]

def perform (code : List Instr) : Instr → Action κ Flow
  | ⟨.push, value⟩ => do
    push value
    return .onward
  | ⟨.dup, _⟩ => do
    let value ← pop
    push value
    push value
    return .onward
  | ⟨.copy, depth⟩ => do
    let (s, _) ← get
    match if depth.toInt < 0 then none else s.stack[depth.toInt.toNat]? with
    | some value =>
      push value
      return .onward
    | none => throw .stackUnderflow
  | ⟨.swap, _⟩ => do
    let (s, c) ← get
    match s.stack with
    | first :: second :: rest =>
      set ({ s with stack := second :: first :: rest }, c)
      return .onward
    | _ => throw .stackUnderflow
  | ⟨.pop, _⟩ => do
    let _ ← pop
    return .onward
  | ⟨.slide, count⟩ => do
    let value ← pop
    let (s, c) ← get
    if s.stack.length < count.toInt.toNat then throw .stackUnderflow
    else
      set ({ s with stack := value :: s.stack.drop count.toInt.toNat }, c)
      return .onward
  | ⟨.add, _⟩ => combine fun left right => .ok (left + right)
  | ⟨.sub, _⟩ => combine fun left right => .ok (left - right)
  | ⟨.mul, _⟩ => combine fun left right => .ok (left * right)
  | ⟨.div, _⟩ => combine fun left right =>
    if right = 0 then .error .divisionByZero else .ok (left / right)
  | ⟨.mod, _⟩ => combine fun left right =>
    if right = 0 then .error .divisionByZero else .ok (left % right)
  | ⟨.store, _⟩ => do
    let value ← pop
    let address ← pop
    store address value
    return .onward
  | ⟨.retr, _⟩ => do
    let address ← pop
    let (s, _) ← get
    match s.heap[address]? with
    | some value =>
      push value
      return .onward
    | none => throw (.undefinedAddress address)
  | ⟨.label, _⟩ => return .onward
  | ⟨.call, label⟩ => do
    enter
    jump code label
  | ⟨.jmp, label⟩ => jump code label
  | ⟨.jz, label⟩ => do
    let value ← pop
    if value = 0 then jump code label else return .onward
  | ⟨.jn, label⟩ => do
    let value ← pop
    if value < 0 then jump code label else return .onward
  | ⟨.ret, _⟩ => do
    let (s, c) ← get
    match s.calls with
    | index :: rest =>
      set ({ s with calls := rest }, c)
      return .behind index
    | [] => throw .returnOutsideCall
  | ⟨.exit, _⟩ => return .out
  | ⟨.outchar, _⟩ => do
    let value ← pop
    match scalar? value with
    | some char =>
      modify fun (s, c) => (s, Console.emit c char)
      return .onward
    | none => throw (.notACharacter value)
  | ⟨.outnum, _⟩ => do
    let value ← pop
    modify fun (s, c) => (s, Console.emitAll c (Decimal.ofInt value.toInt))
    return .onward
  | ⟨.readchar, _⟩ => do
    let address ← pop
    let (s, c) ← get
    let (char?, c) := Console.readChar c
    set (s, c)
    match char? with
    | some char =>
      store address (codeOf char)
      return .onward
    | none => throw .endOfInput
  | ⟨.readnum, _⟩ => do
    let address ← pop
    let (s, c) ← get
    let (line?, c) := Console.readLine c
    set (s, c)
    match line? with
    | some line =>
      match Decimal.readInt64 (trim line) with
      | .ok value =>
        store address value
        return .onward
      | .error _ => throw .notANumber
    | none => throw .endOfInput

-- Counts a completed instruction, and interrupts the run at every multiple of the period.
def tick (period : UInt64) (s : State) (c : κ) : Progress (State × κ) (Except Fault Stop) :=
  if period = 0 then .next (s, c)
  else if (s.ticks + 1) % period = 0 then
    .stop (.ok .interrupted) ({ s with ticks := s.ticks + 1 }, c)
  else .next ({ s with ticks := s.ticks + 1 }, c)

-- An instruction that fails is passed over, like one that goes onward.
def step (code : List Instr) (period : UInt64) (x : State × κ) :
    Progress (State × κ) (Except Fault Stop) :=
  match code[x.1.pc]? with
  | none => .stop (.ok .atEnd) x
  | some i =>
    match (perform code i).run x with
    | (.ok .onward, s, c) => tick period { s with pc := s.pc + 1 } c
    | (.ok (.behind index), s, c) => tick period { s with pc := index + 1 } c
    | (.ok .out, s, c) => .stop (.ok .exited) ({ s with pc := code.length }, c)
    | (.error fault, s, c) => .stop (.error fault) ({ s with pc := s.pc + 1 }, c)

def run (code : List Instr) (period : UInt64) (bound : Nat) (s : State) (c : κ) :
    Option (Except Fault Stop × State × κ) :=
  runFor (step code period) bound (s, c)

def runs (code : List Instr) (period : UInt64) (bounds : List Nat) (s : State) (c : κ) :
    Option (List (Except Fault Stop × State × κ)) :=
  runEach (fun bound (s, c) => run code period bound s c) bounds (s, c)

end Esoterica.Whitespace.Indexed
