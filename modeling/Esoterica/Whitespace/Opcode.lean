import Esoterica.PrefixCode
import Esoterica.Whitespace.Symbol

namespace Esoterica.Whitespace

open PrefixCode

inductive OperandKind where
  | none
  | number
  | label
  deriving DecidableEq, Repr

inductive Opcode where
  -- stack
  | push | dup | copy | swap | pop | slide
  -- arithmetic
  | add | sub | mul | div | mod
  -- heap
  | store | retr
  -- control
  | label | call | jmp | jz | jn | ret | exit
  -- input and output
  | outchar | outnum | readchar | readnum
  deriving DecidableEq, Repr

namespace Opcode

def all : List Opcode :=
  [push, dup, copy, swap, pop, slide, add, sub, mul, div, mod, store, retr, label, call, jmp, jz,
    jn, ret, exit, outchar, outnum, readchar, readnum]

open Esoterica.Whitespace.Symbol in
def code : Opcode → List UInt8
  | push => [space, space]
  | dup => [space, feed, space]
  | copy => [space, tab, space]
  | swap => [space, feed, tab]
  | pop => [space, feed, feed]
  | slide => [space, tab, feed]
  | add => [tab, space, space, space]
  | sub => [tab, space, space, tab]
  | mul => [tab, space, space, feed]
  | div => [tab, space, tab, space]
  | mod => [tab, space, tab, tab]
  | store => [tab, tab, space]
  | retr => [tab, tab, tab]
  | label => [feed, space, space]
  | call => [feed, space, tab]
  | jmp => [feed, space, feed]
  | jz => [feed, tab, space]
  | jn => [feed, tab, tab]
  | ret => [feed, tab, feed]
  | exit => [feed, feed, feed]
  | outchar => [tab, feed, space, space]
  | outnum => [tab, feed, space, tab]
  | readchar => [tab, feed, tab, space]
  | readnum => [tab, feed, tab, tab]

def mnemonic : Opcode → String
  | push => "push"
  | dup => "dup"
  | copy => "copy"
  | swap => "swap"
  | pop => "pop"
  | slide => "slide"
  | add => "add"
  | sub => "sub"
  | mul => "mul"
  | div => "div"
  | mod => "mod"
  | store => "store"
  | retr => "retr"
  | label => "label"
  | call => "call"
  | jmp => "jmp"
  | jz => "jz"
  | jn => "jn"
  | ret => "ret"
  | exit => "exit"
  | outchar => "outchar"
  | outnum => "outnum"
  | readchar => "readchar"
  | readnum => "readnum"

def kind : Opcode → OperandKind
  | push | copy | slide => .number
  | label | call | jmp | jz | jn => .label
  | _ => .none

def table : List (List UInt8 × Opcode) :=
  all.map fun op => (op.code, op)

-- What a run of symbols is with respect to the instruction table.
def lookup (run : List UInt8) : Match Opcode :=
  PrefixCode.lookup table run

def ofMnemonic? (text : String) : Option Opcode :=
  all.find? (·.mnemonic == text)

end Opcode

end Esoterica.Whitespace
