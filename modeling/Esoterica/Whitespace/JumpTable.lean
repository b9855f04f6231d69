import Std.Data.HashMap
import Esoterica.Journal
import Esoterica.Whitespace.Token

namespace Esoterica.Whitespace

-- Looks for `x` between the indices `lo` and `hi` of an ascending array.
def searchAscending (xs : Array Nat) (x lo hi : Nat) : Bool :=
  if _h : lo < hi then
    let mid := (lo + hi) / 2
    match xs[mid]? with
    | none => false
    | some y =>
      if y = x then true
      else if y < x then searchAscending xs x (mid + 1) hi
      else searchAscending xs x lo mid
  else false
termination_by hi - lo

-- A jump may go forward, so the table is made from the whole program before it runs.
structure JumpTable where
  -- the offset where the last definition of each label ends
  targets : Std.HashMap Label Nat
  -- the offsets where instructions end, ascending
  boundaries : Array Nat

namespace JumpTable

def empty : JumpTable :=
  ⟨∅, #[]⟩

-- Defines a label; an earlier definition is forgotten.
def define (table : JumpTable) (label : Label) (offset : Nat) : JumpTable :=
  { table with targets := table.targets.insert label offset }

def add (table : JumpTable) (t : Token) : JumpTable :=
  let table := { table with boundaries := table.boundaries.push t.stop }
  match t.instr with
  | ⟨.label, label⟩ => table.define label t.stop
  | _ => table

def ofTokens (tokens : List Token) : JumpTable :=
  tokens.foldl add empty

-- The offset where the definition of a label ends.
def target? (table : JumpTable) (label : Label) : Option Nat :=
  table.targets[label]?

def isBoundary (table : JumpTable) (offset : Nat) : Bool :=
  searchAscending table.boundaries offset 0 table.boundaries.size

def size (table : JumpTable) : Nat :=
  table.targets.size

def isEmpty (table : JumpTable) : Bool :=
  table.targets.isEmpty

def defineEntries (filter : Filter) (table : JumpTable) (label : Label) (offset : Nat) :
    List Entry :=
  filter.entry .trace (fun _ => s!"label {label.text} at {offset}") ++
    match table.target? label with
    | none => []
    | some previous =>
      if previous = offset then []
      else filter.entry .debug fun _ => s!"label redefined, {previous} replaced by {offset}"

def addEntries (filter : Filter) (table : JumpTable) (t : Token) : List Entry :=
  match t.instr with
  | ⟨.label, label⟩ => table.defineEntries filter label t.stop
  | _ => []

def entries (filter : Filter) (s : Scan) : List Entry :=
  let (table, notes) := s.tokens.foldl
    (fun (table, notes) t => (add table t, notes ++ addEntries filter table t)) (empty, [])
  match s.fault with
  | some _ => notes
  | none =>
    let count := table.boundaries.size
    let labels := table.size
    notes ++ filter.entry .debug fun _ => s!"label scan: {count} tokens, {labels} labels"

end JumpTable

end Esoterica.Whitespace
