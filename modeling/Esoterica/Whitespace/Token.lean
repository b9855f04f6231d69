import Esoterica.Whitespace.Instr

namespace Esoterica.Whitespace

structure Token where
  instr : Instr
  -- the offset of the symbol that completes the instruction
  stop : Nat

def Token.next (t : Token) : Nat :=
  t.stop + 1

inductive ScanFault where
  -- the text ends inside an instruction
  | unexpectedEnd (offset : Nat)
  -- the symbol at `offset` completes a run that begins no code
  | invalidCode (offset : Nat)
  deriving DecidableEq, Repr

namespace ScanFault

def offset : ScanFault → Nat
  | .unexpectedEnd offset => offset
  | .invalidCode offset => offset

def message : ScanFault → String
  | .unexpectedEnd offset => s!"unexpected end of source at {offset}"
  | .invalidCode offset => s!"unknown command at {offset}"

end ScanFault

-- Reads an operation, of whose code `run` has been read, and the offset of its last symbol.
-- There is none if the text ends between two instructions.
def scanOpcode (source : Source) (run : List UInt8) (pos : Nat) :
    Except ScanFault (Option (Opcode × Nat)) :=
  match _h : nextSymbol? source pos with
  | none => if run.isEmpty then .ok none else .error (.unexpectedEnd source.size)
  | some (offset, b) =>
    match Opcode.lookup (run ++ [b]) with
    | .found op => .ok (some (op, offset))
    | .unfinished => scanOpcode source (run ++ [b]) (offset + 1)
    | .invalid => .error (.invalidCode offset)
termination_by source.size - pos
decreasing_by
  have := le_of_nextSymbol? _h
  omega

-- Reads the symbols up to a line feed, of which `run` has been read, and the offset of that line
-- feed.
def scanOperand (source : Source) (run : List UInt8) (pos : Nat) :
    Except ScanFault (List UInt8 × Nat) :=
  match _h : nextSymbol? source pos with
  | none => .error (.unexpectedEnd source.size)
  | some (offset, b) =>
    if b = Symbol.feed then .ok (run, offset) else scanOperand source (run ++ [b]) (offset + 1)
termination_by source.size - pos
decreasing_by
  have := le_of_nextSymbol? _h
  omega

def nextToken? (source : Source) (pos : Nat) : Except ScanFault (Option Token) :=
  match scanOpcode source [] pos with
  | .error fault => .error fault
  | .ok none => .ok none
  | .ok (some (op, stop)) =>
    if op.kind = .none then .ok (some ⟨⟨op, op.kind.decode []⟩, stop⟩)
    else
      match scanOperand source [] (stop + 1) with
      | .error fault => .error fault
      | .ok (raw, stop) => .ok (some ⟨⟨op, op.kind.decode raw⟩, stop⟩)

theorem le_of_scanOpcode {source : Source} {run : List UInt8} {pos : Nat} {op : Opcode}
    {stop : Nat} (h : scanOpcode source run pos = .ok (some (op, stop))) :
    pos ≤ stop ∧ stop < source.size := by
  fun_induction scanOpcode source run pos with
  | case1 => simp at h
  | case2 => simp at h
  | case3 run pos offset b hb op' _ =>
    have := le_of_nextSymbol? hb
    simp only [Except.ok.injEq, Option.some.injEq, Prod.mk.injEq] at h
    omega
  | case4 run pos offset b hb _ ih =>
    have := le_of_nextSymbol? hb
    have := ih h
    omega
  | case5 => simp at h

theorem le_of_scanOperand {source : Source} {run raw : List UInt8} {pos stop : Nat}
    (h : scanOperand source run pos = .ok (raw, stop)) : pos ≤ stop ∧ stop < source.size := by
  fun_induction scanOperand source run pos with
  | case1 => simp at h
  | case2 run pos offset hb =>
    have := le_of_nextSymbol? hb
    simp only [Except.ok.injEq, Prod.mk.injEq] at h
    omega
  | case3 run pos offset b hb _ ih =>
    have := le_of_nextSymbol? hb
    have := ih h
    omega

theorem le_of_nextToken? {source : Source} {pos : Nat} {t : Token}
    (h : nextToken? source pos = .ok (some t)) : pos ≤ t.stop ∧ t.stop < source.size := by
  unfold nextToken? at h
  cases hop : scanOpcode source [] pos with
  | error fault => simp [hop] at h
  | ok found =>
    cases found with
    | none => simp [hop] at h
    | some found =>
      obtain ⟨op, stop⟩ := found
      have hstop := le_of_scanOpcode hop
      simp only [hop] at h
      split at h
      · simp only [Except.ok.injEq, Option.some.injEq] at h
        subst h
        exact hstop
      · cases hraw : scanOperand source [] (stop + 1) with
        | error fault => simp [hraw] at h
        | ok found =>
          obtain ⟨raw, last⟩ := found
          have hlast := le_of_scanOperand hraw
          simp only [hraw, Except.ok.injEq, Option.some.injEq] at h
          subst h
          simp only
          omega

-- All that can be read of a text: its tokens, and the fault that ends them if there is one.
structure Scan where
  tokens : List Token
  fault : Option ScanFault

def scan (source : Source) (pos : Nat) : Scan :=
  match _h : nextToken? source pos with
  | .error fault => ⟨[], some fault⟩
  | .ok none => ⟨[], none⟩
  | .ok (some t) =>
    let rest := scan source t.next
    ⟨t :: rest.tokens, rest.fault⟩
termination_by source.size - pos
decreasing_by
  have := le_of_nextToken? _h
  simp only [Token.next]
  omega

def tokens? (source : Source) : Except ScanFault (List Token) :=
  let s := scan source 0
  match s.fault with
  | some fault => .error fault
  | none => .ok s.tokens

structure Reader where
  source : Source
  pos : Nat

namespace Reader

def drained (r : Reader) : Reader :=
  { r with pos := max r.pos r.source.size }

-- Reads one token. At the end of the text, and after a fault, nothing is left to read.
def next (r : Reader) : Except ScanFault (Option Token) × Reader :=
  match nextToken? r.source r.pos with
  | .ok (some t) => (.ok (some t), { r with pos := t.next })
  | result => (result, r.drained)

def seek (r : Reader) (pos : Nat) : Reader :=
  { r with pos }

def seekEnd (r : Reader) : Reader :=
  { r with pos := r.source.size }

def rest (r : Reader) : Scan × Reader :=
  (scan r.source r.pos, r.drained)

end Reader

end Esoterica.Whitespace
