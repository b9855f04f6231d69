import Esoterica.Text.Utf8

namespace Esoterica.Whitespace

open Text

namespace Symbol

-- A plus sign, or the binary digit 0.
@[match_pattern]
def space : UInt8 := 32

-- A minus sign, or the binary digit 1.
@[match_pattern]
def tab : UInt8 := 9

-- The end of an operand.
@[match_pattern]
def feed : UInt8 := 10

end Symbol

-- The three bytes that count. Every other byte of a program is a comment.
def isSymbol (b : UInt8) : Bool :=
  b == Symbol.space || b == Symbol.tab || b == Symbol.feed

abbrev Source := Array UInt8

namespace Source

def ofText (text : String) : Source :=
  (Utf8.encode text.toList).toArray

def text (source : Source) : String :=
  String.ofList (source.toList.map fun b => Char.ofNat b.toNat)

end Source

def nextSymbol? (source : Source) (pos : Nat) : Option (Nat × UInt8) :=
  if h : pos < source.size then
    if isSymbol source[pos] then some (pos, source[pos]) else nextSymbol? source (pos + 1)
  else none
termination_by source.size - pos

theorem le_of_nextSymbol? {source : Source} {pos offset : Nat} {b : UInt8}
    (h : nextSymbol? source pos = some (offset, b)) : pos ≤ offset ∧ offset < source.size := by
  fun_induction nextSymbol? source pos with
  | case1 pos hlt _ =>
    simp only [Option.some.injEq, Prod.mk.injEq] at h
    omega
  | case2 pos hlt _ ih =>
    have := ih h
    omega
  | case3 => simp at h

end Esoterica.Whitespace
