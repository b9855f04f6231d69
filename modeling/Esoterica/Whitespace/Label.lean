import Esoterica.Whitespace.Symbol

namespace Esoterica.Whitespace

structure Label where
  symbols : List UInt8
  deriving DecidableEq, Hashable, Repr

namespace Label

def maxShown : Nat := 60

def letter : UInt8 → Char
  | Symbol.space => '0'
  | Symbol.tab => '1'
  | _ => 'n'

-- The printable form of a label, cut after `maxShown` symbols.
def shown (label : Label) : List Char :=
  (label.symbols.take maxShown).map letter ++
    (if maxShown < label.symbols.length then ['.', '.', '.'] else [])

def text (label : Label) : String :=
  String.ofList label.shown

def quoted (label : Label) : String :=
  "Label(" ++ label.text ++ ")"

-- Labels in the order of a dictionary, by their bytes.
def compare (a b : Label) : Ordering :=
  List.compareLex Ord.compare a.symbols b.symbols

end Label

end Esoterica.Whitespace
