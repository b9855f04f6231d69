import Esoterica.Text.Decimal
import Esoterica.Text.Scalar
import Esoterica.Whitespace.Label
import Esoterica.Whitespace.Number
import Esoterica.Whitespace.Opcode

namespace Esoterica.Whitespace

namespace OperandKind

abbrev Operand : OperandKind → Type
  | .none => Unit
  | .number => Int64
  | .label => Label

def decode : (kind : OperandKind) → List UInt8 → kind.Operand
  | .none, _ => ()
  | .number, raw => Number.decode raw
  | .label, raw => ⟨raw⟩

-- The symbols that denote an operand, without the line feed that ends it.
def encode : (kind : OperandKind) → kind.Operand → List UInt8
  | .none, _ => []
  | .number, value => Number.encode value
  | .label, l => l.symbols

def quoted : (kind : OperandKind) → kind.Operand → String
  | .none, _ => "None"
  | .number, value => "Number(" ++ Text.Decimal.text value ++ ")"
  | .label, l => "Label(" ++ l.quoted ++ ")"

end OperandKind

structure Instr where
  opcode : Opcode
  operand : opcode.kind.Operand

namespace Instr

-- The symbols that stand for an instruction: the code of its operation and, if that takes an
-- operand, the symbols of the operand and a line feed.
def encode (i : Instr) : List UInt8 :=
  if i.opcode.kind = .none then i.opcode.code
  else i.opcode.code ++ i.opcode.kind.encode i.operand ++ [Symbol.feed]

end Instr

end Esoterica.Whitespace
