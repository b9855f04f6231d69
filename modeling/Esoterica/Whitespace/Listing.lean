import Esoterica.Journal
import Esoterica.Whitespace.Token

namespace Esoterica.Whitespace

open Text

def printable? (value : Int64) : Option Char :=
  (scalar? value).filter (!isControl ·)

namespace OperandKind

-- An operand as a listing shows it, after the mnemonic.
def listed : (kind : OperandKind) → kind.Operand → List Char
  | .none, _ => []
  | .number, value =>
    ' ' :: Decimal.ofInt value.toInt ++
      match printable? value with
      | some c => " ; ascii: ".toList ++ [c]
      | .none => []
  | .label, l => if l.symbols.isEmpty then [] else ' ' :: l.shown

end OperandKind

def Token.listed (t : Token) : List Char :=
  '[' :: Decimal.padded 4 t.stop ++ "] ".toList ++ t.instr.opcode.mnemonic.toList ++
    t.instr.opcode.kind.listed t.instr.operand

-- The lines of a text up to its end or its first fault.
def Scan.listed (s : Scan) : List Char :=
  s.tokens.flatMap fun t => t.listed ++ ['\n']

def disassemble (source : Source) : Except ScanFault (List Char) :=
  let s := scan source 0
  match s.fault with
  | some fault => .error fault
  | none => .ok s.listed

-- Appends the listing of a text to `text`, as far as it goes, and says which fault ended it.
def disassembleOnto (text : List Char) (source : Source) : List Char × Option ScanFault :=
  let s := scan source 0
  (text ++ s.listed, s.fault)

def listingEntries (filter : Filter) (source : Source) : List Entry :=
  let s := scan source 0
  match s.fault with
  | some _ => []
  | none =>
    let count := s.tokens.length
    filter.entry .debug fun _ => s!"disassembled {count} instructions"

end Esoterica.Whitespace
