import Esoterica.Text.Blank
import Esoterica.Text.Line
import Esoterica.Whitespace.Instr

namespace Esoterica.Whitespace

open Text

inductive LineFault where
  | unknownMnemonic
  | missingOperand
  | unexpectedOperand
  | invalidNumber
  | invalidLabel
  -- the label was cut when it was listed
  | truncatedLabel
  | invalidOffset
  deriving DecidableEq, Repr

def LineFault.name : LineFault → String
  | .unknownMnemonic => "UnknownMnemonic"
  | .missingOperand => "MissingOperand"
  | .unexpectedOperand => "UnexpectedOperand"
  | .invalidNumber => "InvalidNumber"
  | .invalidLabel => "InvalidLabel"
  | .truncatedLabel => "TruncatedLabel"
  | .invalidOffset => "InvalidOffset"

structure AssemblyFault where
  fault : LineFault
  line : Nat
  deriving DecidableEq, Repr

def AssemblyFault.message (f : AssemblyFault) : String :=
  let kind := f.fault.name
  let line := f.line
  s!"Error {kind} at line {line}"

-- The part of a line before its comment, without blanks around it.
def codePart (line : List Char) : List Char :=
  trim (line.takeWhile (· != ';'))

def dropOffset : List Char → Except LineFault (List Char)
  | '[' :: rest =>
    let offset := rest.takeWhile (· != ']')
    match rest.dropWhile (· != ']') with
    | [] => .error .invalidOffset
    | _ :: rest =>
      if offset.isEmpty || !offset.all Char.isDigit then .error .invalidOffset
      else .ok (trimStart rest)
  | code => .ok code

def labelSymbol? : Char → Option UInt8
  | '0' => some Symbol.space
  | '1' => some Symbol.tab
  | 'n' => some Symbol.feed
  | _ => none

def readLabel (word : List Char) : Except LineFault Label :=
  if ['.', '.', '.'].isSuffixOf word then .error .truncatedLabel
  else
    match word.mapM labelSymbol? with
    | some symbols => .ok ⟨symbols⟩
    | none => .error .invalidLabel

-- The operand of a kind that an optional word stands for. A missing label is the empty one.
def readOperand : (kind : OperandKind) → Option (List Char) → Except LineFault kind.Operand
  | .none, none => .ok ()
  | .none, some _ => .error .unexpectedOperand
  | .number, none => .error .missingOperand
  | .number, some word =>
    match Decimal.readInt64 word with
    | .ok value => .ok value
    | .error _ => .error .invalidNumber
  | .label, word => readLabel (word.getD [])

def readInstr : List (List Char) → Except LineFault (Option Instr)
  | [] => .ok none
  | mnemonic :: operands =>
    match Opcode.ofMnemonic? (String.ofList mnemonic) with
    | none => .error .unknownMnemonic
    | some op =>
      if 1 < operands.length then .error .unexpectedOperand
      else (readOperand op.kind operands.head?).map fun operand => some ⟨op, operand⟩

-- The instruction of a line, if it holds one.
def readLine (line : List Char) : Except LineFault (Option Instr) :=
  match dropOffset (codePart line) with
  | .error fault => .error fault
  | .ok code => readInstr (words code)

def readLines (line : Nat) : List (List Char) → Except AssemblyFault (List Instr)
  | [] => .ok []
  | text :: rest =>
    match readLine text with
    | .error fault => .error ⟨fault, line⟩
    | .ok none => readLines (line + 1) rest
    | .ok (some i) => (readLines (line + 1) rest).map (i :: ·)

def readListing (listing : List Char) : Except AssemblyFault (List Instr) :=
  readLines 1 (lines listing)

def assemble (listing : List Char) : Except AssemblyFault Source :=
  (readListing listing).map fun instrs => (instrs.flatMap Instr.encode).toArray

end Esoterica.Whitespace
