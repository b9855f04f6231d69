import Esoterica.Whitespace.Symbol

namespace Esoterica.Whitespace.Number

-- A tab is the digit 1, and every other byte the digit 0.
def digit (b : UInt8) : Int64 :=
  if b = Symbol.tab then 1 else 0

-- The most significant digit comes first. Digits beyond 64 bits wrap around.
def decode : List UInt8 → Int64
  | [] => 0
  | sign :: digits =>
    let magnitude := digits.foldl (fun acc b => acc * 2 + digit b) 0
    if sign = Symbol.tab then -magnitude else magnitude

def writeDigits (n : Nat) : (count : Nat) → (buffer : Array UInt8) → Array UInt8
  | 0, buffer => buffer
  | count + 1, buffer =>
    writeDigits n count (buffer.push (if n.testBit count then Symbol.tab else Symbol.space))

-- Writes a number behind what a buffer holds: the sign, and then the digits without leading
-- zeros. For 0 it is the sign alone.
def write (value : Int64) (buffer : Array UInt8) : Array UInt8 :=
  let magnitude := value.toInt.natAbs
  let buffer := buffer.push (if value < 0 then Symbol.tab else Symbol.space)
  if magnitude = 0 then buffer else writeDigits magnitude (magnitude.log2 + 1) buffer

def encode (value : Int64) : List UInt8 :=
  (write value #[]).toList

end Esoterica.Whitespace.Number
