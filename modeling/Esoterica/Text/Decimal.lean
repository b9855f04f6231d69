
namespace Esoterica.Text.Decimal

def ofNat (n : Nat) : List Char :=
  Nat.toDigits 10 n

def ofInt : Int → List Char
  | .ofNat n => ofNat n
  | .negSucc n => '-' :: ofNat (n + 1)

def text (value : Int64) : String :=
  String.ofList (ofInt value.toInt)

def listText (values : List Int64) : String :=
  "[" ++ ", ".intercalate (values.map text) ++ "]"

-- The digits of `n`, filled up with zeros to at least `width`.
def padded (width n : Nat) : List Char :=
  List.replicate (width - (ofNat n).length) '0' ++ ofNat n

inductive Fault where
  | empty
  | invalidDigit
  | tooLarge
  deriving DecidableEq, Repr

def Fault.message : Fault → String
  | .empty => "cannot parse integer from empty string"
  | .invalidDigit => "invalid digit found in string"
  | .tooLarge => "number too large to fit in target type"

-- The digits are taken from the left, and the first one that is none, or that takes the value
-- above `limit`, decides.
def foldDigits (limit : Nat) : Nat → List Char → Except Fault Nat
  | value, [] => .ok value
  | value, c :: rest =>
    if c.isDigit then
      let value := value * 10 + (c.toNat - 48)
      if value ≤ limit then foldDigits limit value rest else .error .tooLarge
    else .error .invalidDigit

def readDigits (limit : Nat) : List Char → Except Fault Nat
  | [] => .error .invalidDigit
  | digits => foldDigits limit 0 digits

-- A number from 0 to `limit`, with an optional plus sign.
def readNat (limit : Nat) : List Char → Except Fault Nat
  | [] => .error .empty
  | '+' :: digits => readDigits limit digits
  | digits => readDigits limit digits

-- A number from -2^63 to 2^63 - 1, with an optional sign.
def readInt64 : List Char → Except Fault Int64
  | [] => .error .empty
  | '+' :: digits => (readDigits Int64.maxValue.toInt.toNat digits).map Int64.ofNat
  | '-' :: digits =>
    (readDigits Int64.minValue.toInt.natAbs digits).map fun n => Int64.ofInt (-n)
  | digits => (readDigits Int64.maxValue.toInt.toNat digits).map Int64.ofNat

end Esoterica.Text.Decimal
