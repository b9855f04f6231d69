import Esoterica.Text.Printable

namespace Esoterica.Text

-- The code of a character as an escape in hexadecimal digits.
def escapedCode (c : Char) : List Char :=
  "\\u\x7b".toList ++ Nat.toDigits 16 c.toNat ++ ['\x7d']

def escaped (c : Char) : List Char :=
  match c with
  | '\x00' => ['\\', '0']
  | '\t' => ['\\', 't']
  | '\n' => ['\\', 'n']
  | '\r' => ['\\', 'r']
  | '\'' => ['\\', '\'']
  | '\\' => ['\\', '\\']
  | c => if isPrintable c then [c] else escapedCode c

def quotedChar (c : Char) : String :=
  String.ofList (['\''] ++ escaped c ++ ['\''])

end Esoterica.Text
