
namespace Esoterica.Text

-- The character whose code is `value`, if there is one: a negative number, a surrogate and a
-- number above U+10FFFF have none.
def scalar? (value : Int64) : Option Char :=
  let code := value.toInt.toNat
  if h : 0 ≤ value.toInt ∧ code.isValidChar then some (Char.ofNatAux code h.2) else none

def codeOf (c : Char) : Int64 :=
  Int64.ofNat c.toNat

-- Control characters: U+0000 to U+001F and U+007F to U+009F.
def isControl (c : Char) : Bool :=
  c.toNat ≤ 0x1F || (0x7F ≤ c.toNat && c.toNat ≤ 0x9F)

end Esoterica.Text
