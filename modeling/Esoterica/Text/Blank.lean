
namespace Esoterica.Text

-- White_Space: the ASCII blanks U+0009 to U+000D and U+0020, and the wider ones.
def isBlank (c : Char) : Bool :=
  let n := c.toNat
  (9 ≤ n && n ≤ 13) || n == 0x20 || n == 0x85 || n == 0xA0 || n == 0x1680 ||
    (0x2000 ≤ n && n ≤ 0x200A) || n == 0x2028 || n == 0x2029 || n == 0x202F || n == 0x205F ||
    n == 0x3000

def trimStart (text : List Char) : List Char :=
  text.dropWhile isBlank

-- The text without the longest end that satisfies `p`.
def dropEndWhile (p : Char → Bool) (text : List Char) : List Char :=
  (text.reverse.dropWhile p).reverse

def trimEnd (text : List Char) : List Char :=
  dropEndWhile isBlank text

def trim (text : List Char) : List Char :=
  trimEnd (trimStart text)

def words (text : List Char) : List (List Char) :=
  match _h : trimStart text with
  | [] => []
  | c :: rest =>
    (c :: rest.takeWhile (!isBlank ·)) :: words (rest.dropWhile (!isBlank ·))
termination_by text.length
decreasing_by
  have h₁ : (trimStart text).length ≤ text.length := (List.dropWhile_sublist _).length_le
  have h₂ : (rest.dropWhile (!isBlank ·)).length ≤ rest.length :=
    (List.dropWhile_sublist _).length_le
  simp only [_h, List.length_cons] at h₁
  omega

end Esoterica.Text
