
namespace Esoterica.Text.Utf8

def encode (text : List Char) : List UInt8 :=
  text.flatMap String.utf8EncodeChar

inductive Fault where
  -- `length` bytes from `index` on begin no character
  | invalid (index length : Nat)
  -- the bytes end inside the character that begins at `index`
  | incomplete (index : Nat)
  deriving DecidableEq, Repr

def Fault.message : Fault → String
  | .invalid index length => s!"invalid utf-8 sequence of {length} bytes from index {index}"
  | .incomplete index => s!"incomplete utf-8 byte sequence from index {index}"

inductive Front where
  | char (c : Char) (rest : List UInt8)
  -- the longest run that could still have become a character is `length` bytes long
  | invalid (length : Nat) (rest : List UInt8)
  | incomplete

-- Bytes `10xxxxxx` continue a character.
def isTail (b : UInt8) : Bool :=
  0x80 ≤ b && b ≤ 0xBF

-- The second byte of a longer form has a narrower range after four of the lead bytes: it rules
-- out overlong forms, surrogates and values above U+10FFFF.
def isSecond (lead b : UInt8) : Bool :=
  (if lead = 0xE0 then 0xA0 else if lead = 0xF0 then 0x90 else 0x80) ≤ b &&
    b ≤ (if lead = 0xED then 0x9F else if lead = 0xF4 then 0x8F else 0xBF)

-- The scalar with the six payload bits of `tail` appended to `high`.
def join (high : Nat) (tail : UInt8) : Nat :=
  high * 64 + (tail.toNat - 0x80)

def front2 (lead : UInt8) : List UInt8 → Front
  | [] => .incomplete
  | b :: rest =>
    if isTail b then .char (Char.ofNat (join (lead.toNat - 0xC0) b)) rest
    else .invalid 1 (b :: rest)

def front3 (lead : UInt8) : List UInt8 → Front
  | [] => .incomplete
  | b :: rest =>
    if isSecond lead b then
      match rest with
      | [] => .incomplete
      | c :: rest =>
        if isTail c then .char (Char.ofNat (join (join (lead.toNat - 0xE0) b) c)) rest
        else .invalid 2 (c :: rest)
    else .invalid 1 (b :: rest)

def front4 (lead : UInt8) : List UInt8 → Front
  | [] => .incomplete
  | b :: rest =>
    if isSecond lead b then
      match rest with
      | [] => .incomplete
      | c :: rest =>
        if isTail c then
          match rest with
          | [] => .incomplete
          | d :: rest =>
            if isTail d then
              .char (Char.ofNat (join (join (join (lead.toNat - 0xF0) b) c) d)) rest
            else .invalid 3 (d :: rest)
        else .invalid 2 (c :: rest)
    else .invalid 1 (b :: rest)

def front (lead : UInt8) (rest : List UInt8) : Front :=
  if lead < 0x80 then .char (Char.ofNat lead.toNat) rest
  else if lead < 0xC2 then .invalid 1 rest
  else if lead < 0xE0 then front2 lead rest
  else if lead < 0xF0 then front3 lead rest
  else if lead < 0xF5 then front4 lead rest
  else .invalid 1 rest

def Front.rest : Front → List UInt8
  | .char _ rest => rest
  | .invalid _ rest => rest
  | .incomplete => []

theorem rest_front_length_le (lead : UInt8) (rest : List UInt8) :
    (front lead rest).rest.length ≤ rest.length := by
  unfold front front2 front3 front4
  repeat' split
  all_goals simp only [Front.rest, List.length_cons, List.length_nil]
  all_goals omega

-- `index` bytes have been read, and `read` holds their characters, the last one first.
def decodeFrom (index : Nat) (read : List Char) : List UInt8 → Except Fault (List Char)
  | [] => .ok read.reverse
  | lead :: bytes =>
    match _h : front lead bytes with
    | .char c rest => decodeFrom (index + (bytes.length + 1 - rest.length)) (c :: read) rest
    | .invalid length _ => .error (.invalid index length)
    | .incomplete => .error (.incomplete index)
termination_by bytes => bytes.length
decreasing_by
  have := rest_front_length_le lead bytes
  simp only [_h, Front.rest] at this
  simp only [List.length_cons]
  omega

def decode (bytes : List UInt8) : Except Fault (List Char) :=
  decodeFrom 0 [] bytes

def decodeLossyFrom (read : List Char) : List UInt8 → List Char
  | [] => read.reverse
  | lead :: bytes =>
    match _h : front lead bytes with
    | .char c rest => decodeLossyFrom (c :: read) rest
    | .invalid _ rest => decodeLossyFrom ('�' :: read) rest
    | .incomplete => ('�' :: read).reverse
termination_by bytes => bytes.length
decreasing_by
  all_goals
    have := rest_front_length_le lead bytes
    simp only [_h, Front.rest] at this
    simp only [List.length_cons]
    omega

-- The text that the bytes encode, with U+FFFD for each fault.
def decodeLossy (bytes : List UInt8) : List Char :=
  decodeLossyFrom [] bytes

end Esoterica.Text.Utf8
