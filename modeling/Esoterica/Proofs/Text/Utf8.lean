import Esoterica.Text.Utf8
import Mathlib.Tactic.SplitIfs

namespace Esoterica.Text.Utf8

section Encode

@[simp]
theorem encode_nil : encode [] = [] := rfl

theorem encode_cons (c : Char) (text : List Char) :
    encode (c :: text) = String.utf8EncodeChar c ++ encode text := by
  simp [encode]

@[simp]
theorem encode_append (text more : List Char) :
    encode (text ++ more) = encode text ++ encode more := by
  simp [encode]

theorem encode_eq_nil {text : List Char} : encode text = [] ↔ text = [] := by
  cases text with
  | nil => simp
  | cons c rest => simp [encode_cons, String.utf8EncodeChar_ne_nil]

@[simp]
theorem encode_feed : encode ['\n'] = [10] := by decide

end Encode

section Front

-- The six payload bits of a byte that continues a character.
theorem toNat_payload (n : Nat) : (UInt8.ofNat (n % 64 + 128)).toNat = n % 64 + 128 :=
  UInt8.toNat_ofNat_of_lt' (show n % 64 + 128 < 256 by omega)

theorem join_payload (high n : Nat) :
    join high (UInt8.ofNat (n % 64 + 128)) = high * 64 + n % 64 := by
  unfold join
  rw [toNat_payload, Nat.add_sub_cancel]

theorem isTail_iff (b : UInt8) : isTail b = true ↔ 0x80 ≤ b.toNat ∧ b.toNat ≤ 0xBF := by
  simp [isTail, UInt8.le_iff_toNat_le]

theorem isTail_payload (n : Nat) : isTail (UInt8.ofNat (n % 64 + 128)) = true := by
  rw [isTail_iff, toNat_payload]
  omega

-- In numbers, and without the order in which the exceptions are asked for.
theorem isSecond_of_toNat {lead b : UInt8} (hlow : 0x80 ≤ b.toNat) (hhigh : b.toNat ≤ 0xBF)
    (hE0 : lead.toNat = 0xE0 → 0xA0 ≤ b.toNat) (hED : lead.toNat = 0xED → b.toNat ≤ 0x9F)
    (hF0 : lead.toNat = 0xF0 → 0x90 ≤ b.toNat) (hF4 : lead.toNat = 0xF4 → b.toNat ≤ 0x8F) :
    isSecond lead b = true := by
  have hlead : ∀ k : UInt8, lead = k ↔ lead.toNat = k.toNat := fun k => UInt8.toNat_inj.symm
  simp only [isSecond, Bool.and_eq_true, decide_eq_true_eq, UInt8.le_iff_toNat_le, hlead]
  constructor
  · repeat' split
    all_goals simp_all
  · repeat' split
    all_goals simp_all

theorem front_one {n : Nat} (h : n ≤ 0x7F) (rest : List UInt8) :
    front (UInt8.ofNat n) rest = .char (Char.ofNat n) rest := by
  have hn : (UInt8.ofNat n).toNat = n := UInt8.toNat_ofNat_of_lt' (show n < 256 by omega)
  have hlead : UInt8.ofNat n < 0x80 := by
    rw [UInt8.lt_iff_toNat_lt, hn]
    exact Nat.lt_succ_of_le h
  rw [front, if_pos hlead, hn]

section Lead

variable {lead : UInt8} {bytes : List UInt8}

theorem front_eq_front2 (hlow : 0xC2 ≤ lead.toNat) (hhigh : lead.toNat < 0xE0) :
    front lead bytes = front2 lead bytes := by
  simp only [front, UInt8.lt_iff_toNat_lt, UInt8.reduceToNat]
  rw [if_neg (by omega), if_neg (by omega), if_pos hhigh]

theorem front_eq_front3 (hlow : 0xE0 ≤ lead.toNat) (hhigh : lead.toNat < 0xF0) :
    front lead bytes = front3 lead bytes := by
  simp only [front, UInt8.lt_iff_toNat_lt, UInt8.reduceToNat]
  rw [if_neg (by omega), if_neg (by omega), if_neg (by omega), if_pos hhigh]

theorem front_eq_front4 (hlow : 0xF0 ≤ lead.toNat) (hhigh : lead.toNat < 0xF5) :
    front lead bytes = front4 lead bytes := by
  simp only [front, UInt8.lt_iff_toNat_lt, UInt8.reduceToNat]
  rw [if_neg (by omega), if_neg (by omega), if_neg (by omega), if_neg (by omega), if_pos hhigh]

end Lead

theorem front_two {n : Nat} (hlow : 0x7F < n) (hhigh : n ≤ 0x7FF) (rest : List UInt8) :
    front (UInt8.ofNat (n / 64 % 32 + 192)) (UInt8.ofNat (n % 64 + 128) :: rest) =
      .char (Char.ofNat n) rest := by
  have hlead : (UInt8.ofNat (n / 64 % 32 + 192)).toNat = n / 64 + 192 := by
    rw [UInt8.toNat_ofNat_of_lt' (show n / 64 % 32 + 192 < 256 by omega)]
    omega
  have hjoin : join (n / 64 + 192 - 0xC0) (UInt8.ofNat (n % 64 + 128)) = n := by
    rw [join_payload, Nat.add_sub_cancel]
    omega
  rw [front_eq_front2 (by omega) (by omega), front2, if_pos (isTail_payload n), hlead, hjoin]

theorem front_three {n : Nat} (hlow : 0x7FF < n) (hhigh : n ≤ 0xFFFF)
    (hsurrogate : n < 0xD800 ∨ 0xDFFF < n) (rest : List UInt8) :
    front (UInt8.ofNat (n / 4096 % 16 + 224))
        (UInt8.ofNat (n / 64 % 64 + 128) :: UInt8.ofNat (n % 64 + 128) :: rest) =
      .char (Char.ofNat n) rest := by
  have hlead : (UInt8.ofNat (n / 4096 % 16 + 224)).toNat = n / 4096 + 224 := by
    rw [UInt8.toNat_ofNat_of_lt' (show n / 4096 % 16 + 224 < 256 by omega)]
    omega
  have hsecond := toNat_payload (n / 64)
  have hallowed : isSecond (UInt8.ofNat (n / 4096 % 16 + 224))
      (UInt8.ofNat (n / 64 % 64 + 128)) = true := by
    apply isSecond_of_toNat <;> omega
  have hjoin : join (join (n / 4096 + 224 - 0xE0) (UInt8.ofNat (n / 64 % 64 + 128)))
      (UInt8.ofNat (n % 64 + 128)) = n := by
    rw [join_payload, join_payload, Nat.add_sub_cancel]
    omega
  rw [front_eq_front3 (by omega) (by omega), front3, if_pos hallowed]
  simp only [if_pos (isTail_payload n), hlead, hjoin]

theorem front_four {n : Nat} (hlow : 0xFFFF < n) (hhigh : n < 0x110000) (rest : List UInt8) :
    front (UInt8.ofNat (n / 262144 % 8 + 240))
        (UInt8.ofNat (n / 4096 % 64 + 128) :: UInt8.ofNat (n / 64 % 64 + 128) ::
          UInt8.ofNat (n % 64 + 128) :: rest) =
      .char (Char.ofNat n) rest := by
  have hlead : (UInt8.ofNat (n / 262144 % 8 + 240)).toNat = n / 262144 + 240 := by
    rw [UInt8.toNat_ofNat_of_lt' (show n / 262144 % 8 + 240 < 256 by omega)]
    omega
  have hsecond := toNat_payload (n / 4096)
  have hallowed : isSecond (UInt8.ofNat (n / 262144 % 8 + 240))
      (UInt8.ofNat (n / 4096 % 64 + 128)) = true := by
    apply isSecond_of_toNat <;> omega
  have hjoin : join (join (join (n / 262144 + 240 - 0xF0) (UInt8.ofNat (n / 4096 % 64 + 128)))
      (UInt8.ofNat (n / 64 % 64 + 128))) (UInt8.ofNat (n % 64 + 128)) = n := by
    rw [join_payload, join_payload, join_payload, Nat.add_sub_cancel]
    omega
  rw [front_eq_front4 (by omega) (by omega), front4, if_pos hallowed]
  simp only [if_pos (isTail_payload (n / 64)), if_pos (isTail_payload n), hlead, hjoin]

-- The front of an encoded character is the character.
theorem exists_front_encoded (c : Char) (rest : List UInt8) :
    ∃ lead tail, String.utf8EncodeChar c = lead :: tail ∧
      front lead (tail ++ rest) = .char c rest := by
  have hvalid : c.toNat < 0xD800 ∨ 0xDFFF < c.toNat ∧ c.toNat < 0x110000 := c.valid
  have hofNat : Char.ofNat c.toNat = c := Char.ofNat_toNat c
  rw [String.utf8EncodeChar]
  simp only [show c.val.toNat = c.toNat from rfl]
  by_cases h₁ : c.toNat ≤ 0x7F
  · refine ⟨_, _, if_pos h₁, ?_⟩
    exact (front_one h₁ rest).trans (by rw [hofNat])
  by_cases h₂ : c.toNat ≤ 0x7FF
  · refine ⟨_, _, (if_neg h₁).trans (if_pos h₂), ?_⟩
    exact (front_two (by omega) h₂ rest).trans (by rw [hofNat])
  by_cases h₃ : c.toNat ≤ 0xFFFF
  · refine ⟨_, _, (if_neg h₁).trans ((if_neg h₂).trans (if_pos h₃)), ?_⟩
    exact (front_three (by omega) h₃ (by omega) rest).trans (by rw [hofNat])
  · refine ⟨_, _, (if_neg h₁).trans ((if_neg h₂).trans (if_neg h₃)), ?_⟩
    exact (front_four (by omega) (by omega) rest).trans (by rw [hofNat])

end Front

section Decode

theorem decodeFrom_encode (text : List Char) :
    ∀ index read, decodeFrom index read (encode text) = .ok (read.reverse ++ text) := by
  induction text with
  | nil =>
    intro index read
    simp [decodeFrom]
  | cons c text ih =>
    intro index read
    obtain ⟨lead, tail, hbytes, hfront⟩ := exists_front_encoded c (encode text)
    rw [encode_cons, hbytes, List.cons_append, decodeFrom]
    split
    next d rest heq =>
      obtain ⟨rfl, rfl⟩ : c = d ∧ encode text = rest := by simpa [hfront] using heq
      rw [ih]
      simp
    next heq => simp [hfront] at heq
    next heq => simp [hfront] at heq

theorem decode_encode (text : List Char) : decode (encode text) = .ok text :=
  decodeFrom_encode text 0 []

theorem decodeLossyFrom_encode (text : List Char) :
    ∀ read, decodeLossyFrom read (encode text) = read.reverse ++ text := by
  induction text with
  | nil =>
    intro read
    simp [decodeLossyFrom]
  | cons c text ih =>
    intro read
    obtain ⟨lead, tail, hbytes, hfront⟩ := exists_front_encoded c (encode text)
    rw [encode_cons, hbytes, List.cons_append, decodeLossyFrom]
    split
    next d rest heq =>
      obtain ⟨rfl, rfl⟩ : c = d ∧ encode text = rest := by simpa [hfront] using heq
      rw [ih]
      simp
    next heq => simp [hfront] at heq
    next heq => simp [hfront] at heq

theorem decodeLossy_encode (text : List Char) : decodeLossy (encode text) = text :=
  decodeLossyFrom_encode text []

theorem length_le_of_decodeFrom {index : Nat} {read text : List Char} {bytes : List UInt8}
    (h : decodeFrom index read bytes = .ok text) : read.length ≤ text.length := by
  fun_induction decodeFrom index read bytes with
  | case1 index read =>
    obtain rfl := Except.ok.inj h
    exact Nat.le_of_eq List.length_reverse.symm
  | case2 index read lead bytes c rest _ ih =>
    have hle := ih h
    rw [List.length_cons] at hle
    omega
  | case3 | case4 => cases h

theorem ne_nil_of_decode {bytes : List UInt8} {text : List Char} (hne : bytes ≠ [])
    (h : decode bytes = .ok text) : text ≠ [] := by
  obtain ⟨lead, bytes, rfl⟩ := List.exists_cons_of_ne_nil hne
  rw [decode, decodeFrom] at h
  split at h
  · have hle := length_le_of_decodeFrom h
    exact List.ne_nil_of_length_pos hle
  · cases h
  · cases h

end Decode

section Ascii

-- The bytes of the longer forms are all above the ASCII ones.
theorem eq_of_ascii_mem_encoded {c : Char} {b : UInt8} (hb : b.toNat < 0x80)
    (h : b ∈ String.utf8EncodeChar c) : c = Char.ofNat b.toNat := by
  have hbyte : ∀ n, n < 256 → b = UInt8.ofNat n → b.toNat = n := by
    rintro n hn rfl
    exact UInt8.toNat_ofNat_of_lt' hn
  rw [String.utf8EncodeChar] at h
  simp only [show c.val.toNat = c.toNat from rfl] at h
  split_ifs at h with hone
  all_goals simp only [List.mem_cons, List.not_mem_nil, or_false] at h
  · rw [hbyte _ (by omega) h, Char.ofNat_toNat]
  -- the remaining forms have a lead byte of at least 192 and tails of at least 128
  all_goals exfalso
  · rcases h with h | h <;> have := hbyte _ (by omega) h <;> omega
  · rcases h with h | h | h <;> have := hbyte _ (by omega) h <;> omega
  · rcases h with h | h | h | h <;> have := hbyte _ (by omega) h <;> omega

theorem feed_mem_encoded {c : Char} (h : 10 ∈ String.utf8EncodeChar c) : c = '\n' :=
  eq_of_ascii_mem_encoded (by decide) h

theorem feed_notMem_encode {text : List Char} (h : '\n' ∉ text) : 10 ∉ encode text := by
  intro hmem
  obtain ⟨c, hc, hbyte⟩ := List.mem_flatMap.mp hmem
  exact h (feed_mem_encoded hbyte ▸ hc)

end Ascii

end Esoterica.Text.Utf8
