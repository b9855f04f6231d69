import Esoterica.Whitespace.Number
import Mathlib.Data.Int.ModEq
import Mathlib.Data.List.Induction
import Mathlib.Data.Nat.Digits.Defs

namespace Esoterica.Whitespace.Number

section Reading

def bitOf (b : UInt8) : Nat :=
  if b = Symbol.tab then 1 else 0

-- The number that binary digits denote, however many there are.
def magnitude (digits : List UInt8) : Nat :=
  Nat.ofDigits 2 (digits.reverse.map bitOf)

theorem magnitude_append (front digits : List UInt8) :
    magnitude (front ++ digits) = magnitude digits + 2 ^ digits.length * magnitude front := by
  simp [magnitude, Nat.ofDigits_append]

theorem magnitude_singleton (b : UInt8) : magnitude [b] = bitOf b := by
  simp [magnitude]

theorem magnitude_lt (digits : List UInt8) : magnitude digits < 2 ^ digits.length := by
  have hbits : ∀ bit ∈ digits.reverse.map bitOf, bit < 2 := by
    intro bit hbit
    obtain ⟨b, -, rfl⟩ := List.mem_map.mp hbit
    unfold bitOf
    split <;> omega
  simpa [magnitude] using Nat.ofDigits_lt_base_pow_length (by omega) hbits

theorem foldl_digit (digits : List UInt8) :
    digits.foldl (fun acc b => acc * 2 + digit b) 0 = Int64.ofNat (magnitude digits) := by
  induction digits using List.reverseRecOn with
  | nil => rfl
  | append_singleton digits b ih =>
    have hdigit : digit b = Int64.ofNat (bitOf b) := by
      unfold digit bitOf
      split <;> rfl
    have hdouble : magnitude (digits ++ [b]) = magnitude digits * 2 + bitOf b := by
      rw [magnitude_append, magnitude_singleton, List.length_singleton]
      omega
    rw [hdouble, List.foldl_append, ih, Int64.ofNat_add, Int64.ofNat_mul, ← hdigit]
    rfl

-- The unbounded number that a sign and binary digits denote.
def signed (sign : UInt8) (digits : List UInt8) : Int :=
  if sign = Symbol.tab then -magnitude digits else magnitude digits

theorem natAbs_signed (sign : UInt8) (digits : List UInt8) :
    (signed sign digits).natAbs = magnitude digits := by
  unfold signed
  split <;> omega

theorem decode_cons (sign : UInt8) (digits : List UInt8) :
    decode (sign :: digits) = Int64.ofInt (signed sign digits) := by
  simp only [decode, foldl_digit, signed]
  split
  · exact Int64.neg_ofNat
  · exact Int64.ofInt_eq_ofNat.symm

theorem ofInt_eq_iff_modEq {n : Int} {value : Int64} :
    Int64.ofInt n = value ↔ value.toInt ≡ n [ZMOD Int64.size] := by
  constructor
  · rintro rfl
    rw [Int64.toInt_ofInt]
    exact Int.bmod_emod
  · intro h
    rw [← Int64.ofInt_toInt value, ← Int64.toInt_inj, Int64.toInt_ofInt, Int64.toInt_ofInt,
      ← Int.emod_bmod n, ← Int.emod_bmod value.toInt, h]

-- Digits in front of the last 64 have no say.
theorem decode_append (sign : UInt8) (front : List UInt8) {digits : List UInt8}
    (h : 64 ≤ digits.length) : decode (sign :: (front ++ digits)) = decode (sign :: digits) := by
  have hsize : (Int64.size : Int) ∣ 2 ^ digits.length := pow_dvd_pow 2 h
  have hfront : (Int64.size : Int) ∣ 2 ^ digits.length * magnitude front := hsize.mul_right _
  have hsigned : signed sign digits ≡ signed sign (front ++ digits) [ZMOD Int64.size] := by
    rw [Int.modEq_iff_dvd]
    simp only [signed, magnitude_append]
    push_cast
    split
    · rwa [neg_sub_neg, sub_add_cancel_left, Int.dvd_neg]
    · rwa [add_sub_cancel_left]
  rw [decode_cons, decode_cons, ofInt_eq_iff_modEq]
  exact (ofInt_eq_iff_modEq.mp rfl).trans hsigned

-- Reading is arithmetic modulo the size of a word, for runs of any length.
theorem decode_is_modular :
    decode [] = 0 ∧ ∀ sign digits,
      (∀ value : Int64, value = decode (sign :: digits) ↔
        value.toInt ≡ signed sign digits [ZMOD Int64.size]) ∧
      decode (sign :: digits) = decode (sign :: digits.drop (digits.length - 64)) := by
  refine ⟨rfl, fun sign digits => ⟨fun value => ?_, ?_⟩⟩
  · rw [eq_comm, decode_cons]
    exact ofInt_eq_iff_modEq
  · by_cases hlong : 64 ≤ digits.length
    · have hlast : 64 ≤ (digits.drop (digits.length - 64)).length := by
        rw [List.length_drop]
        omega
      rw [← decode_append sign (digits.take (digits.length - 64)) hlast, List.take_append_drop]
    · rw [Nat.sub_eq_zero_of_le (by omega), List.drop_zero]

example : decode (Symbol.space :: List.replicate 65 Symbol.tab) = -1 := by
  decide +kernel

end Reading

section Writing

-- The binary digits of `n` from number `count - 1` down to number 0.
def digitsBelow (n : Nat) : (count : Nat) → List UInt8
  | 0 => []
  | count + 1 =>
    (if n.testBit count then Symbol.tab else Symbol.space) :: digitsBelow n count

theorem toList_writeDigits (n count : Nat) (buffer : Array UInt8) :
    (writeDigits n count buffer).toList = buffer.toList ++ digitsBelow n count := by
  induction count generalizing buffer with
  | zero => simp [writeDigits, digitsBelow]
  | succ count ih => simp [writeDigits, digitsBelow, ih]

theorem length_digitsBelow (n count : Nat) : (digitsBelow n count).length = count := by
  induction count with
  | zero => rfl
  | succ count ih => rw [digitsBelow, List.length_cons, ih]

theorem mem_digitsBelow {n count : Nat} {b : UInt8} (h : b ∈ digitsBelow n count) :
    b = Symbol.space ∨ b = Symbol.tab := by
  induction count with
  | zero => cases h
  | succ count ih =>
    rcases List.mem_cons.mp h with rfl | h
    · split <;> simp
    · exact ih h

theorem magnitude_digitsBelow (n count : Nat) :
    magnitude (digitsBelow n count) = n % 2 ^ count := by
  induction count with
  | zero => simp [digitsBelow, magnitude, Nat.mod_one]
  | succ count ih =>
    have hbit : bitOf (if n.testBit count then Symbol.tab else Symbol.space) =
        n / 2 ^ count % 2 := by
      rw [← Nat.toNat_testBit]
      cases n.testBit count <;> rfl
    rw [digitsBelow, ← List.singleton_append, magnitude_append, magnitude_singleton, ih,
      length_digitsBelow, hbit, Nat.mod_pow_succ]

-- How many digits `n` has without leading zeros.
def digitCount (n : Nat) : Nat :=
  if n = 0 then 0 else n.log2 + 1

theorem digitCount_le_iff {n count : Nat} : digitCount n ≤ count ↔ n < 2 ^ count := by
  unfold digitCount
  split
  case isTrue hzero => simp [hzero]
  case isFalse hpos => exact Nat.log2_lt hpos

theorem toList_write (value : Int64) (buffer : Array UInt8) :
    (write value buffer).toList = buffer.toList ++
      (if value < 0 then Symbol.tab else Symbol.space) ::
        digitsBelow value.toInt.natAbs (digitCount value.toInt.natAbs) := by
  unfold write digitCount
  dsimp only
  split
  · simp [digitsBelow]
  · simp [toList_writeDigits]

theorem encode_eq (value : Int64) :
    encode value = (if value < 0 then Symbol.tab else Symbol.space) ::
      digitsBelow value.toInt.natAbs (digitCount value.toInt.natAbs) :=
  toList_write value #[]

theorem length_encode (value : Int64) :
    (encode value).length = digitCount value.toInt.natAbs + 1 := by
  rw [encode_eq, List.length_cons, length_digitsBelow]

theorem mem_encode {value : Int64} {b : UInt8} (h : b ∈ encode value) :
    b = Symbol.space ∨ b = Symbol.tab := by
  rw [encode_eq] at h
  rcases List.mem_cons.mp h with rfl | h
  · split <;> simp
  · exact mem_digitsBelow h

theorem decode_encode (value : Int64) : decode (encode value) = value := by
  have hdigits : magnitude (digitsBelow value.toInt.natAbs (digitCount value.toInt.natAbs)) =
      value.toInt.natAbs := by
    rw [magnitude_digitsBelow]
    exact Nat.mod_eq_of_lt (digitCount_le_iff.mp (Nat.le_refl _))
  have hminus : value < 0 ↔ value.toInt < 0 := Int64.lt_iff_toInt_lt
  have hsigned : signed (if value < 0 then Symbol.tab else Symbol.space)
      (digitsBelow value.toInt.natAbs (digitCount value.toInt.natAbs)) = value.toInt := by
    rw [signed, hdigits]
    by_cases hneg : value < 0
    · have hint := hminus.mp hneg
      rw [if_pos hneg, if_pos rfl]
      omega
    · have hint := mt hminus.mpr hneg
      rw [if_neg hneg, if_neg (by decide)]
      omega
  rw [encode_eq, decode_cons, hsigned, Int64.ofInt_toInt]

-- Wrapping around never takes a number further away from zero.
theorem natAbs_decode_le (sign : UInt8) (digits : List UInt8) :
    (decode (sign :: digits)).toInt.natAbs ≤ magnitude digits := by
  rw [decode_cons, Int64.toInt_ofInt, ← natAbs_signed sign digits, Int.bmod_def]
  simp only [Int64.size]
  split <;> omega

theorem length_encode_le_of_decode {raw : List UInt8} (hne : raw ≠ []) :
    (encode (decode raw)).length ≤ raw.length := by
  cases raw with
  | nil => exact absurd rfl hne
  | cons sign digits =>
    rw [length_encode, List.length_cons, Nat.add_le_add_iff_right, digitCount_le_iff]
    exact Nat.lt_of_le_of_lt (natAbs_decode_le sign digits) (magnitude_lt digits)

-- What is written for a number stands behind what the buffer held. It denotes that number, no
-- other run that denotes it is shorter, and writing again what it denotes changes nothing.
theorem written_run_is_shortest (value : Int64) :
    (∀ buffer, (write value buffer).toList = buffer.toList ++ encode value) ∧
      encode value ≠ [] ∧ encode value ⊆ [Symbol.space, Symbol.tab] ∧
      decode (encode value) = value ∧
      (∀ raw, raw ≠ [] → decode raw = value → (encode value).length ≤ raw.length) ∧
      ∀ raw, raw ≠ [] → (encode (decode raw)).length ≤ raw.length ∧
        encode (decode (encode (decode raw))) = encode (decode raw) := by
  refine ⟨fun buffer => ?_, ?_, fun b hb => ?_, decode_encode value, ?_, ?_⟩
  · rw [toList_write, encode_eq]
  · rw [encode_eq]
    exact List.cons_ne_nil _ _
  · simpa using mem_encode hb
  · rintro raw hne rfl
    exact length_encode_le_of_decode hne
  · intro raw hne
    exact ⟨length_encode_le_of_decode hne, by rw [decode_encode]⟩

-- The least number under a plus sign: its digits reach it by wrapping around.
def wrappedMinimum : List UInt8 :=
  Symbol.space :: Symbol.tab :: List.replicate 63 Symbol.space

theorem written_run_is_shortest_wrappedMinimum :
    wrappedMinimum ≠ [] ∧ decode wrappedMinimum = Int64.minValue ∧
      (write Int64.minValue #[Symbol.feed]).toList = Symbol.feed :: encode Int64.minValue ∧
      (encode Int64.minValue).head? = some Symbol.tab ∧
      (encode Int64.minValue).length ≤ wrappedMinimum.length := by
  obtain ⟨hwrite, -, -, -, hshortest, -⟩ := written_run_is_shortest Int64.minValue
  have hdecode : decode wrappedMinimum = Int64.minValue := by decide +kernel
  have hne : wrappedMinimum ≠ [] := List.cons_ne_nil _ _
  exact ⟨hne, hdecode, hwrite #[Symbol.feed], by decide +kernel, hshortest _ hne hdecode⟩

end Writing

end Esoterica.Whitespace.Number
