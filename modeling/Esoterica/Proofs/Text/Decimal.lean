import Esoterica.Text.Decimal
import Mathlib.Data.List.Basic

namespace Esoterica.Text.Decimal

theorem le_ofDigitChars (digits : List Char) (value : Nat) :
    value ≤ Nat.ofDigitChars 10 digits value := by
  induction digits generalizing value with
  | nil => simp
  | cons c rest ih =>
    rw [Nat.ofDigitChars_cons]
    have := ih (10 * value + (c.toNat - '0'.toNat))
    omega

-- The value only grows from digit to digit, so that the last one alone meets the limit.
theorem foldDigits_eq {limit : Nat} {digits : List Char} {value : Nat}
    (hdigits : ∀ c ∈ digits, c.isDigit = true) (hle : Nat.ofDigitChars 10 digits value ≤ limit) :
    foldDigits limit value digits = .ok (Nat.ofDigitChars 10 digits value) := by
  induction digits generalizing value with
  | nil => simp [foldDigits]
  | cons c rest ih =>
    have hvalue : 10 * value + (c.toNat - '0'.toNat) = value * 10 + (c.toNat - 48) := by
      have : '0'.toNat = 48 := rfl
      omega
    rw [Nat.ofDigitChars_cons, hvalue] at hle ⊢
    have hfirst : value * 10 + (c.toNat - 48) ≤ limit := Nat.le_trans (le_ofDigitChars rest _) hle
    simp only [foldDigits, hdigits c List.mem_cons_self, if_true, hfirst]
    exact ih (fun d hd => hdigits d (List.mem_cons_of_mem c hd)) hle

theorem ofNat_ne_nil (n : Nat) : ofNat n ≠ [] :=
  Nat.toDigits_ne_nil

theorem isDigit_of_mem_ofNat {n : Nat} {c : Char} (h : c ∈ ofNat n) : c.isDigit = true :=
  Nat.isDigit_of_mem_toDigits (by omega) (by omega) h

theorem readInt64_of_digits {digits : List Char} (hne : digits ≠ [])
    (hdigits : ∀ c ∈ digits, c.isDigit = true) :
    readInt64 digits = (readDigits Int64.maxValue.toInt.toNat digits).map Int64.ofNat := by
  unfold readInt64
  split
  · exact absurd rfl hne
  · have := hdigits '+' List.mem_cons_self
    simp at this
  · have := hdigits '-' List.mem_cons_self
    simp at this
  · rfl

-- The first digit that is none, or that goes beyond the limit, ends the reading.
theorem foldDigits_eq_ok {limit : Nat} {digits : List Char} {value n : Nat} (hle : value ≤ limit)
    (h : foldDigits limit value digits = .ok n) :
    (∀ c ∈ digits, c.isDigit = true) ∧ n = Nat.ofDigitChars 10 digits value ∧ n ≤ limit := by
  induction digits generalizing value with
  | nil =>
    cases h
    exact ⟨by simp, rfl, hle⟩
  | cons c rest ih =>
    rw [foldDigits] at h
    split at h
    case isFalse => cases h
    case isTrue hdigit =>
      dsimp only at h
      split at h
      case isFalse => cases h
      case isTrue hnext =>
        obtain ⟨hrest, hn, hlimit⟩ := ih hnext h
        refine ⟨List.forall_mem_cons.mpr ⟨hdigit, hrest⟩, ?_, hlimit⟩
        rw [hn, Nat.ofDigitChars_cons, Nat.mul_comm]
        rfl

theorem readDigits_eq_ok {limit : Nat} {digits : List Char} {n : Nat} :
    readDigits limit digits = .ok n ↔ digits ≠ [] ∧ (∀ c ∈ digits, c.isDigit = true) ∧
      n = Nat.ofDigitChars 10 digits 0 ∧ n ≤ limit := by
  cases digits with
  | nil => simp [readDigits]
  | cons c rest =>
    constructor
    · intro h
      exact ⟨List.cons_ne_nil _ _, foldDigits_eq_ok (Nat.zero_le _) h⟩
    · rintro ⟨-, hdigits, rfl, hle⟩
      exact foldDigits_eq hdigits hle

-- The word is a number: digits, perhaps with a sign in front.
def Denotes (word : List Char) (value : Int) : Prop :=
  ∃ sign digits, word = sign ++ digits ∧ digits ≠ [] ∧ (∀ c ∈ digits, c.isDigit = true) ∧
    ((sign = [] ∨ sign = ['+']) ∧ value = Nat.ofDigitChars 10 digits 0 ∨
      sign = ['-'] ∧ value = -(Nat.ofDigitChars 10 digits 0 : Int))

theorem map_readDigits_eq_ok {limit : Nat} {digits : List Char} {f : Nat → Int64} {value : Int64} :
    (readDigits limit digits).map f = .ok value ↔
      digits ≠ [] ∧ (∀ c ∈ digits, c.isDigit = true) ∧ Nat.ofDigitChars 10 digits 0 ≤ limit ∧
        f (Nat.ofDigitChars 10 digits 0) = value := by
  constructor
  · intro h
    cases hn : readDigits limit digits with
    | error fault =>
      rw [hn] at h
      cases h
    | ok n =>
      rw [hn] at h
      obtain ⟨hne, hdigits, rfl, hle⟩ := readDigits_eq_ok.mp hn
      exact ⟨hne, hdigits, hle, Except.ok.inj h⟩
  · rintro ⟨hne, hdigits, hle, rfl⟩
    rw [readDigits_eq_ok.mpr ⟨hne, hdigits, rfl, hle⟩]
    rfl

-- A number of the range has one value of 64 bits.
theorem ofNat_eq_iff {n : Nat} {value : Int64} :
    n ≤ Int64.maxValue.toInt.toNat ∧ Int64.ofNat n = value ↔ value.toInt = n := by
  rw [Int64.toInt_maxValue]
  constructor
  · rintro ⟨hle, rfl⟩
    exact Int64.toInt_ofNat_of_lt (by omega)
  · intro h
    have hupper := Int64.toInt_lt value
    have hn : n < 2 ^ 63 := by omega
    refine ⟨by omega, Int64.toInt.inj ?_⟩
    rw [Int64.toInt_ofNat_of_lt hn, h]

theorem ofInt_neg_eq_iff {n : Nat} {value : Int64} :
    n ≤ Int64.minValue.toInt.natAbs ∧ Int64.ofInt (-n) = value ↔ value.toInt = -n := by
  rw [Int64.toInt_minValue]
  constructor
  · rintro ⟨hle, rfl⟩
    exact Int64.toInt_ofInt_of_le (by omega) (by omega)
  · intro h
    have hlower := Int64.le_toInt value
    refine ⟨by omega, Int64.toInt.inj ?_⟩
    rw [Int64.toInt_ofInt_of_le (by omega) (by omega), h]

theorem readInt64_minus (digits : List Char) :
    readInt64 ('-' :: digits) =
      (readDigits Int64.minValue.toInt.natAbs digits).map fun n : Nat => Int64.ofInt (-n) := by
  rw [readInt64]
  cases readDigits Int64.minValue.toInt.natAbs digits <;> rfl

theorem readInt64_eq_ok {word : List Char} {value : Int64} :
    readInt64 word = .ok value ↔ Denotes word value.toInt := by
  constructor
  · intro h
    have hminus := readInt64_minus word.tail
    unfold readInt64 at h
    split at h
    · cases h
    · obtain ⟨hne, hdigits, hvalue⟩ := map_readDigits_eq_ok.mp h
      exact ⟨['+'], _, rfl, hne, hdigits, .inl ⟨.inr rfl, ofNat_eq_iff.mp hvalue⟩⟩
    · rw [List.tail_cons] at hminus
      obtain ⟨hne, hdigits, hvalue⟩ := map_readDigits_eq_ok.mp (hminus.symm.trans h)
      exact ⟨['-'], _, rfl, hne, hdigits, .inr ⟨rfl, ofInt_neg_eq_iff.mp hvalue⟩⟩
    · obtain ⟨hne, hdigits, hvalue⟩ := map_readDigits_eq_ok.mp h
      exact ⟨[], _, rfl, hne, hdigits, .inl ⟨.inl rfl, ofNat_eq_iff.mp hvalue⟩⟩
  · rintro ⟨sign, digits, rfl, hne, hdigits, ⟨rfl | rfl, hvalue⟩ | ⟨rfl, hvalue⟩⟩
    · rw [List.nil_append, readInt64_of_digits hne hdigits]
      exact map_readDigits_eq_ok.mpr ⟨hne, hdigits, ofNat_eq_iff.mpr hvalue⟩
    · exact map_readDigits_eq_ok.mpr ⟨hne, hdigits, ofNat_eq_iff.mpr hvalue⟩
    · rw [List.singleton_append, readInt64_minus]
      exact map_readDigits_eq_ok.mpr ⟨hne, hdigits, ofInt_neg_eq_iff.mpr hvalue⟩

theorem denotes_ofInt (z : Int) : Denotes (ofInt z) z := by
  have hvalue (n : Nat) : Nat.ofDigitChars 10 (ofNat n) 0 = n := Nat.ofDigitChars_ten_toDigits
  have hdigits (n : Nat) : ∀ c ∈ ofNat n, c.isDigit = true := fun c => isDigit_of_mem_ofNat
  cases z with
  | ofNat n =>
    refine ⟨[], ofNat n, rfl, ofNat_ne_nil n, hdigits n, .inl ⟨.inl rfl, ?_⟩⟩
    rw [hvalue]
    rfl
  | negSucc n =>
    refine ⟨['-'], ofNat (n + 1), rfl, ofNat_ne_nil (n + 1), hdigits (n + 1), .inr ⟨rfl, ?_⟩⟩
    rw [hvalue, Int.negSucc_eq]
    omega

theorem readInt64_ofInt (value : Int64) : readInt64 (ofInt value.toInt) = .ok value :=
  readInt64_eq_ok.mpr (denotes_ofInt value.toInt)

theorem mem_ofInt {z : Int} {c : Char} (h : c ∈ ofInt z) : c = '-' ∨ c.isDigit = true := by
  cases z with
  | ofNat n => exact .inr (isDigit_of_mem_ofNat h)
  | negSucc n =>
    rcases List.mem_cons.mp h with rfl | h
    · exact .inl rfl
    · exact .inr (isDigit_of_mem_ofNat h)

theorem ofInt_ne_nil (z : Int) : ofInt z ≠ [] := by
  cases z with
  | ofNat n => exact ofNat_ne_nil n
  | negSucc n => exact List.cons_ne_nil _ _

theorem padded_ne_nil (width n : Nat) : padded width n ≠ [] := by
  simp [padded, ofNat_ne_nil]

theorem isDigit_of_mem_padded {width n : Nat} {c : Char} (h : c ∈ padded width n) :
    c.isDigit = true := by
  rcases List.mem_append.mp h with h | h
  · rw [List.eq_of_mem_replicate h]
    rfl
  · exact isDigit_of_mem_ofNat h

-- The digits stand for the number, with zeros in front of it up to the width and no further.
structure Filled (width : Nat) (digits : List Char) (n : Nat) : Prop where
  width_le : width ≤ digits.length
  isDigit : ∀ c ∈ digits, c.isDigit = true
  value : Nat.ofDigitChars 10 digits 0 = n
  head?_ne : width < digits.length → digits.head? ≠ some '0'

theorem head?_ofNat_ne {n : Nat} (h : 0 < n) : (ofNat n).head? ≠ some '0' := by
  induction n using Nat.strongRecOn with
  | ind n ih =>
    by_cases hn : n < 10
    · rw [ofNat, Nat.toDigits_of_lt_base hn]
      simpa [Nat.digitChar_eq_zero] using Nat.ne_of_gt h
    · have hrest := ih (n / 10) (by omega) (by omega)
      rw [ofNat, Nat.toDigits_of_base_le (by omega) (by omega),
        List.head?_append_of_ne_nil _ Nat.toDigits_ne_nil]
      exact hrest

theorem length_padded (width n : Nat) : (padded width n).length = max width (ofNat n).length := by
  simp only [padded, List.length_append, List.length_replicate]
  omega

theorem filled_padded {width : Nat} (h : 0 < width) (n : Nat) :
    Filled width (padded width n) n where
  width_le := by
    rw [length_padded]
    exact Nat.le_max_left _ _
  isDigit c hc := isDigit_of_mem_padded hc
  value := by
    rw [padded, Nat.ofDigitChars_append, Nat.ofDigitChars_replicate_zero, Nat.mul_zero]
    exact Nat.ofDigitChars_ten_toDigits
  head?_ne hlong := by
    rw [length_padded] at hlong
    have hwide : width < (ofNat n).length := by omega
    have hpos : 0 < n := by
      by_contra hzero
      obtain rfl : n = 0 := by omega
      have hone : (ofNat 0).length = 1 := rfl
      omega
    rw [padded, Nat.sub_eq_zero_of_le (Nat.le_of_lt hwide), List.replicate_zero, List.nil_append]
    exact head?_ofNat_ne hpos

theorem toNat_of_isDigit {c : Char} (h : c.isDigit = true) : 48 ≤ c.toNat ∧ c.toNat ≤ 57 := by
  simp only [Char.isDigit, Bool.and_eq_true, decide_eq_true_eq] at h
  exact ⟨UInt32.le_iff_toNat_le.mp h.1, UInt32.le_iff_toNat_le.mp h.2⟩

end Esoterica.Text.Decimal
