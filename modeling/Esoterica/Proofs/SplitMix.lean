import Esoterica.SplitMix
import Mathlib.Data.FinEnum
import Mathlib.Data.Finset.Prod

namespace Esoterica.SplitMix

-- The generator after `count` words have been taken from it.
def later (g : SplitMix) : Nat → SplitMix
  | 0 => g
  | count + 1 => (g.later count).next64.2

theorem later_later (g : SplitMix) (m n : Nat) : (g.later m).later n = g.later (m + n) := by
  induction n with
  | zero => rfl
  | succ n ih => exact congrArg (·.next64.2) ih

theorem later_eq (g : SplitMix) (count : Nat) :
    g.later count = ⟨g.state + UInt64.ofNat count * gamma⟩ := by
  induction count with
  | zero => simp [later]
  | succ count ih =>
    rw [later, ih, UInt64.ofNat_add, UInt64.add_mul, ← UInt64.add_assoc]
    simp [next64]

section Mixing

-- A word with its upper bits laid over its lower ones.
def overlay (k z : UInt64) : UInt64 :=
  z ^^^ (z >>> k)

-- The word that has been laid over itself, if a third shift would leave nothing of it.
def peel (k z : UInt64) : UInt64 :=
  z ^^^ (z >>> k) ^^^ (z >>> (k + k))

theorem peel_overlay {k : UInt64} (hlow : 22 ≤ k.toNat) (hhigh : k.toNat < 32) (z : UInt64) :
    peel k (overlay k z) = z := by
  have hone : k.toNat % 64 = k.toNat := by omega
  have htwo : (k + k).toNat % 64 = k.toNat + k.toNat := by
    rw [UInt64.toNat_add]
    omega
  have hthree (i : Nat) : z.toNat.testBit (k.toNat + (k.toNat + (k.toNat + i))) = false := by
    refine Nat.testBit_lt_two_pow (Nat.lt_of_lt_of_le z.toNat_lt ?_)
    exact Nat.pow_le_pow_right (by omega) (by omega)
  apply UInt64.toNat_inj.mp
  apply Nat.eq_of_testBit_eq
  intro i
  -- the bits `i + k` and `i + 2 * k` come in twice, and bit `i + 3 * k` is none
  simp only [peel, overlay, UInt64.toNat_xor, UInt64.toNat_shiftRight, Nat.testBit_xor,
    Nat.testBit_shiftRight, hone, htwo, Nat.add_assoc, hthree]
  simp

theorem mix_eq (z : UInt64) :
    mix z = overlay 31 (overlay 27 (overlay 30 z * 0xBF58476D1CE4E5B9) * 0x94D049BB133111EB) :=
  rfl

-- The state that has been mixed into a word.
def unmix (word : UInt64) : UInt64 :=
  peel 30 (peel 27 (peel 31 word * 0x319642B2D24D8EC3) * 0x96DE1B173F119089)

theorem unmix_mix : Function.LeftInverse unmix mix := by
  intro z
  have hfirst : (0xBF58476D1CE4E5B9 : UInt64) * 0x96DE1B173F119089 = 1 := by decide
  have hsecond : (0x94D049BB133111EB : UInt64) * 0x319642B2D24D8EC3 = 1 := by decide
  rw [mix_eq, unmix, peel_overlay (by decide) (by decide), UInt64.mul_assoc, hsecond,
    UInt64.mul_one, peel_overlay (by decide) (by decide), UInt64.mul_assoc, hfirst,
    UInt64.mul_one, peel_overlay (by decide) (by decide)]

theorem mix_bijective : Function.Bijective mix :=
  Finite.injective_iff_bijective.mp unmix_mix.injective

end Mixing

section Period

-- The number of the state `u` among the multiples that are counted from `s`.
def indexOf (s u : UInt64) : UInt64 :=
  (u - s) * 0xF1DE83E19937733D

theorem add_mul_gamma_eq_iff (s n u : UInt64) : s + n * gamma = u ↔ n = indexOf s u := by
  have hgamma : gamma * 0xF1DE83E19937733D = 1 := by decide
  constructor
  · rintro rfl
    rw [indexOf]
    grind
  · rintro rfl
    rw [indexOf]
    grind

theorem existsUnique_ofNat_eq (u : UInt64) : ∃! n, n < 2 ^ 64 ∧ UInt64.ofNat n = u := by
  refine ⟨u.toNat, ⟨u.toNat_lt, UInt64.ofNat_toNat⟩, ?_⟩
  rintro n ⟨hlt, rfl⟩
  exact (UInt64.toNat_ofNat_of_lt' hlt).symm

theorem next64_later (g : SplitMix) (start n : Nat) :
    (g.later (start + n)).next64.1 =
      mix ((g.later (start + 1)).state + UInt64.ofNat n * gamma) := by
  have hnext : (g.later (start + n)).next64.1 = mix (g.later (start + n + 1)).state := rfl
  rw [hnext, Nat.add_right_comm, ← later_later, later_eq (g.later (start + 1))]

-- Of 2^64 words that follow one another, each word is one.
theorem existsUnique_word (g : SplitMix) (start : Nat) (word : UInt64) :
    ∃! n, n < 2 ^ 64 ∧ (g.later (start + n)).next64.1 = word := by
  obtain ⟨state, rfl⟩ := mix_bijective.2 word
  simp only [next64_later, mix_bijective.1.eq_iff, add_mul_gamma_eq_iff]
  exact existsUnique_ofNat_eq _

-- What holds of so many numbers below 2^64 holds of as many words in a row.
theorem card_words (g : SplitMix) (start : Nat) (p : Nat → Prop) [DecidablePred p] :
    ((Finset.range (2 ^ 64)).filter fun n => p (g.later (start + n)).next64.1.toNat).card =
      ((Finset.range (2 ^ 64)).filter p).card := by
  apply Finset.card_bij fun n _ => (g.later (start + n)).next64.1.toNat
  · intro n hn
    obtain ⟨-, hp⟩ := Finset.mem_filter.mp hn
    exact Finset.mem_filter.mpr ⟨Finset.mem_range.mpr (UInt64.toNat_lt _), hp⟩
  · intro m hm n hn hmn
    have hm' := Finset.mem_range.mp (Finset.mem_filter.mp hm).1
    have hn' := Finset.mem_range.mp (Finset.mem_filter.mp hn).1
    exact (existsUnique_word g start _).unique ⟨hm', UInt64.toNat_inj.mp hmn⟩ ⟨hn', rfl⟩
  · intro number hnumber
    obtain ⟨hrange, hp⟩ := Finset.mem_filter.mp hnumber
    obtain ⟨n, ⟨hn, hword⟩, -⟩ := existsUnique_word g start (UInt64.ofNat number)
    have hnat : (g.later (start + n)).next64.1.toNat = number := by
      rw [hword]
      exact UInt64.toNat_ofNat_of_lt' (Finset.mem_range.mp hrange)
    refine ⟨n, Finset.mem_filter.mpr ⟨Finset.mem_range.mpr hn, ?_⟩, hnat⟩
    rwa [hnat]

end Period

end Esoterica.SplitMix
