import Mathlib

/-!
# Bit counts of machine words

The counts of zero bits at the two ends of a word, as the processor gives them: a word without a set
bit has as many zeros at either end as it has bits.
-/

namespace MeowRs.WordBits

/-- The zero bits of a word of `bits` bits below its lowest set bit. -/
def trailingZeros : Nat → Nat → Nat
  | 0, _ => 0
  | bits + 1, value => if value % 2 = 1 then 0 else trailingZeros bits (value / 2) + 1

/-- The zero bits of a word of `bits` bits above its highest set bit. -/
def leadingZeros (bits value : Nat) : Nat :=
  if value = 0 then bits else bits - 1 - Nat.log2 value

theorem two_pow_trailingZeros_dvd (bits v : Nat) : 2 ^ trailingZeros bits v ∣ v := by
  induction bits generalizing v with
  | zero => exact Nat.one_dvd _
  | succ bits ih =>
    rw [trailingZeros]
    split
    · exact Nat.one_dvd _
    · have hh : v = v / 2 * 2 := by omega
      rw [hh, Nat.mul_div_cancel _ (by decide : 0 < 2), Nat.pow_succ]
      exact Nat.mul_dvd_mul_right (ih _) 2

theorem sub_leadingZeros {bits v : Nat} (hp : v ≠ 0) (hf : v < 2 ^ bits) :
    bits - 1 - leadingZeros bits v = Nat.log2 v := by
  have hs : Nat.log2 v < bits := (Nat.log2_lt hp).mpr hf
  rw [leadingZeros, if_neg hp]
  omega

end MeowRs.WordBits
