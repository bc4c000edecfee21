import Mathlib.Tactic

/-!
# Masks and shifts as arithmetic

What a mask of low bits, a shift, and a shift joined with low bits are on the numbers behind the
vectors.
-/

namespace Bits

variable {w k : ℕ}

theorem toNat_and_mask {x m : BitVec w} (hm : m.toNat = 2 ^ k - 1) :
    (x &&& m).toNat = x.toNat % 2 ^ k := by
  rw [BitVec.toNat_and, hm, Nat.and_two_pow_sub_one_eq_mod]

theorem shiftRight_eq_zero_iff (x : BitVec w) (k : ℕ) : x >>> k = 0 ↔ x.toNat < 2 ^ k := by
  rw [← BitVec.toNat_inj, BitVec.toNat_ushiftRight, Nat.shiftRight_eq_div_pow]
  exact Nat.div_eq_zero_iff_lt (Nat.two_pow_pos k)

/-- A shifted vector joined with one that fits the vacated bits is their sum. -/
theorem toNat_shiftLeft_or {x y : BitVec w} (hk : k ≤ w) (hy : y.toNat < 2 ^ k) :
    ((x <<< k) ||| y).toNat = (x.toNat * 2 ^ k + y.toNat) % 2 ^ w := by
  obtain ⟨d, rfl⟩ := Nat.exists_eq_add_of_le hk
  have hx : x.toNat * 2 ^ k % 2 ^ (k + d) = 2 ^ k * (x.toNat % 2 ^ d) := by
    rw [mul_comm, pow_add, Nat.mul_mod_mul_left]
  have hlt : 2 ^ k * (x.toNat % 2 ^ d) + y.toNat < 2 ^ (k + d) := by
    have hm : x.toNat % 2 ^ d < 2 ^ d := Nat.mod_lt _ (Nat.two_pow_pos d)
    calc 2 ^ k * (x.toNat % 2 ^ d) + y.toNat < 2 ^ k * (x.toNat % 2 ^ d) + 2 ^ k := by omega
      _ = 2 ^ k * (x.toNat % 2 ^ d + 1) := by ring
      _ ≤ 2 ^ k * 2 ^ d := Nat.mul_le_mul_left _ hm
      _ = 2 ^ (k + d) := by rw [pow_add]
  rw [BitVec.toNat_or, BitVec.toNat_shiftLeft, Nat.shiftLeft_eq, hx,
    ← Nat.two_pow_add_eq_or_of_lt hy, Nat.add_mod, hx]
  rw [Nat.mod_eq_of_lt (a := y.toNat) (by omega), Nat.mod_eq_of_lt hlt]

/-- A shifted vector joined with a narrower one, when nothing is shifted out. -/
theorem toNat_shiftLeft_or_setWidth {x : BitVec w} {y : BitVec k} (hk : k ≤ w)
    (hx : x.toNat * 2 ^ k + y.toNat < 2 ^ w) :
    ((x <<< k) ||| y.setWidth w).toNat = x.toNat * 2 ^ k + y.toNat := by
  have hyk : y.toNat < 2 ^ k := y.isLt
  have hy : (y.setWidth w).toNat = y.toNat := by
    rw [BitVec.toNat_setWidth, Nat.mod_eq_of_lt (lt_of_lt_of_le hyk
      (Nat.pow_le_pow_right (by omega) hk))]
  rw [toNat_shiftLeft_or hk (by omega), hy, Nat.mod_eq_of_lt hx]

end Bits
