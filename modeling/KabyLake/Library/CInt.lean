import Mathlib.Tactic

/-!
# Integer types of C

A type is a signedness and a width, and a value of it the vector of its bits. An operand is promoted
to `int` where `int`, of `w` bits, holds its values, and two operands are brought to one type. A
signed shift has no value when its operand is negative or its result does not fit the type.
-/

namespace CInt

structure IntType where
  signed : Bool
  width : ℕ
  deriving DecidableEq, Repr

/-- `int`, when it has `w` bits. -/
abbrev int (w : ℕ) : IntType := ⟨true, w⟩

/-- An unsigned type, or a bit-field of one. -/
abbrev uint (w : ℕ) : IntType := ⟨false, w⟩

/-- The type can represent the number. -/
def IntType.Fits (τ : IntType) (n : ℤ) : Prop :=
  if τ.signed then -2 ^ τ.width ≤ 2 * n ∧ 2 * n < 2 ^ τ.width else 0 ≤ n ∧ n < 2 ^ τ.width

instance (τ : IntType) (n : ℤ) : Decidable (τ.Fits n) :=
  inferInstanceAs (Decidable (if τ.signed then _ else _))

/-- The integer promotion. -/
def IntType.promoted (w : ℕ) (τ : IntType) : IntType :=
  if if τ.signed then τ.width ≤ w else τ.width < w then int w else τ

/-- The usual arithmetic conversions of promoted operands, the wider type being of higher rank. -/
def IntType.common (σ τ : IntType) : IntType :=
  if σ.width < τ.width then τ
  else if τ.width < σ.width then σ
  else ⟨σ.signed && τ.signed, σ.width⟩

@[ext]
structure Value (τ : IntType) where
  bits : BitVec τ.width
  deriving DecidableEq, Repr

variable {w k : ℕ} {σ τ : IntType}

def Value.num (v : Value τ) : ℤ := if τ.signed then v.bits.toInt else v.bits.toNat

/-- The value of a type for a number, which keeps its low bits if it does not fit. -/
def ofNum (τ : IntType) (n : ℤ) : Value τ := ⟨BitVec.ofInt τ.width n⟩

def Value.convert (τ : IntType) (v : Value σ) : Value τ := ofNum τ v.num

def Value.promote (w : ℕ) (v : Value σ) : Value (σ.promoted w) := v.convert _

/-- What is read from an unsigned bit-field. -/
def field (x : BitVec k) : Value (uint k) := ⟨x⟩

/-- `v << count`, in the promoted type of `v`. -/
def shl (w : ℕ) (v : Value σ) (count : Value τ) : Option (Value (σ.promoted w)) :=
  let shifted := (v.promote w).num * 2 ^ count.num.toNat
  if count.num < 0 ∨ (σ.promoted w).width ≤ count.num then none
  else if (σ.promoted w).signed ∧ ((v.promote w).num < 0 ∨ ¬ (σ.promoted w).Fits shifted) then none
  else some (ofNum _ shifted)

/-- `a | b`. -/
def bitOr (w : ℕ) (a : Value σ) (b : Value τ) :
    Value (IntType.common (σ.promoted w) (τ.promoted w)) :=
  let type := IntType.common (σ.promoted w) (τ.promoted w)
  ⟨((a.promote w).convert type).bits ||| ((b.promote w).convert type).bits⟩

@[simp]
theorem num_field (x : BitVec k) : (field x).num = x.toNat := rfl

theorem Value.fits_num (v : Value τ) : τ.Fits v.num := by
  obtain ⟨s, width⟩ := τ
  cases s with
  | false =>
    have hlt : (v.bits.toNat : ℤ) < 2 ^ width := by exact_mod_cast v.bits.isLt
    exact ⟨Int.natCast_nonneg v.bits.toNat, hlt⟩
  | true => exact ⟨BitVec.le_two_mul_toInt, BitVec.two_mul_toInt_lt⟩

/-- The promoted type represents all numbers the type does. -/
theorem IntType.Fits.promoted {n : ℤ} (h : τ.Fits n) : (τ.promoted w).Fits n := by
  unfold IntType.promoted
  split_ifs with hs hw hw
  · have hpow : (2 : ℤ) ^ τ.width ≤ 2 ^ w := pow_le_pow_right₀ (by norm_num) hw
    rw [Fits, if_pos hs] at h
    show -2 ^ w ≤ 2 * n ∧ 2 * n < 2 ^ w
    omega
  · exact h
  · have hpow : (2 : ℤ) ^ (τ.width + 1) ≤ 2 ^ w := pow_le_pow_right₀ (by norm_num) hw
    rw [pow_succ] at hpow
    rw [Fits, if_neg hs] at h
    show -2 ^ w ≤ 2 * n ∧ 2 * n < 2 ^ w
    omega
  · exact h

/-- A number that fits is the one of its value. -/
theorem num_ofNum {n : ℤ} (h : τ.Fits n) : (ofNum τ n).num = n := by
  obtain ⟨s, width⟩ := τ
  cases s with
  | false =>
    obtain ⟨h0, hlt⟩ : 0 ≤ n ∧ n < 2 ^ width := h
    show ((BitVec.ofInt width n).toNat : ℤ) = n
    rw [BitVec.toNat_ofInt, Int.emod_eq_of_lt h0 (by exact_mod_cast hlt), Int.toNat_of_nonneg h0]
  | true =>
    obtain ⟨hle, hlt⟩ : -2 ^ width ≤ 2 * n ∧ 2 * n < 2 ^ width := h
    show (BitVec.ofInt width n).toInt = n
    rw [BitVec.toInt_ofInt]
    refine Int.bmod_eq_of_le_mul_two ?_ ?_ <;> push_cast <;> omega

/-- A promotion keeps the number. -/
@[simp]
theorem Value.num_promote (v : Value σ) : (v.promote w).num = v.num := num_ofNum v.fits_num.promoted

/-- Of a signed type one bit is the sign's. -/
theorem IntType.fits_natCast {n : ℕ} :
    τ.Fits n ↔ (if τ.signed then n <<< 1 else n) < 2 ^ τ.width := by
  have hcast : ((2 ^ τ.width : ℕ) : ℤ) = 2 ^ τ.width := by push_cast; rfl
  unfold IntType.Fits
  rw [← hcast, Nat.shiftLeft_eq, pow_one]
  split_ifs <;> omega

theorem IntType.Fits.lt {n : ℕ} (h : τ.Fits n) : n < 2 ^ τ.width := by
  rw [IntType.fits_natCast, Nat.shiftLeft_eq, pow_one] at h
  split_ifs at h <;> omega

theorem IntType.Fits.or {m n : ℕ} (hm : τ.Fits m) (hn : τ.Fits n) : τ.Fits (m ||| n : ℕ) := by
  rw [IntType.fits_natCast] at hm hn ⊢
  split_ifs at hm hn ⊢
  · rw [Nat.shiftLeft_or_distrib]
    exact Nat.or_lt_two_pow hm hn
  · exact Nat.or_lt_two_pow hm hn

/-- The bits of a number that fits and is not negative. -/
theorem toNat_ofNum {n : ℕ} (h : τ.Fits n) : (ofNum τ n).bits.toNat = n := by
  show (BitVec.ofInt τ.width n).toNat = n
  rw [BitVec.ofInt_natCast, BitVec.toNat_ofNat, Nat.mod_eq_of_lt h.lt]

/-- A shift of an operand that is signed once promoted has a value if it fits. -/
theorem shl_signed {v : Value σ} {count : Value τ} {n : ℕ} (hv : v.num = n) (hcount : count.num = k)
    (hk : k < (σ.promoted w).width) (hs : (σ.promoted w).signed) :
    shl w v count = if (σ.promoted w).Fits (n * 2 ^ k : ℕ)
      then some (ofNum _ (n * 2 ^ k : ℕ)) else none := by
  have hin : ¬ (count.num < 0 ∨ (σ.promoted w).width ≤ count.num) := by omega
  have hneg : ¬ (n : ℤ) < 0 := by omega
  rw [shl, if_neg hin, hcount, Value.num_promote, hv]
  simp [hs, hneg]

/-- Of operands that are not negative and fit the common type, the bits are joined. -/
theorem num_bitOr {a : Value σ} {b : Value τ} {m n : ℕ} (ha : a.num = m) (hb : b.num = n)
    (hm : (IntType.common (σ.promoted w) (τ.promoted w)).Fits m)
    (hn : (IntType.common (σ.promoted w) (τ.promoted w)).Fits n) :
    (bitOr w a b).num = (m ||| n : ℕ) := by
  have hbits : bitOr w a b = ofNum _ (m ||| n : ℕ) := by
    ext1
    apply BitVec.eq_of_toNat_eq
    rw [toNat_ofNum (hm.or hn), bitOr, Value.convert, Value.convert, Value.num_promote, ha,
      Value.num_promote, hb, BitVec.toNat_or, toNat_ofNum hm, toNat_ofNum hn]
  rw [hbits, num_ofNum (hm.or hn)]

end CInt
