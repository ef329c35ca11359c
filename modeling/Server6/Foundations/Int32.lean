import Mathlib.Algebra.Group.Int.Defs
import Mathlib.Algebra.Group.Nat.Defs
import Mathlib.Tactic.Common

/-!
# 32-bit integers

Values of an `int` that are known to be small natural numbers, and the shifts by such values.
-/

namespace Server6

theorem toInt_add_of_bounds {a b : Int32} (hle : -2 ^ 31 ≤ a.toInt + b.toInt)
    (hlt : a.toInt + b.toInt < 2 ^ 31) : (a + b).toInt = a.toInt + b.toInt := by
  rw [Int32.toInt_add]
  apply Int.bmod_eq_of_le <;> omega

theorem toInt_sub_of_bounds {a b : Int32} (hle : -2 ^ 31 ≤ a.toInt - b.toInt)
    (hlt : a.toInt - b.toInt < 2 ^ 31) : (a - b).toInt = a.toInt - b.toInt := by
  rw [Int32.toInt_sub]
  apply Int.bmod_eq_of_le <;> omega

/-- A non-negative value is a natural number. -/
theorem exists_ofNat {a : Int32} (h : 0 ≤ a.toInt) :
    ∃ n < 2 ^ 31, a = Int32.ofNat n ∧ a.toInt = n := by
  have hlt := a.toInt_lt
  refine ⟨a.toInt.toNat, by omega, ?_, by omega⟩
  apply Int32.toInt.inj
  rw [Int32.toInt_ofNat_of_lt (by omega)]
  omega

/-- The count of a shift below 32 is taken as it is. -/
theorem smod_ofNat {k : ℕ} (hk : k < 32) :
    (Int32.ofNat k).toBitVec.smod 32 = BitVec.ofNat 32 k := by
  decide +revert

theorem toBitVec_shiftLeft_ofNat (x : Int32) {k : ℕ} (hk : k < 32) :
    (x <<< Int32.ofNat k).toBitVec = x.toBitVec <<< k := by
  rw [Int32.toBitVec_shiftLeft, smod_ofNat hk, BitVec.shiftLeft_eq', BitVec.toNat_ofNat,
    Nat.mod_eq_of_lt (by omega)]

theorem toBitVec_shiftRight_ofNat (x : Int32) {k : ℕ} (hk : k < 32) :
    (x >>> Int32.ofNat k).toBitVec = x.toBitVec.sshiftRight k := by
  rw [Int32.toBitVec_shiftRight, smod_ofNat hk, BitVec.sshiftRight_eq', BitVec.toNat_ofNat,
    Nat.mod_eq_of_lt (by omega)]

/-- Masking keeps the low end. -/
theorem and_ofNat_mask (x : Int32) {k : ℕ} (hk : k ≤ 32) :
    x &&& Int32.ofNat (2 ^ k - 1) = Int32.ofNat (x.toBitVec.toNat % 2 ^ k) := by
  have hpow : 2 ^ k ≤ 2 ^ 32 := Nat.pow_le_pow_right (by omega) hk
  have hmod := Nat.mod_lt x.toBitVec.toNat (Nat.two_pow_pos k)
  apply Int32.toBitVec_inj.1
  apply BitVec.eq_of_toNat_eq
  show (x.toBitVec &&& BitVec.ofNat 32 (2 ^ k - 1)).toNat =
    (BitVec.ofNat 32 (x.toBitVec.toNat % 2 ^ k)).toNat
  rw [BitVec.toNat_and, BitVec.toNat_ofNat, BitVec.toNat_ofNat, Nat.mod_eq_of_lt (by omega),
    Nat.mod_eq_of_lt (by omega), Nat.and_two_pow_sub_one_eq_mod]

theorem toNat_toBitVec_ofNat {n : ℕ} (h : n < 2 ^ 32) : (Int32.ofNat n).toBitVec.toNat = n :=
  (BitVec.toNat_ofNat n 32).trans (Nat.mod_eq_of_lt h)

end Server6
