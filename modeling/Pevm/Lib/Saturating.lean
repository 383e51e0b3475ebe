import Mathlib.Data.BitVec
import Mathlib.Tactic.SplitIfs

/-!
# Saturating arithmetic

Unsigned words with addition, subtraction and multiplication that stop at the bounds, as functions
of the natural numbers the words stand for.
-/

namespace Saturating

variable {w : Nat}

/-- Addition that stops at the largest word. -/
def saturatingAdd (a b : BitVec w) : BitVec w :=
  if a.toNat + b.toNat < 2 ^ w then a + b else BitVec.allOnes w

/-- Subtraction that stops at zero. -/
def saturatingSub (a b : BitVec w) : BitVec w :=
  if b ≤ a then a - b else 0

/-- Multiplication that stops at the largest word. -/
def saturatingMul (a b : BitVec w) : BitVec w :=
  if a.toNat * b.toNat < 2 ^ w then a * b else BitVec.allOnes w

/-- The distance of two words. -/
def absDiff (a b : BitVec w) : BitVec w :=
  if b ≤ a then a - b else b - a

theorem toNat_saturatingAdd (a b : BitVec w) :
    (saturatingAdd a b).toNat = min (a.toNat + b.toNat) (2 ^ w - 1) := by
  unfold saturatingAdd
  split_ifs with h
  · rw [BitVec.toNat_add, Nat.mod_eq_of_lt h]
    omega
  · rw [BitVec.toNat_allOnes]
    omega

theorem toNat_saturatingSub (a b : BitVec w) : (saturatingSub a b).toNat = a.toNat - b.toNat := by
  unfold saturatingSub
  split_ifs with h
  · exact BitVec.toNat_sub_of_le h
  · have hlt : a.toNat < b.toNat := not_le.mp h
    have hzero : (0 : BitVec w).toNat = 0 := BitVec.toNat_zero
    omega

theorem toNat_saturatingMul (a b : BitVec w) :
    (saturatingMul a b).toNat = min (a.toNat * b.toNat) (2 ^ w - 1) := by
  unfold saturatingMul
  split_ifs with h
  · rw [BitVec.toNat_mul, Nat.mod_eq_of_lt h]
    omega
  · rw [BitVec.toNat_allOnes]
    omega

theorem toNat_saturatingMul_le (a b : BitVec w) :
    (saturatingMul a b).toNat ≤ a.toNat * b.toNat := by
  rw [toNat_saturatingMul]
  exact min_le_left _ _

theorem toNat_absDiff (a b : BitVec w) :
    (absDiff a b).toNat = if b.toNat ≤ a.toNat then a.toNat - b.toNat else b.toNat - a.toNat := by
  unfold absDiff
  simp only [BitVec.le_def]
  split_ifs with h
  · exact BitVec.toNat_sub_of_le h
  · exact BitVec.toNat_sub_of_le (not_le.mp h).le

@[simp]
theorem saturatingAdd_zero (a : BitVec w) : saturatingAdd a 0#w = a := by
  apply BitVec.eq_of_toNat_eq
  have hlt := a.isLt
  rw [toNat_saturatingAdd, BitVec.toNat_zero]
  omega

theorem saturatingAdd_assoc (a b c : BitVec w) :
    saturatingAdd (saturatingAdd a b) c = saturatingAdd a (saturatingAdd b c) := by
  apply BitVec.eq_of_toNat_eq
  simp only [toNat_saturatingAdd]
  omega

end Saturating
