import Mathlib.Algebra.Group.Int.Defs
import Mathlib.Algebra.Group.Nat.Defs

/-! Machine integers that stop at their bounds. -/

set_option autoImplicit false

namespace Wbfuwunel.Foundation

/-- The largest `UInt` of the Matrix JSON. -/
def uintMax : Nat := 2 ^ 53 - 1

def saturatingAdd32 (first second : UInt32) : UInt32 := UInt32.ofNat (min (first.toNat + second.toNat) (2 ^ 32 - 1))

def saturatingAdd64 (first second : UInt64) : UInt64 := UInt64.ofNat (min (first.toNat + second.toNat) (2 ^ 64 - 1))

theorem saturatingAdd32_toNat (a b : UInt32) : (saturatingAdd32 a b).toNat = min (a.toNat + b.toNat) (2 ^ 32 - 1) := by
  rw [saturatingAdd32, UInt32.toNat_ofNat']
  omega

theorem saturatingAdd64_toNat (a b : UInt64) : (saturatingAdd64 a b).toNat = min (a.toNat + b.toNat) (2 ^ 64 - 1) := by
  rw [saturatingAdd64, UInt64.toNat_ofNat']
  omega

theorem saturatingAdd64_one_le {a b : UInt64} (smaller : a < b) : saturatingAdd64 a 1 ≤ b := by
  rw [UInt64.lt_iff_toNat_lt] at smaller
  rw [UInt64.le_iff_toNat_le, saturatingAdd64_toNat]
  simp only [UInt64.toNat_one]
  omega

theorem lt_add_one_of_ne {n : UInt64} (lt : n ≠ 0xFFFFFFFFFFFFFFFF) : n < n + 1 := by
  have ne : n.toNat ≠ 2 ^ 64 - 1 := fun eq => lt (UInt64.toNat.inj eq)
  have small := n.toNat_lt
  rw [UInt64.lt_iff_toNat_lt, UInt64.toNat_add, UInt64.toNat_one]
  omega

theorem saturatingAdd64_one_le_iff {n o : UInt64} (lt : n ≠ 0xFFFFFFFFFFFFFFFF) : saturatingAdd64 n 1 ≤ o ↔ n < o := by
  refine ⟨fun gt => ?_, saturatingAdd64_one_le⟩
  have ne : n.toNat ≠ 2 ^ 64 - 1 := fun eq => lt (UInt64.toNat.inj eq)
  have small := n.toNat_lt
  rw [UInt64.le_iff_toNat_le, saturatingAdd64_toNat, UInt64.toNat_one] at gt
  rw [UInt64.lt_iff_toNat_lt]
  omega

def saturatingSub32 (first second : UInt32) : UInt32 := UInt32.ofNat (first.toNat - second.toNat)

theorem saturatingSub32_toNat (a b : UInt32) : (saturatingSub32 a b).toNat = a.toNat - b.toNat := by
  have lt := a.toNat_lt
  rw [saturatingSub32, UInt32.toNat_ofNat']
  omega

def saturatingSub64 (first second : UInt64) : UInt64 := UInt64.ofNat (first.toNat - second.toNat)

theorem saturatingSub64_toNat (a b : UInt64) : (saturatingSub64 a b).toNat = a.toNat - b.toNat := by
  have lt := a.toNat_lt
  rw [saturatingSub64, UInt64.toNat_ofNat']
  omega

/-- The same for a length, which is a natural number otherwise. -/
def saturatingAddLen (first second : Nat) : Nat := min (first + second) (2 ^ 64 - 1)

/-! ## Signed integers -/

/-- The nearest number a signed word can hold. -/
def clampSigned64 (value : Int) : Int := max (-2 ^ 63) (min value (2 ^ 63 - 1))

def saturatingAddSigned64 (first second : Int64) : Int64 := Int64.ofInt (clampSigned64 (first.toInt + second.toInt))

def saturatingSubSigned64 (first second : Int64) : Int64 := Int64.ofInt (clampSigned64 (first.toInt - second.toInt))

theorem toInt_ofInt_clampSigned64 (v : Int) : (Int64.ofInt (clampSigned64 v)).toInt = clampSigned64 v := by
  unfold clampSigned64
  exact Int64.toInt_ofInt_of_le (by omega) (by omega)

theorem saturatingAddSigned64_toInt (a b : Int64) :
    (saturatingAddSigned64 a b).toInt = clampSigned64 (a.toInt + b.toInt) :=
  toInt_ofInt_clampSigned64 _

theorem saturatingSubSigned64_toInt (a b : Int64) :
    (saturatingSubSigned64 a b).toInt = clampSigned64 (a.toInt - b.toInt) :=
  toInt_ofInt_clampSigned64 _

theorem toNat_toUInt64 (v : Int64) : (v.toUInt64.toNat : Int) = if v.toInt < 0 then v.toInt + 2 ^ 64 else v.toInt := by
  have bits := BitVec.toInt_eq_toNat_cond v.toBitVec
  have lt := v.toBitVec.isLt
  rw [Int64.toInt_toBitVec] at bits
  show (v.toBitVec.toNat : Int) = _
  omega

theorem toInt_toInt64 (v : UInt64) :
    v.toInt64.toInt = if v.toNat < 2 ^ 63 then (v.toNat : Int) else v.toNat - 2 ^ 64 := by
  have bits := BitVec.toInt_eq_toNat_cond v.toBitVec
  have lt := v.toBitVec.isLt
  rw [UInt64.toNat_toBitVec] at bits
  show v.toBitVec.toInt = _
  omega

end Wbfuwunel.Foundation
