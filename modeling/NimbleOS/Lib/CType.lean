import Mathlib.Algebra.Group.Int.Defs
import Mathlib.Algebra.Group.Nat.Defs
import Mathlib.Tactic.Common

/-!
# CType

The integer types of C and their arithmetic.  An operation is carried out on integers, and
its result has to be of the type; otherwise there is no result.  So a computation that
returns is one in which nothing overflowed and nothing wrapped around.
-/

/-- A type with the values `lo`, …, `hi - 1`. -/
structure CType where
  lo : Int
  hi : Int

namespace CType

/-- `int`, and `long` on a 32-bit machine. -/
def int : CType := { lo := -2 ^ 31, hi := 2 ^ 31 }

def unsignedInt : CType := { lo := 0, hi := 2 ^ 32 }

def longLong : CType := { lo := -2 ^ 63, hi := 2 ^ 63 }

/-- The values of the type. -/
def Has (t : CType) (x : Int) : Prop := t.lo ≤ x ∧ x < t.hi

instance (t : CType) (x : Int) : Decidable (t.Has x) := inferInstanceAs (Decidable (_ ∧ _))

/-- The result `x` of an operation, if the type has it. -/
def fit (t : CType) (x : Int) : Option Int := if t.Has x then some x else none

theorem fit_of_has {t : CType} (h : t.Has x) : t.fit x = some x := if_pos h

theorem fit_eq_some_iff {t : CType} : t.fit x = some y ↔ t.Has x ∧ y = x := by
  rw [fit]
  split
  · next h => simp [h, eq_comm]
  · next h => simp [h]

/-- Only values between zero and a value of the type: what division leaves of it. -/
theorem Has.of_natAbs_le {t : CType} (h : t.Has x) (h0 : t.Has 0) (hle : y.natAbs ≤ x.natAbs)
    (hsign : 0 ≤ x ∧ 0 ≤ y ∨ x ≤ 0 ∧ y ≤ 0) : t.Has y := by
  unfold Has at *
  omega

theorem has_int (v : BitVec 32) : int.Has v.toInt := by
  have hlo := v.le_toInt
  have hhi := v.toInt_lt
  simp only [Has, int]
  omega

theorem has_unsignedInt (v : BitVec 32) : unsignedInt.Has (v.toNat : Int) := by
  have hlt := v.isLt
  simp only [Has, unsignedInt]
  omega

theorem has_longLong (v : BitVec 64) : longLong.Has v.toInt := by
  have hlo := v.le_toInt
  have hhi := v.toInt_lt
  simp only [Has, longLong]
  omega

end CType
