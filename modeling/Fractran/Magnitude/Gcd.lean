/-
  The greatest common divisor of two magnitudes, by remainders.
-/
import Fractran.Magnitude.Quotient

namespace Fractran.Magnitude

theorem toNat_mod_lt (a : Magnitude) {n : Magnitude} (h : 0 < toNat n) :
    toNat (mod a n) < toNat n := by
  rw [toNat_mod]
  exact Nat.mod_lt _ h

/-- The greatest common divisor of two magnitudes. -/
def gcd (a b : Magnitude) : Magnitude :=
  if isZero b then a else gcd b (mod a b)
termination_by toNat b
decreasing_by
  rename_i h
  exact toNat_mod_lt a ((isZero_eq_false_iff b).1 (Bool.not_eq_true _ ▸ h))

theorem toNat_gcd (a b : Magnitude) : toNat (gcd a b) = Nat.gcd (toNat a) (toNat b) := by
  fun_induction gcd a b with
  | case1 a b h => rw [(isZero_iff b).1 h, Nat.gcd_zero_right]
  | case2 a b h ih => rw [ih, toNat_mod, Nat.gcd_comm, ← Nat.gcd_rec, Nat.gcd_comm]

end Fractran.Magnitude
