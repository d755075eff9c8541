import Mathlib.Algebra.Order.Ring.Int

/-!
# Support — Ints

A signed variable of `w` bits holds an integer from `-2 ^ (w - 1)` to `2 ^ (w - 1) - 1`.  A result
that does not fit is reduced modulo `2 ^ w` (`wrap`); one that is not negative and fits is kept
(`wrap_of_lt`).
-/

namespace Support

/-- What `w` bits keep of `z`. -/
def wrap (w : ℕ) (z : ℤ) : ℤ := z.bmod (2 ^ w)

theorem wrap_of_lt {w : ℕ} {z : ℤ} (hz : 0 ≤ z) (hlt : z < 2 ^ w) : wrap (w + 1) z = z := by
  have hpow : ((2 ^ (w + 1) : ℕ) : ℤ) = 2 ^ w * 2 := by
    rw [Nat.cast_pow, pow_succ]
    rfl
  refine Int.bmod_eq_of_le_mul_two ?_ ?_
  · rw [hpow]
    omega
  · rw [hpow]
    omega

end Support
