import Mathlib.Algebra.Order.Ring.Int
import Mathlib.Logic.Function.Iterate
import Mathlib.Tactic.Linarith
import Mathlib.Tactic.Ring

set_option autoImplicit false

/-! Sums that are kept between zero and a top. -/

namespace Taiyi.Library.Clamp

variable {d top top' x : ℤ} {i k : ℕ}

def clampAdd (d top x : ℤ) : ℤ := min (max 0 (x + d)) top

theorem clampAdd_bounds (htop : 0 ≤ top) : 0 ≤ clampAdd d top x ∧ clampAdd d top x ≤ top := by
  unfold clampAdd
  omega

theorem iterate_pos (hd : 0 < d) (htop : 0 ≤ top) (hx : 0 ≤ x) (k : ℕ) :
    (clampAdd d top)^[k + 1] x = min (x + (k + 1) * d) top := by
  induction k with
  | zero =>
    simp only [zero_add, Function.iterate_one, clampAdd]
    push_cast
    omega
  | succ k ih =>
    have hprod : 0 ≤ (k : ℤ) * d := by positivity
    have hnext : ((k : ℤ) + 1 + 1) * d = (k + 1) * d + d := by ring
    have hthis : ((k : ℤ) + 1) * d = k * d + d := by ring
    rw [Function.iterate_succ_apply', ih, clampAdd]
    push_cast
    rw [hnext, hthis]
    generalize (k : ℤ) * d = p at *
    omega

theorem iterate_neg (hd : d < 0) (htop : 0 ≤ top) (k : ℕ) :
    (clampAdd d top)^[k + 1] x = max 0 (min (x + d) top + k * d) := by
  induction k with
  | zero =>
    simp only [zero_add, Function.iterate_one, clampAdd]
    push_cast
    omega
  | succ k ih =>
    have hprod : (k : ℤ) * d ≤ 0 := mul_nonpos_of_nonneg_of_nonpos (by positivity) hd.le
    have hnext : ((k : ℤ) + 1) * d = k * d + d := by ring
    rw [Function.iterate_succ_apply', ih, clampAdd]
    push_cast
    rw [hnext]
    generalize (k : ℤ) * d = p at *
    omega

/-- Steps that stay below the top from a value that does. -/
theorem iterate_pos_of_le (hd : 0 < d) (hx : 0 ≤ x) (hle : x ≤ top) (i : ℕ) :
    (clampAdd d top)^[i] x = min (x + i * d) top := by
  cases i with
  | zero => simpa using hle
  | succ i => simpa using iterate_pos hd (hx.trans hle) hx i

theorem iterate_neg_of_le (hd : d < 0) (hx : 0 ≤ x) (hle : x ≤ top) (i : ℕ) :
    (clampAdd d top)^[i] x = max 0 (x + i * d) := by
  cases i with
  | zero => simpa using hx
  | succ i =>
    rw [iterate_neg hd (hx.trans hle)]
    push_cast
    rw [add_mul, one_mul, min_eq_left (by omega)]
    congr 1
    ring

theorem natCast_mul_pos_cases (hd : 0 < d) (n : ℕ) : n = 0 ∧ (n : ℤ) * d = 0 ∨ 0 < n ∧ d ≤ n * d := by
  obtain rfl | hn := n.eq_zero_or_pos
  · simp
  · exact .inr ⟨hn, le_mul_of_one_le_left hd.le (by exact_mod_cast hn)⟩

theorem natCast_mul_neg_cases (hd : d < 0) (n : ℕ) : n = 0 ∧ (n : ℤ) * d = 0 ∨ 0 < n ∧ n * d ≤ d := by
  obtain rfl | hn := n.eq_zero_or_pos
  · simp
  · exact .inr ⟨hn, mul_le_of_one_le_left hd.le (by exact_mod_cast hn)⟩

/-- Increases under one top and then another come to a single one under the last. -/
theorem iterate_eq_once_iff_pos (hd : 0 < d) (hx : 0 ≤ x) (hle : x ≤ top) (htop' : 0 ≤ top') :
    (clampAdd d top')^[k + 1] ((clampAdd d top)^[i] x) = clampAdd d top' x ↔
      top' ≤ x + d ∨ k = 0 ∧ (i = 0 ∨ x = top) := by
  have hi := natCast_mul_pos_cases hd i
  have hk := natCast_mul_pos_cases hd k
  have hstart : 0 ≤ min (x + i * d) top := by
    generalize (i : ℤ) * d = p at *
    omega
  rw [iterate_pos_of_le hd hx hle, iterate_pos hd htop' hstart, clampAdd, add_mul, one_mul]
  generalize (i : ℤ) * d = p at *
  generalize (k : ℤ) * d = q at *
  omega

/-- Decreases under one top and then another come to a single one under the last. -/
theorem iterate_eq_once_iff_neg (hd : d < 0) (hx : 0 ≤ x) (hle : x ≤ top) (htop' : 0 ≤ top') :
    (clampAdd d top')^[k + 1] ((clampAdd d top)^[i] x) = clampAdd d top' x ↔
      x + d ≤ 0 ∨ top' = 0 ∨ k = 0 ∧ (i = 0 ∨ top' ≤ x + (i + 1) * d) := by
  have hi := natCast_mul_neg_cases hd i
  have hk := natCast_mul_neg_cases hd k
  rw [iterate_neg_of_le hd hx hle, iterate_neg hd htop', clampAdd, add_mul, one_mul]
  generalize (i : ℤ) * d = p at *
  generalize (k : ℤ) * d = q at *
  omega

end Taiyi.Library.Clamp
