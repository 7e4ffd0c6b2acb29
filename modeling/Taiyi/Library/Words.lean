import Mathlib.Algebra.BigOperators.Group.List.Basic
import Mathlib.Algebra.Order.BigOperators.Group.List
import Mathlib.Algebra.Order.Ring.Int
import Mathlib.Data.Int.Notation
import Mathlib.Tactic.Linarith
import Mathlib.Tactic.NormNum
import Mathlib.Tactic.Ring
import Taiyi.Library.Attempt

set_option autoImplicit false

namespace Taiyi.Library.Words

variable {n : ℕ} {x y : ℤ}

/-- The values of a signed integer with `n` bits beside the sign. -/
def IsSigned (n : ℕ) (x : ℤ) : Prop := -2 ^ n ≤ x ∧ x < 2 ^ n

instance : Decidable (IsSigned n x) := inferInstanceAs (Decidable (_ ∧ _))

/-- What is left of a number in a signed integer. -/
def toSigned (n : ℕ) (x : ℤ) : ℤ := Int.bmod x (2 ^ (n + 1))

/-- What is left of a number in an unsigned integer of `n` bits. -/
def toUnsigned (n : ℕ) (x : ℤ) : ℤ := x % 2 ^ n

theorem two_pow_succ (n : ℕ) : ((2 ^ (n + 1) : ℕ) : ℤ) = 2 * 2 ^ n := by
  push_cast
  ring

theorem isSigned_toSigned (n : ℕ) (x : ℤ) : IsSigned n (toSigned n x) := by
  have hle := Int.le_bmod (x := x) (m := 2 ^ (n + 1)) (by positivity)
  have hlt := Int.bmod_lt (x := x) (m := 2 ^ (n + 1)) (by positivity)
  rw [two_pow_succ] at hle hlt
  unfold IsSigned toSigned
  generalize (2 : ℤ) ^ n = m at *
  omega

theorem toSigned_of_isSigned (h : IsSigned n x) : toSigned n x = x := by
  obtain ⟨hle, hlt⟩ := h
  unfold toSigned
  refine Int.bmod_eq_of_le ?_ ?_ <;> rw [two_pow_succ]
  all_goals
    generalize (2 : ℤ) ^ n = m at *
    omega

/-- A number that is one period too large. -/
theorem toSigned_of_period (h : IsSigned n (x - 2 ^ (n + 1))) : toSigned n x = x - 2 ^ (n + 1) := by
  have hmod := Int.sub_bmod_right x (2 ^ (n + 1))
  rw [← toSigned_of_isSigned h, toSigned, toSigned, ← hmod]
  push_cast
  rfl

theorem toUnsigned_of_lt (h : 0 ≤ x) (hlt : x < 2 ^ n) : toUnsigned n x = x := Int.emod_eq_of_lt h hlt

theorem toUnsigned_of_neg (h : x < 0) (hle : -2 ^ n ≤ x) : toUnsigned n x = x + 2 ^ n := by
  rw [toUnsigned, ← Int.add_emod_right, Int.emod_eq_of_lt (by linarith) (by linarith)]

theorem toUnsigned_bounds (n : ℕ) (x : ℤ) : 0 ≤ toUnsigned n x ∧ toUnsigned n x < 2 ^ n :=
  ⟨Int.emod_nonneg _ (by positivity), Int.emod_lt_of_pos _ (by positivity)⟩

/-- A sum in an unsigned integer is what is left of the sum, also when each summand is cut before. -/
theorem foldl_toUnsigned {α : Type} {f g : α → ℤ} (h : ∀ a, toUnsigned n (g a) = toUnsigned n (f a))
    (l : List α) (x : ℤ) : l.foldl (fun sum a ↦ toUnsigned n (sum + g a)) (toUnsigned n x) =
      toUnsigned n (x + (l.map f).sum) := by
  induction l generalizing x with
  | nil => simp
  | cons a l ih =>
    have hstep : toUnsigned n (toUnsigned n x + g a) = toUnsigned n (x + f a) := by
      have ha : g a % 2 ^ n = f a % 2 ^ n := h a
      rw [toUnsigned, toUnsigned, toUnsigned, Int.emod_add_emod, ← Int.add_emod_emod, ha, Int.add_emod_emod]
    rw [List.foldl_cons, hstep, ih, List.map_cons, List.sum_cons, add_assoc]

end Taiyi.Library.Words

/-! Signed arithmetic of 64 bits, which has no result beyond them. -/

namespace Taiyi.Library.Signed

open Attempt Words

variable {a b r x : ℤ} {l : List ℤ} {ps : List (ℤ × ℤ)}

def fit (x : ℤ) : Except String ℤ := if IsSigned 63 x then .ok x else .error "signed overflow"

def add64 (a b : ℤ) : Except String ℤ := fit (a + b)

def sub64 (a b : ℤ) : Except String ℤ := fit (a - b)

def mul64 (a b : ℤ) : Except String ℤ := fit (a * b)

/-- A sum of products, added up from the left. -/
def dot64 (ps : List (ℤ × ℤ)) : Except String ℤ := ps.foldlM (fun sum p ↦ do add64 sum (← mul64 p.1 p.2)) 0

def sum64 (l : List ℤ) : Except String ℤ := l.foldlM add64 0

/-- The sum of products over the integers. -/
def dot (ps : List (ℤ × ℤ)) : ℤ := (ps.map fun p ↦ p.1 * p.2).sum

theorem fit_eq_ok : fit x = .ok r ↔ IsSigned 63 x ∧ r = x := by
  unfold fit
  split
  · next h => simp [h, eq_comm]
  · next h => simp [h]

theorem add64_eq_ok : add64 a b = .ok r ↔ IsSigned 63 (a + b) ∧ r = a + b := fit_eq_ok

theorem sub64_eq_ok : sub64 a b = .ok r ↔ IsSigned 63 (a - b) ∧ r = a - b := fit_eq_ok

theorem mul64_eq_ok : mul64 a b = .ok r ↔ IsSigned 63 (a * b) ∧ r = a * b := fit_eq_ok

theorem isSigned_of_nonneg (h : 0 ≤ x) : IsSigned 63 x ↔ x < 2 ^ 63 := by
  unfold IsSigned
  omega

theorem foldlM_add64_eq_ok (h : ∀ y ∈ l, 0 ≤ y) (hx : 0 ≤ x) (hlt : x < 2 ^ 63) :
    l.foldlM add64 x = .ok r ↔ x + l.sum < 2 ^ 63 ∧ r = x + l.sum := by
  induction l generalizing x with
  | nil =>
    rw [List.sum_nil, add_zero]
    exact ⟨fun h ↦ ⟨hlt, (Except.ok.inj h).symm⟩, fun h ↦ congrArg Except.ok h.2.symm⟩
  | cons y l ih =>
    have hy : 0 ≤ y := h y List.mem_cons_self
    have hl := fun z hz ↦ h z (List.mem_cons_of_mem y hz)
    have hsum : 0 ≤ l.sum := List.sum_nonneg hl
    rw [List.foldlM_cons, bind_eq_ok, List.sum_cons, ← add_assoc]
    constructor
    · rintro ⟨_, hadd, hrest⟩
      obtain ⟨hfits, rfl⟩ := add64_eq_ok.mp hadd
      exact (ih hl (by omega) hfits.2).mp hrest
    · rintro ⟨hle, rfl⟩
      have hfits : x + y < 2 ^ 63 := by omega
      exact ⟨x + y, add64_eq_ok.mpr ⟨(isSigned_of_nonneg (by omega)).mpr hfits, rfl⟩,
        (ih hl (by omega) hfits).mpr ⟨hle, rfl⟩⟩

/-- A sum of numbers that are not negative is computed if it fits as a whole. -/
theorem sum64_eq_ok (h : ∀ y ∈ l, 0 ≤ y) : sum64 l = .ok r ↔ l.sum < 2 ^ 63 ∧ r = l.sum := by
  have := foldlM_add64_eq_ok (r := r) h le_rfl (by decide)
  rwa [zero_add] at this

theorem foldlM_dot64_eq_ok (h : ∀ p ∈ ps, 0 ≤ p.1 * p.2) (hx : 0 ≤ x) (hlt : x < 2 ^ 63) :
    ps.foldlM (fun sum p ↦ do add64 sum (← mul64 p.1 p.2)) x = .ok r ↔ x + dot ps < 2 ^ 63 ∧ r = x + dot ps := by
  induction ps generalizing x with
  | nil =>
    rw [dot, List.map_nil, List.sum_nil, add_zero]
    exact ⟨fun h ↦ ⟨hlt, (Except.ok.inj h).symm⟩, fun h ↦ congrArg Except.ok h.2.symm⟩
  | cons p ps ih =>
    have hp : 0 ≤ p.1 * p.2 := h p List.mem_cons_self
    have hps := fun q hq ↦ h q (List.mem_cons_of_mem p hq)
    have hsum : 0 ≤ dot ps := List.sum_nonneg fun y hy ↦ by
      obtain ⟨q, hq, rfl⟩ := List.mem_map.mp hy
      exact hps q hq
    have hcons : x + dot (p :: ps) = x + p.1 * p.2 + dot ps := (add_assoc ..).symm
    rw [List.foldlM_cons, bind_eq_ok, hcons]
    constructor
    · rintro ⟨_, hstep, hrest⟩
      obtain ⟨_, hmul, hadd⟩ := bind_eq_ok.mp hstep
      obtain ⟨-, rfl⟩ := mul64_eq_ok.mp hmul
      obtain ⟨hfits, rfl⟩ := add64_eq_ok.mp hadd
      exact (ih hps (by omega) hfits.2).mp hrest
    · rintro ⟨hle, rfl⟩
      have hfits : x + p.1 * p.2 < 2 ^ 63 := by omega
      refine ⟨x + p.1 * p.2, bind_eq_ok.mpr ⟨p.1 * p.2, mul64_eq_ok.mpr ⟨(isSigned_of_nonneg hp).mpr ?_, rfl⟩,
        add64_eq_ok.mpr ⟨(isSigned_of_nonneg (by omega)).mpr hfits, rfl⟩⟩, (ih hps (by omega) hfits).mpr ⟨hle, rfl⟩⟩
      omega

/-- A sum of products that are not negative is computed if it fits as a whole. -/
theorem dot64_eq_ok (h : ∀ p ∈ ps, 0 ≤ p.1 * p.2) : dot64 ps = .ok r ↔ dot ps < 2 ^ 63 ∧ r = dot ps := by
  have := foldlM_dot64_eq_ok (r := r) h le_rfl (by decide)
  rwa [zero_add] at this

end Taiyi.Library.Signed
