import Mathlib.Data.List.Sort
import Mathlib.Data.Nat.Log
import Mathlib.Tactic.Common

set_option autoImplicit false

namespace Taiyi.Library.Halving

/-- The step from `n` that halves what is left up to `top`. -/
def next (top n : ℕ) : ℕ := n + (top - n + 2) / 2

/-- The steps from `n` on, the first one in any case and the others up to `high`. -/
def steps (top high : ℕ) : ℕ → ℕ → List ℕ
  | 0, _ => []
  | rounds + 1, n =>
    n :: if next top n ≤ high then steps top high rounds (next top n) else []

variable {top high n m rounds : ℕ}

theorem lt_next : n < next top n := by
  unfold next
  omega

theorem next_le (h : n < top) : next top n ≤ top := by
  unfold next
  omega

/-- Beyond the last step the end is reached. -/
theorem eq_of_lt_next (hn : n ≤ top) (h : top < next top n) : n = top := by
  unfold next at h
  omega

/-- What lies between two steps is nearer to the first of them than to the end. -/
theorem near (h : m < next top n) : m - n ≤ top - m := by
  unfold next at h
  omega

theorem steps_ne_nil : steps top high (rounds + 1) n ≠ [] := List.cons_ne_nil _ _

theorem head?_steps : (steps top high (rounds + 1) n).head? = some n := rfl

theorem le_of_mem (h : m ∈ steps top high rounds n) : n ≤ m := by
  induction rounds generalizing n with
  | zero => cases h
  | succ rounds ih =>
    rcases List.mem_cons.mp h with rfl | h
    · exact Nat.le_refl _
    · split at h
      · exact (Nat.le_of_lt lt_next).trans (ih h)
      · cases h

theorem le_high_of_mem (hn : n ≤ high) (h : m ∈ steps top high rounds n) : m ≤ high := by
  induction rounds generalizing n with
  | zero => cases h
  | succ rounds ih =>
    rcases List.mem_cons.mp h with rfl | h
    · exact hn
    · split at h
      · next hle => exact ih hle h
      · cases h

theorem sorted_steps : (steps top high rounds n).Pairwise (· < ·) := by
  induction rounds generalizing n with
  | zero => exact .nil
  | succ rounds ih =>
    refine .cons (fun m hm ↦ ?_) ?_
    · split at hm
      · exact lt_next.trans_le (le_of_mem hm)
      · cases hm
    · split
      · exact ih
      · exact .nil

/-- The steps up to the end, of which there are enough, come to it. -/
theorem getLast?_steps (hn : n ≤ top) (hr : top < n + rounds) :
    (steps top top rounds n).getLast? = some top := by
  induction rounds generalizing n with
  | zero => omega
  | succ rounds ih =>
    rw [steps]
    split
    · next hle =>
      have hlt : n < next top n := lt_next
      have htail := ih hle (by omega)
      rw [List.getLast?_cons, htail]
      rfl
    · next hlt =>
      obtain rfl := eq_of_lt_next hn (Nat.lt_of_not_le hlt)
      rfl

/-- Every number has a step not above it that is nearer to it than the end is. -/
theorem exists_near (hn : n ≤ m) (hm : m ≤ high) (hr : high < n + rounds) :
    ∃ k ∈ steps top high rounds n, k ≤ m ∧ m - k ≤ top - m := by
  induction rounds generalizing n with
  | zero => omega
  | succ rounds ih =>
    by_cases hlt : m < next top n
    · exact ⟨n, List.mem_cons_self, hn, near hlt⟩
    · have hle : next top n ≤ m := Nat.le_of_not_lt hlt
      have hstep : n < next top n := lt_next
      obtain ⟨k, hk, hkm, hnear⟩ := ih hle (by omega)
      refine ⟨k, ?_, hkm, hnear⟩
      rw [steps, if_pos (hle.trans hm)]
      exact List.mem_cons_of_mem _ hk

/-- There are no more steps than binary digits of the distance. -/
theorem length_steps (hn : n ≤ top) (hh : high ≤ top) :
    (steps top high rounds n).length ≤ Nat.log 2 (top - n + 1) + 1 := by
  induction rounds generalizing n with
  | zero => exact Nat.zero_le _
  | succ rounds ih =>
    rw [steps, List.length_cons]
    split
    · next hle =>
      have htail := ih (hle.trans hh)
      have hhalf : top - next top n + 1 = (top - n + 1) / 2 := by
        unfold next at hle ⊢
        omega
      have hpos : 1 < top - n + 1 := by
        have : n < next top n := lt_next
        omega
      have hlog : Nat.log 2 (top - n + 1) = Nat.log 2 ((top - n + 1) / 2) + 1 :=
        Nat.log_of_one_lt_of_le (by decide) hpos
      rw [hhalf] at htail
      omega
    · simp

/-- The steps up to a bound are those of all steps that do not pass it. -/
theorem steps_eq_filter (hn : n ≤ high) (hh : high ≤ top) (hr : top < n + rounds) :
    steps top high rounds n = (steps top top rounds n).filter (· ≤ high) := by
  induction rounds generalizing n with
  | zero => rfl
  | succ rounds ih =>
    have hstep : n < next top n := lt_next
    rw [steps, steps, List.filter_cons_of_pos (by simpa using hn)]
    congr 1
    by_cases hle : next top n ≤ high
    · rw [if_pos hle, if_pos (hle.trans hh), ih hle (by omega)]
    · rw [if_neg hle]
      symm
      rw [List.filter_eq_nil_iff]
      intro m hm
      split at hm
      · have := le_of_mem hm
        simp only [decide_eq_true_eq]
        omega
      · cases hm

/-- More rounds than there are numbers up to the bound add nothing. -/
theorem steps_rounds {rounds' : ℕ} (hr : high < n + rounds) (hr' : high < n + rounds') (hn : n ≤ high) :
    steps top high rounds n = steps top high rounds' n := by
  induction rounds generalizing n rounds' with
  | zero => omega
  | succ rounds ih =>
    obtain ⟨rounds', rfl⟩ := Nat.exists_eq_succ_of_ne_zero (show rounds' ≠ 0 by omega)
    have hstep : n < next top n := lt_next
    rw [steps, steps]
    split
    · next hle => exact congrArg (n :: ·) (ih (by omega) (by omega) hle)
    · rfl

/-- Two parts of an ascending list are the list. -/
theorem filter_append_filter {l : List ℕ} (h : l.Pairwise (· < ·)) (b : ℕ) :
    l.filter (· ≤ b) ++ l.filter (b < ·) = l := by
  induction l with
  | nil => rfl
  | cons n l ih =>
    obtain ⟨hn, hl⟩ := List.pairwise_cons.mp h
    by_cases hle : n ≤ b
    · rw [List.filter_cons_of_pos (by simpa using hle),
        List.filter_cons_of_neg (by simpa using hle), List.cons_append, ih hl]
    · have hnil : l.filter (· ≤ b) = [] := by
        rw [List.filter_eq_nil_iff]
        intro m hm
        have := hn m hm
        simp only [decide_eq_true_eq]
        omega
      have hall : l.filter (b < ·) = l := by
        rw [List.filter_eq_self]
        intro m hm
        have := hn m hm
        simp only [decide_eq_true_eq]
        omega
      rw [List.filter_cons_of_neg (by simpa using hle),
        List.filter_cons_of_pos (by simpa using Nat.lt_of_not_le hle), hnil, hall, List.nil_append]

end Taiyi.Library.Halving
