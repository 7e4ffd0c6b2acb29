import Mathlib.Data.List.Basic
import Mathlib.Data.Nat.ModEq
import Mathlib.Logic.Function.Basic
import Mathlib.Tactic.Common

set_option autoImplicit false

namespace Taiyi.Library.Ring

variable {α β : Type} {size : ℕ} {blank x : α} {xs : List α} {cells : ℕ → α}

/-- A buffer of `size` cells. The entries are numbered from one, and the entry `k` goes into
the cell `k % size`. -/
def write (size k : ℕ) (x : α) (cells : ℕ → α) : ℕ → α := Function.update cells (k % size) x

/-- The cells after the entries `xs`: the last `size` of them stand in their cells, and a cell
that no entry went into is blank. -/
structure Holds (size : ℕ) (blank : α) (xs : List α) (cells : ℕ → α) : Prop where
  recent : ∀ k x, xs[k]? = some x → xs.length ≤ k + size → cells ((k + 1) % size) = x
  unwritten : ∀ i, (∀ k < xs.length, (k + 1) % size ≠ i) → cells i = blank

/-- Some entry went into the cell. -/
def Written (size last i : ℕ) : Prop := last < size → 0 < i ∧ i ≤ last

instance (size last i : ℕ) : Decidable (Written size last i) :=
  inferInstanceAs (Decidable (_ → _))

theorem holds_nil : Holds size blank [] fun _ ↦ blank where
  recent k x h := by simp at h
  unwritten _ _ := rfl

/-- Two entries less than a round apart have different cells. -/
theorem cell_ne {j k : ℕ} (hj : j < k) (hk : k < j + size) : j % size ≠ k % size := by
  intro h
  have hdvd : size ∣ k - j := (Nat.modEq_iff_dvd' hj.le).mp h
  exact absurd (Nat.le_of_dvd (Nat.sub_pos_of_lt hj) hdvd) (by omega)

theorem Holds.concat (h : Holds size blank xs cells) (x : α) :
    Holds size blank (xs ++ [x]) (write size (xs.length + 1) x cells) where
  recent k y hk hle := by
    rw [List.length_append, List.length_singleton] at hle
    rcases Nat.lt_or_ge k xs.length with hlt | hge
    · rw [List.getElem?_append_left hlt] at hk
      rw [write, Function.update_of_ne (cell_ne (by omega) (by omega))]
      exact h.recent k y hk (by omega)
    · obtain ⟨hlt, rfl⟩ := List.getElem?_eq_some_iff.mp hk
      rw [List.length_append, List.length_singleton] at hlt
      obtain rfl : k = xs.length := by omega
      simp [write]
  unwritten i hi := by
    have hlast : (xs.length + 1) % size ≠ i := hi xs.length (by simp)
    rw [write, Function.update_of_ne hlast.symm]
    exact h.unwritten i fun k hk ↦ hi k (by rw [List.length_append]; omega)

/-- What a written cell holds, and what an unwritten one does. -/
theorem Holds.cell (h : Holds size blank xs cells) {i : ℕ} (hi : i < size) :
    (Written size xs.length i ∧ ∃ k, xs[k]? = some (cells i) ∧ xs.length ≤ k + size ∧
      (k + 1) % size = i) ∨
    ¬ Written size xs.length i ∧ cells i = blank ∧ ∀ k < xs.length, (k + 1) % size ≠ i := by
  by_cases hw : Written size xs.length i
  · refine .inl ⟨hw, ?_⟩
    -- the greatest number up to the last one that falls into the cell
    obtain ⟨n, hn, hpos, hle⟩ : ∃ n, n % size = i ∧ 0 < n ∧ n ≤ xs.length ∧
        xs.length < n + size := by
      by_cases hlt : xs.length < size
      · obtain ⟨hpos, hle⟩ := hw hlt
        exact ⟨i, Nat.mod_eq_of_lt hi, hpos, hle, by omega⟩
      · have hdiv := Nat.div_add_mod (xs.length - i) size
        have hmod := Nat.mod_lt (xs.length - i) (Nat.zero_lt_of_lt hi)
        refine ⟨size * ((xs.length - i) / size) + i, ?_, ?_, by omega, by omega⟩
        · rw [Nat.mul_add_mod, Nat.mod_eq_of_lt hi]
        · omega
    have hlt : n - 1 < xs.length := by omega
    refine ⟨n - 1, ?_, by omega, by rw [Nat.sub_add_cancel hpos, hn]⟩
    have := h.recent (n - 1) _ (List.getElem?_eq_getElem hlt) (by omega)
    rw [Nat.sub_add_cancel hpos, hn] at this
    rw [List.getElem?_eq_getElem hlt, this]
  · have hnone : ∀ k < xs.length, (k + 1) % size ≠ i := by
      intro k hk he
      refine hw fun hlt ↦ ?_
      rw [Nat.mod_eq_of_lt (by omega)] at he
      omega
    exact .inr ⟨hw, h.unwritten i hnone, hnone⟩

theorem Holds.map (f : α → β) (h : Holds size blank xs cells) :
    Holds size (f blank) (xs.map f) fun i ↦ f (cells i) where
  recent k y hk hle := by
    rw [List.getElem?_map] at hk
    obtain ⟨x, hx, rfl⟩ := Option.map_eq_some_iff.mp hk
    rw [h.recent k x hx (by rwa [List.length_map] at hle)]
  unwritten i hi := by
    rw [h.unwritten i fun k hk ↦ hi k (by rwa [List.length_map])]

end Taiyi.Library.Ring
