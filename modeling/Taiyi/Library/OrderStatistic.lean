import Mathlib.Data.List.Perm.Basic
import Mathlib.Data.List.Sort
import Mathlib.Order.Bounds.Basic
import Mathlib.Tactic.Common

set_option autoImplicit false

namespace Taiyi.Library.OrderStatistic

variable {α : Type} [LinearOrder α] {l : List α} {k : ℕ} {x : α}

/-- The element at place `k` of the list in order. -/
def nthElement (l : List α) (k : ℕ) : Option α := (l.insertionSort (· ≤ ·))[k]?

theorem nthElement_isSome (h : k < l.length) : (nthElement l k).isSome := by
  simp [nthElement, h]

theorem mem_of_nthElement (h : nthElement l k = some x) : x ∈ l := by
  have hm := List.mem_of_getElem? h
  rwa [List.mem_insertionSort] at hm

/-- The list in order has the element between those before its place and those after it. -/
theorem split_of_nthElement (h : nthElement l k = some x) :
    ∃ low high, l.Perm (low ++ x :: high) ∧ low.length = k ∧ (∀ y ∈ low, y ≤ x) ∧
      ∀ y ∈ high, x ≤ y := by
  obtain ⟨hk, hx⟩ := List.getElem?_eq_some_iff.mp h
  have hs : (l.insertionSort (· ≤ ·)).Pairwise (· ≤ ·) := List.pairwise_insertionSort _ l
  have hsplit : l.insertionSort (· ≤ ·) = (l.insertionSort (· ≤ ·)).take k ++
      x :: (l.insertionSort (· ≤ ·)).drop (k + 1) := by
    rw [← hx, List.getElem_cons_drop, List.take_append_drop]
  rw [hsplit, List.pairwise_append, List.pairwise_cons] at hs
  obtain ⟨-, ⟨hhigh, -⟩, hlow⟩ := hs
  refine ⟨_, _, ?_, ?_, fun y hy ↦ hlow y hy x List.mem_cons_self, hhigh⟩
  · rw [← hsplit]
    exact (List.perm_insertionSort _ l).symm
  · rw [List.length_take]
    omega

/-- A value is at most the element at place `k` exactly when all but `k` elements reach it. -/
theorem le_nthElement_iff (h : nthElement l k = some x) (y : α) :
    y ≤ x ↔ l.length - k ≤ l.countP (y ≤ ·) := by
  obtain ⟨low, high, hp, hlen, hlow, hhigh⟩ := split_of_nthElement h
  rw [hp.length_eq, hp.countP_eq, List.length_append, List.countP_append, List.length_cons, hlen]
  constructor
  · intro hy
    have hc : (x :: high).countP (y ≤ ·) = high.length + 1 := by
      rw [← List.length_cons (a := x), List.countP_eq_length]
      intro z hz
      rcases List.mem_cons.mp hz with rfl | hz
      · exact decide_eq_true hy
      · exact decide_eq_true (hy.trans (hhigh z hz))
    omega
  · intro hc
    by_contra hy
    have hz : low.countP (y ≤ ·) = 0 := by
      rw [List.countP_eq_zero]
      intro z hz
      simpa using lt_of_le_of_lt (hlow z hz) (not_le.mp hy)
    have hle : high.countP (y ≤ ·) ≤ high.length := List.countP_le_length
    have hx : (x :: high).countP (y ≤ ·) = high.countP (y ≤ ·) :=
      List.countP_cons_of_neg (by simpa using hy)
    omega

/-- The element at place `k` is the greatest value that all but `k` elements reach. -/
theorem isGreatest_nthElement (h : nthElement l k = some x) :
    IsGreatest {y | l.length - k ≤ l.countP (y ≤ ·)} x :=
  ⟨(le_nthElement_iff h x).mp le_rfl, fun y hy ↦ (le_nthElement_iff h y).mpr hy⟩

end Taiyi.Library.OrderStatistic

namespace Taiyi.Library.Shuffle

variable {α : Type} {m n i j : ℕ} {v w : Vector α m}

/-- Each of the first `n` places in turn is swapped with the place that `jump` gives for it. -/
def shuffle (jump : ℕ → ℕ) (n : ℕ) (v : Vector α m) : Vector α m :=
  (List.range n).foldl (fun v i ↦ v.swapIfInBounds i (jump i)) v

/-- The same elements in the first `n` places, and the same rest. -/
structure Reorders (n : ℕ) (v w : Vector α m) : Prop where
  first : (w.toList.take n).Perm (v.toList.take n)
  rest : w.toList.drop n = v.toList.drop n

theorem Reorders.refl : Reorders n v v := ⟨.refl _, rfl⟩

theorem Reorders.trans {u : Vector α m} (h : Reorders n v w) (h' : Reorders n w u) :
    Reorders n v u := ⟨h'.first.trans h.first, h'.rest.trans h.rest⟩

/-- A reordering of the whole that keeps the rest reorders the first places. -/
theorem reorders_of_perm (hp : w.toList.Perm v.toList)
    (hr : w.toList.drop n = v.toList.drop n) : Reorders n v w where
  first := by
    rw [← List.take_append_drop n w.toList, ← List.take_append_drop n v.toList, hr] at hp
    exact (List.perm_append_right_iff _).mp hp
  rest := hr

theorem swap_perm : (v.swapIfInBounds i j).toList.Perm v.toList := by
  change (v.toArray.swapIfInBounds i j).toList.Perm v.toArray.toList
  rw [Array.swapIfInBounds_def]
  split
  · split
    · exact (Array.swap_perm _ _).toList
    · exact .refl _
  · exact .refl _

theorem drop_swap (hi : i < n) (hj : j < n) :
    (v.swapIfInBounds i j).toList.drop n = v.toList.drop n := by
  change (v.toArray.swapIfInBounds i j).toList.drop n = v.toArray.toList.drop n
  refine List.ext_getElem (by simp) fun k h₁ h₂ ↦ ?_
  simp only [List.getElem_drop, Array.getElem_toList]
  have hk : n ≤ n + k := Nat.le_add_right n k
  exact Array.getElem_swapIfInBounds_of_ne_of_ne (by omega : n + k ≠ i) (by omega : n + k ≠ j) _

theorem reorders_swap (hi : i < n) (hj : j < n) : Reorders n v (v.swapIfInBounds i j) :=
  reorders_of_perm swap_perm (drop_swap hi hj)

/-- A shuffle within the first places is a permutation of them. -/
theorem reorders_shuffle {jump : ℕ → ℕ} (h : ∀ i < n, jump i < n) :
    Reorders n v (shuffle jump n v) := by
  have hfold : ∀ l : List ℕ, (∀ i ∈ l, i < n) → ∀ v : Vector α m,
      Reorders n v (l.foldl (fun v i ↦ v.swapIfInBounds i (jump i)) v) := by
    intro l
    induction l with
    | nil => exact fun _ _ ↦ .refl
    | cons i l ih =>
      intro hl v
      have hi := hl i List.mem_cons_self
      exact (reorders_swap hi (h i hi)).trans (ih (fun k hk ↦ hl k (List.mem_cons_of_mem _ hk)) _)
  exact hfold _ (fun i hi ↦ List.mem_range.mp hi) v

end Taiyi.Library.Shuffle
