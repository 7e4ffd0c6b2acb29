import Mathlib.Algebra.Order.BigOperators.Group.List
import Mathlib.Order.Interval.Finset.Nat
import Mathlib.Order.Interval.Finset.Basic
import Mathlib.Tactic.Linarith

set_option autoImplicit false

namespace Taiyi.Library.WeightedScan

variable {α : Type}

/-- The sum of the weights. -/
def total (l : List (α × ℤ)) : ℤ := (l.map Prod.snd).sum

/-- The first entry at which the running sum, which starts from `c`, has reached `r`. -/
def scan (r : ℤ) : ℤ → List (α × ℤ) → Option α
  | _, [] => none
  | c, (a, w) :: l => if r ≤ c + w then some a else scan r (c + w) l

section Scan

variable {a : α} {r c w : ℤ} {l pre post : List (α × ℤ)}

theorem total_cons (x : α × ℤ) : total (x :: l) = x.2 + total l := List.sum_cons

theorem total_append : total (pre ++ post) = total pre + total post := by
  rw [total, List.map_append, List.sum_append, total, total]

theorem length_le_total (h : ∀ x ∈ l, 0 < x.2) : (l.length : ℤ) ≤ total l := by
  induction l with
  | nil => exact le_refl _
  | cons x l ih =>
    obtain ⟨hx, hl⟩ := List.forall_mem_cons.mp h
    have := ih hl
    rw [total_cons, List.length_cons]
    push_cast
    omega

theorem total_nonneg (h : ∀ x ∈ l, 0 < x.2) : 0 ≤ total l :=
  (Int.natCast_nonneg _).trans (length_le_total h)

/-- A number that the weights reach is scanned to an entry. -/
theorem scan_isSome (h : r ≤ c + total l) (hl : l ≠ []) : (scan r c l).isSome := by
  induction l generalizing c with
  | nil => exact absurd rfl hl
  | cons x l ih =>
    obtain ⟨a, w⟩ := x
    rw [scan]
    split
    · rfl
    · next hgt =>
      rw [total_cons] at h
      refine ih (by linarith) ?_
      rintro rfl
      rw [total, List.map_nil, List.sum_nil] at h
      linarith

theorem mem_of_scan (h : scan r c l = some a) : a ∈ l.map Prod.fst := by
  induction l generalizing c with
  | nil => cases h
  | cons x l ih =>
    rw [scan] at h
    split at h
    · cases h
      exact List.mem_cons_self
    · exact List.mem_cons_of_mem _ (ih h)

/-- The numbers that are scanned to an entry: above the weights before it, unless it is the
first, up to the ones with its own. -/
theorem scan_eq_some_iff (hpos : ∀ x ∈ pre, 0 < x.2)
    (hnodup : ((pre ++ (a, w) :: post).map Prod.fst).Nodup) :
    scan r c (pre ++ (a, w) :: post) = some a ↔
      (pre = [] ∨ c + total pre < r) ∧ r ≤ c + total pre + w := by
  induction pre generalizing c with
  | nil =>
    rw [List.nil_append, List.map_cons, List.nodup_cons] at hnodup
    have hrest : scan r (c + w) post ≠ some a := fun h ↦ hnodup.1 (mem_of_scan h)
    rw [List.nil_append, scan, total, List.map_nil, List.sum_nil, add_zero]
    split
    · next hle => exact iff_of_true rfl ⟨.inl rfl, hle⟩
    · next hgt => exact iff_of_false hrest fun h ↦ hgt h.2
  | cons x pre ih =>
    obtain ⟨b, v⟩ := x
    obtain ⟨hv, hpre⟩ := List.forall_mem_cons.mp hpos
    rw [List.cons_append, List.map_cons, List.nodup_cons] at hnodup
    have hb : b ≠ a := by
      rintro rfl
      exact hnodup.1 (by simp)
    have hsum := total_nonneg hpre
    rw [List.cons_append, scan, total_cons]
    split
    · next hle => exact iff_of_false (fun h ↦ hb (Option.some.inj h)) (by rintro ⟨h | h, -⟩ <;> simp_all; linarith)
    · next hgt =>
      rw [ih hpre hnodup.2]
      simp only [reduceCtorEq, false_or]
      constructor
      · rintro ⟨h | h, hle⟩
        · subst h
          rw [total, List.map_nil, List.sum_nil] at hle ⊢
          exact ⟨by linarith, by linarith⟩
        · exact ⟨by linarith, by linarith⟩
      · rintro ⟨h, hle⟩
        exact ⟨.inr (by linarith), by linarith⟩

/-- The first and the last of the numbers that lead to an entry. -/
def lower (pre : List (α × ℤ)) : ℤ := if pre.isEmpty then 0 else total pre + 1

def upper (sum : ℤ) (post : List (α × ℤ)) : ℤ := if post.isEmpty then sum - 1 else sum

theorem lower_le_iff (hpos : ∀ x ∈ pre, 0 < x.2) (hr : 0 ≤ r) :
    (pre = [] ∨ 0 + total pre < r) ↔ lower pre ≤ r := by
  cases pre with
  | nil => exact iff_of_true (.inl rfl) hr
  | cons x pre =>
    have hne : x :: pre ≠ [] := List.cons_ne_nil _ _
    rw [or_iff_right hne, zero_add]
    exact Int.lt_iff_add_one_le

theorem lower_nonneg (hpos : ∀ x ∈ pre, 0 < x.2) : 0 ≤ lower pre := by
  have := total_nonneg hpos
  unfold lower
  split <;> omega

theorem le_upper_iff (hpos : ∀ x ∈ post, 0 < x.2) {sum : ℤ} :
    r < sum + total post ∧ r ≤ sum ↔ r ≤ upper sum post := by
  cases post with
  | nil =>
    change r < sum + 0 ∧ r ≤ sum ↔ r ≤ sum - 1
    omega
  | cons x post =>
    have hlen := length_le_total hpos
    rw [List.length_cons] at hlen
    push_cast at hlen
    change _ ↔ r ≤ sum
    omega

/-- Of the numbers below the sum of positive weights, as many as its weight lead to an entry,
one more to the first and one less to the last. -/
theorem card_scan [DecidableEq α] (hpos : ∀ x ∈ pre ++ (a, w) :: post, 0 < x.2)
    (hnodup : ((pre ++ (a, w) :: post).map Prod.fst).Nodup) :
    (((Finset.range (total (pre ++ (a, w) :: post)).toNat).filter
      fun r : ℕ ↦ scan (r : ℤ) 0 (pre ++ (a, w) :: post) = some a).card : ℤ) =
      w + (if pre.isEmpty then 1 else 0) - (if post.isEmpty then 1 else 0) := by
  have hpre : ∀ x ∈ pre, 0 < x.2 := fun x hx ↦ hpos x (List.mem_append_left _ hx)
  have hw : 0 < w := hpos (a, w) (List.mem_append_right _ List.mem_cons_self)
  have hpost : ∀ x ∈ post, 0 < x.2 := fun x hx ↦
    hpos x (List.mem_append_right _ (List.mem_cons_of_mem _ hx))
  have hsum := total_nonneg hpre
  have hlow := lower_nonneg hpre
  have hhigh : 0 ≤ upper (total pre + w) post := by
    unfold upper
    split <;> omega
  have hset : ((Finset.range (total (pre ++ (a, w) :: post)).toNat).filter
      fun r : ℕ ↦ scan (r : ℤ) 0 (pre ++ (a, w) :: post) = some a) =
      Finset.Icc (lower pre).toNat (upper (total pre + w) post).toNat := by
    ext r
    have hr : (0 : ℤ) ≤ r := Int.natCast_nonneg r
    rw [Finset.mem_filter, Finset.mem_range, Finset.mem_Icc, Int.lt_toNat, Int.toNat_le,
      Int.le_toNat hhigh, scan_eq_some_iff hpre hnodup, total_append, total_cons, ← le_upper_iff hpost,
      ← add_assoc, ← lower_le_iff hpre hr, zero_add]
    exact and_left_comm
  have hempty : pre.isEmpty → total pre = 0 := fun h ↦ by
    rw [List.isEmpty_iff.mp h]
    rfl
  rw [hset, Nat.card_Icc]
  unfold lower upper at *
  by_cases hp : pre.isEmpty
  · have h0 := hempty hp
    simp only [if_pos hp] at *
    split <;> omega
  · simp only [if_neg hp] at *
    split <;> omega

end Scan

end Taiyi.Library.WeightedScan
