import Mathlib.Algebra.BigOperators.Group.List.Basic
import Mathlib.Data.List.TakeWhile
import Mathlib.Tactic.Abel

set_option autoImplicit false

namespace Taiyi.Library.RowList

variable {α M : Type} {a b : α} {l : List α}

section Insert

variable {key : α → ℕ}

/-- A new row of an index that orders by a key and then by age stands after the rows with the
same key. -/
def insertBy (key : α → ℕ) (a : α) : List α → List α
  | [] => [a]
  | b :: l => if key a < key b then a :: b :: l else b :: insertBy key a l

theorem insertBy_perm : (insertBy key a l).Perm (a :: l) := by
  induction l with
  | nil => exact .refl _
  | cons b l ih =>
    rw [insertBy]
    split
    · exact .refl _
    · exact (ih.cons b).trans (.swap a b l)

theorem mem_insertBy : b ∈ insertBy key a l ↔ b = a ∨ b ∈ l := by
  rw [insertBy_perm.mem_iff, List.mem_cons]

theorem mem_dropWhile {p : α → Bool} (h : a ∈ l) (hp : p a = false) : a ∈ l.dropWhile p := by
  rw [← List.takeWhile_append_dropWhile (p := p) (l := l), List.mem_append] at h
  refine h.resolve_left fun ht ↦ ?_
  rw [List.mem_takeWhile_imp ht] at hp
  cases hp

theorem insertBy_pairwise (h : l.Pairwise fun a b ↦ key a ≤ key b) :
    (insertBy key a l).Pairwise fun a b ↦ key a ≤ key b := by
  induction l with
  | nil => exact List.pairwise_singleton ..
  | cons b l ih =>
    obtain ⟨hb, hl⟩ := List.pairwise_cons.mp h
    rw [insertBy]
    split
    · next hlt =>
      refine List.pairwise_cons.mpr ⟨List.forall_mem_cons.mpr ⟨hlt.le, fun c hc ↦ ?_⟩, h⟩
      exact hlt.le.trans (hb c hc)
    · next hge =>
      refine List.pairwise_cons.mpr ⟨fun c hc ↦ ?_, ih hl⟩
      obtain rfl | hc := mem_insertBy.mp hc
      · exact Nat.le_of_not_lt hge
      · exact hb c hc

/-- Rows are dropped from the front of an index until one is not to be dropped, nor any after it. -/
theorem not_of_mem_dropWhile {r : α → α → Prop} {p : α → Bool} (hl : l.Pairwise r)
    (hp : ∀ a b, r a b → p b = true → p a = true) (h : a ∈ l.dropWhile p) : p a = false := by
  induction l with
  | nil => cases h
  | cons b l ih =>
    obtain ⟨hb, hl⟩ := List.pairwise_cons.mp hl
    rw [List.dropWhile_cons] at h
    split at h
    · exact ih hl h
    · next hpb =>
      obtain rfl | ha := List.mem_cons.mp h
      · exact Bool.eq_false_iff.mpr hpb
      · exact Bool.eq_false_iff.mpr fun hpa ↦ hpb (hp b a (hb a ha) hpa)

end Insert

section First

variable {p : α → Bool} {f : α → α}

/-- The rows with the first that a test accepts modified. -/
def modifyFirst (p : α → Bool) (f : α → α) : List α → List α
  | [] => []
  | a :: l => if p a then f a :: l else a :: modifyFirst p f l

/-- Looking up, modifying and erasing meet the same row. -/
theorem split_of_find (h : l.find? p = some a) : ∃ l₁ l₂, l = l₁ ++ a :: l₂ ∧
    modifyFirst p f l = l₁ ++ f a :: l₂ ∧ l.eraseP p = l₁ ++ l₂ := by
  induction l with
  | nil => cases h
  | cons b l ih =>
    cases hp : p b with
    | true =>
      rw [List.find?_cons_of_pos hp] at h
      cases h
      exact ⟨[], l, rfl, by simp [modifyFirst, hp], by simp [hp]⟩
    | false =>
      rw [List.find?_cons_of_neg (by simp [hp])] at h
      obtain ⟨l₁, l₂, rfl, hm, he⟩ := ih h
      exact ⟨b :: l₁, l₂, rfl, by simp [modifyFirst, hp, hm], by simp [hp, he]⟩

end First

section Total

variable [AddCommGroup M] {w : α → M}

/-- The sum of a quantity over the rows. -/
def total (w : α → M) (l : List α) : M := (l.map w).sum

theorem total_append {l' : List α} : total w (l ++ l') = total w l + total w l' := by
  rw [total, List.map_append, List.sum_append, total, total]

theorem total_cons : total w (a :: l) = w a + total w l := by
  rw [total, List.map_cons, List.sum_cons, total]

theorem total_insertBy {key : α → ℕ} : total w (insertBy key a l) = w a + total w l := by
  rw [← total_cons]
  exact (insertBy_perm.map w).sum_eq

theorem total_modifyFirst {p : α → Bool} {f : α → α} (h : l.find? p = some a) :
    total w (modifyFirst p f l) = total w l + (w (f a) - w a) := by
  obtain ⟨l₁, l₂, rfl, hm, -⟩ := split_of_find (f := f) h
  simp only [hm, total_append, total_cons]
  abel

theorem total_eraseP {p : α → Bool} (h : l.find? p = some a) :
    total w (l.eraseP p) = total w l - w a := by
  obtain ⟨l₁, l₂, rfl, -, he⟩ := split_of_find (f := id) h
  simp only [he, total_append, total_cons]
  abel

end Total

end Taiyi.Library.RowList
