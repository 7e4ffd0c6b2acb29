import Mathlib.Data.List.Basic

set_option autoImplicit false

/-! Check digits that are computed digit by digit over the table of an operation, and the slips of
a typist that they find. -/

namespace Taiyi.Library.CheckDigit

variable {α β : Type}

/-- One entry is another, or two neighbours that differ are swapped. -/
inductive Mistyped : List α → List α → Prop
  | change (l r : List α) {a b : α} : a ≠ b → Mistyped (l ++ a :: r) (l ++ b :: r)
  | swap (l r : List α) {a b : α} : a ≠ b → Mistyped (l ++ a :: b :: r) (l ++ b :: a :: r)

theorem Mistyped.length_eq {l m : List α} (h : Mistyped l m) : l.length = m.length := by
  cases h <;> simp

/-- A slip stays one under a map that tells the entries apart. -/
theorem Mistyped.map {l m : List α} {f : α → β} (h : Mistyped l m)
    (hf : ∀ a ∈ l, ∀ b ∈ m, f a = f b → a = b) : Mistyped (l.map f) (m.map f) := by
  cases h with
  | change l r hne =>
    rw [List.map_append, List.map_append]
    refine .change _ _ fun he ↦ hne (hf _ ?_ _ ?_ he)
    · exact List.mem_append_right _ List.mem_cons_self
    · exact List.mem_append_right _ List.mem_cons_self
  | swap l r hne =>
    rw [List.map_append, List.map_append]
    refine .swap _ _ fun he ↦ hne (hf _ ?_ _ ?_ he)
    · exact List.mem_append_right _ List.mem_cons_self
    · exact List.mem_append_right _ List.mem_cons_self

/-- The operation cancels on both sides and tells two entries from the same in the other order. -/
structure Detecting (op : α → α → α) : Prop where
  left : ∀ s a b, op s a = op s b → a = b
  right : ∀ s t a, op s a = op t a → s = t
  swap : ∀ s a b, op (op s a) b = op (op s b) a → a = b

section Detecting

variable {op : α → α → α} {s t : α} {l m : List α}

/-- A difference is carried through the entries that follow. -/
theorem Detecting.foldl_inj (h : Detecting op) (he : l.foldl op s = l.foldl op t) : s = t := by
  induction l generalizing s t with
  | nil => exact he
  | cons a l ih => exact h.right _ _ _ (ih he)

theorem Detecting.foldl_ne (h : Detecting op) (hm : Mistyped l m) :
    l.foldl op s ≠ m.foldl op s := by
  cases hm with
  | change l r hne =>
    intro he
    rw [List.foldl_append, List.foldl_append] at he
    exact hne (h.left _ _ _ (h.foldl_inj he))
  | swap l r hne =>
    intro he
    rw [List.foldl_append, List.foldl_append] at he
    exact hne (h.swap _ _ _ (h.foldl_inj he))

/-- With equal entries cancelling each other, the checksum is the check digit that brings the
fold to `z`. -/
theorem Detecting.foldl_concat (h : Detecting op) {z a : α} (hz : ∀ a, op a a = z) :
    (l ++ [a]).foldl op s = z ↔ l.foldl op s = a := by
  rw [List.foldl_append, List.foldl_cons, List.foldl_nil]
  constructor
  · intro he
    exact (h.left _ _ _ (he.trans (hz (l.foldl op s)).symm)).symm
  · rintro rfl
    exact hz _

end Detecting

end Taiyi.Library.CheckDigit
