import Mathlib.Data.List.Basic

set_option autoImplicit false

/-! Binary trees over a list that are built level by level, where an element that is left over
without a neighbour goes up as it is. -/

namespace Taiyi.Library.PairTree

variable {α : Type} (f : α → α → α)

/-- The next level. -/
def pairUp : List α → List α
  | [] => []
  | [a] => [a]
  | a :: b :: l => f a b :: pairUp l

section Pairs

variable {f} {l m : List α}

theorem length_pairUp (l : List α) : (pairUp f l).length = (l.length + 1) / 2 := by
  induction l using pairUp.induct with
  | case1 => simp [pairUp]
  | case2 a => simp [pairUp]
  | case3 a b l ih =>
    rw [pairUp, List.length_cons, ih, List.length_cons, List.length_cons]
    omega

/-- A part of even length is paired on its own. -/
theorem pairUp_append (h : l.length % 2 = 0) : pairUp f (l ++ m) = pairUp f l ++ pairUp f m := by
  induction l using pairUp.induct with
  | case1 => rfl
  | case2 a => cases h
  | case3 a b l ih =>
    have hl : l.length % 2 = 0 := by
      rw [List.length_cons, List.length_cons] at h
      omega
    rw [List.cons_append, List.cons_append, pairUp, ih hl, pairUp, List.cons_append]

/-- Lists of one length have their pairs at the same places. -/
theorem pairUp_inj (hf : ∀ a b c d, f a b = f c d → a = c ∧ b = d) (hlen : l.length = m.length)
    (h : pairUp f l = pairUp f m) : l = m := by
  induction l using pairUp.induct generalizing m with
  | case1 => exact (List.length_eq_zero_iff.mp hlen.symm).symm
  | case2 a =>
    obtain ⟨c, rfl⟩ := List.length_eq_one_iff.mp hlen.symm
    exact h
  | case3 a b l ih =>
    match m, hlen with
    | c :: d :: m, hlen =>
      obtain ⟨hhead, htail⟩ := List.cons_eq_cons.mp h
      obtain ⟨rfl, rfl⟩ := hf a b c d hhead
      rw [ih (by simpa using hlen) htail]

end Pairs

/-- The only element of the last level. -/
def top (l : List α) : Option α :=
  if 1 < l.length then top (pairUp f l) else l.head?
termination_by l.length
decreasing_by
  rw [length_pairUp]
  omega

section Top

variable {f} {l m : List α} {a : α}

theorem top_step (h : 1 < l.length) : top f l = top f (pairUp f l) := by
  rw [top, if_pos h]

theorem top_of_length_le (h : l.length ≤ 1) : top f l = l.head? := by
  rw [top, if_neg (Nat.not_lt_of_le h)]

theorem top_isSome (h : l ≠ []) : ∃ a, top f l = some a := by
  induction l using top.induct f with
  | case1 l hlt ih =>
    rw [top_step hlt]
    refine ih fun hnil ↦ ?_
    have hlen := length_pairUp (f := f) l
    rw [hnil, List.length_nil] at hlen
    omega
  | case2 l hle =>
    rw [top_of_length_le (Nat.le_of_not_lt hle)]
    exact ⟨_, List.head?_eq_some_head h⟩

/-- The top binds the list that it is built from, among the lists of one length. -/
theorem top_inj (hf : ∀ a b c d, f a b = f c d → a = c ∧ b = d) (hlen : l.length = m.length)
    (h : top f l = top f m) : l = m := by
  induction l using top.induct f generalizing m with
  | case1 l hlt ih =>
    have hpairs : (pairUp f l).length = (pairUp f m).length := by
      rw [length_pairUp, length_pairUp, hlen]
    have hlt' : 1 < m.length := hlen ▸ hlt
    rw [top_step hlt, top_step hlt'] at h
    exact pairUp_inj hf hlen (ih hpairs h)
  | case2 l hle =>
    have hle := Nat.le_of_not_lt hle
    rw [top_of_length_le hle, top_of_length_le (hlen ▸ hle)] at h
    match l, m, hlen with
    | [], [], _ => rfl
    | [a], [b], _ => rw [Option.some.inj h]

end Top

end Taiyi.Library.PairTree
