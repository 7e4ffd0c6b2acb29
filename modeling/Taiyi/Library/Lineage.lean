import Mathlib.Logic.Relation
import Mathlib.Data.Nat.Notation
import Mathlib.Tactic.Common

set_option autoImplicit false

/-! Nodes that build on one another, each on at most one and at one less depth: the ancestors of a
node, and the nearest one that two nodes have in common. -/

namespace Taiyi.Library.Lineage

variable {α : Type} {parent : α → α → Prop}

/-- `b` is `a` or one of the nodes below it. -/
def Ancestor (parent : α → α → Prop) (a b : α) : Prop := Relation.ReflTransGen parent a b

/-- A common ancestor that all common ancestors are ancestors of. -/
structure NearestCommon (parent : α → α → Prop) (a b c : α) : Prop where
  left : Ancestor parent a c
  right : Ancestor parent b c
  nearest : ∀ d, Ancestor parent a d → Ancestor parent b d → Ancestor parent c d

/-- A node has at most one parent, at one less depth. -/
structure Graded (parent : α → α → Prop) (depth : α → ℕ) : Prop where
  unique : Relator.RightUnique parent
  deeper : ∀ {a b}, parent a b → depth a = depth b + 1

namespace Ancestor

variable {a b c : α}

theorem refl : Ancestor parent a a := Relation.ReflTransGen.refl

theorem trans (h : Ancestor parent a b) (h' : Ancestor parent b c) : Ancestor parent a c :=
  Relation.ReflTransGen.trans h h'

theorem of_parent (h : parent a b) : Ancestor parent a b := Relation.ReflTransGen.single h

end Ancestor

namespace Graded

variable {depth : α → ℕ} {a b c x y : α} (hp : Graded parent depth)

include hp

theorem depth_le (h : Ancestor parent a b) : depth b ≤ depth a := by
  induction h with
  | refl => exact Nat.le_refl _
  | tail _ hstep ih =>
    have := hp.deeper hstep
    omega

theorem eq_of_depth_le (h : Ancestor parent a b) (hle : depth a ≤ depth b) : a = b := by
  rcases Relation.ReflTransGen.cases_head h with rfl | ⟨c, hstep, hrest⟩
  · rfl
  · have := hp.deeper hstep
    have := hp.depth_le hrest
    omega

theorem total (h : Ancestor parent a b) (h' : Ancestor parent a c) :
    Ancestor parent b c ∨ Ancestor parent c b :=
  Relation.ReflTransGen.total_of_right_unique hp.unique h h'

/-- Of two ancestors of a node the deeper one has the other as its ancestor. -/
theorem ancestor_of_le (h : Ancestor parent a b) (h' : Ancestor parent a c) (hle : depth c ≤ depth b) :
    Ancestor parent b c := by
  rcases hp.total h h' with hbc | hcb
  · exact hbc
  · exact hp.eq_of_depth_le hcb hle ▸ .refl

theorem eq_of_depth_eq (h : Ancestor parent a b) (h' : Ancestor parent a c) (heq : depth b = depth c) :
    b = c :=
  hp.eq_of_depth_le (hp.ancestor_of_le h h' (Nat.le_of_eq heq.symm)) (Nat.le_of_eq heq)

/-- Two ways down part right above the nearest common ancestor. -/
theorem nearestCommon_of_ne (hx : Ancestor parent a x) (hy : Ancestor parent b y) (hxc : parent x c)
    (hyc : parent y c) (hne : x ≠ y) : NearestCommon parent a b c := by
  refine ⟨hx.trans (.of_parent hxc), hy.trans (.of_parent hyc), fun d had hbd ↦ ?_⟩
  have hdx := hp.deeper hxc
  have hdy := hp.deeper hyc
  rcases Nat.lt_or_ge (depth c) (depth d) with hlt | hle
  · -- a deeper common ancestor has both `x` and `y` below it
    have hx' := hp.ancestor_of_le had hx (show depth x ≤ depth d by omega)
    have hy' := hp.ancestor_of_le hbd hy (show depth y ≤ depth d by omega)
    exact absurd (hp.eq_of_depth_eq hx' hy' (by omega)) hne
  · exact hp.ancestor_of_le (hx.trans (.of_parent hxc)) had hle

end Graded

/-- The node at a depth in a list of nodes that stand on the root. -/
def nodeAt (r : α) (l : List α) : ℕ → α
  | 0 => r
  | n + 1 => l[n]?.getD r

/-- Each node of the list builds on the one before it, the first one on the root. -/
def Chained (parent : α → α → Prop) (r : α) (l : List α) : Prop :=
  ∀ n < l.length, parent (nodeAt r l (n + 1)) (nodeAt r l n)

section NodeAt

variable {r a : α} {l l' : List α} {n k : ℕ}

theorem nodeAt_of_pos (h : 0 < n) : nodeAt r l n = l[n - 1]?.getD r := by
  obtain ⟨n, rfl⟩ := Nat.exists_eq_succ_of_ne_zero (Nat.ne_of_gt h)
  rfl

theorem nodeAt_eq (h : 0 < n) (ha : l[n - 1]? = some a) : nodeAt r l n = a := by
  rw [nodeAt_of_pos h, ha, Option.getD_some]

theorem nodeAt_eq_root (h : l.length < n) : nodeAt r l n = r := by
  rw [nodeAt_of_pos (by omega), List.getElem?_eq_none (by omega), Option.getD_none]

theorem getElem?_eq_nodeAt (h : n < l.length) : l[n]? = some (nodeAt r l (n + 1)) := by
  rw [nodeAt, List.getElem?_eq_getElem h, Option.getD_some]

theorem drop_eq_cons (h : n < l.length) : l.drop n = nodeAt r l (n + 1) :: l.drop (n + 1) := by
  rw [List.drop_eq_getElem_cons h]
  exact congrArg (· :: _) (nodeAt_eq (Nat.succ_pos n) (List.getElem?_eq_getElem h)).symm

theorem nodeAt_take (h : n ≤ k) : nodeAt r (l.take k) n = nodeAt r l n := by
  cases n with
  | zero => rfl
  | succ n => rw [nodeAt, nodeAt, List.getElem?_take, if_pos (Nat.lt_of_succ_le h)]

theorem nodeAt_append (h : n ≤ l.length) : nodeAt r (l ++ l') n = nodeAt r l n := by
  cases n with
  | zero => rfl
  | succ n => rw [nodeAt, nodeAt, List.getElem?_append_left (Nat.lt_of_succ_le h)]

theorem mem_iff_nodeAt : a ∈ l ↔ ∃ n, 0 < n ∧ n ≤ l.length ∧ nodeAt r l n = a := by
  constructor
  · intro h
    obtain ⟨n, hn⟩ := List.getElem?_of_mem h
    have hlt := (List.getElem?_eq_some_iff.mp hn).1
    exact ⟨n + 1, Nat.succ_pos n, hlt, by rw [nodeAt, hn, Option.getD_some]⟩
  · rintro ⟨n, hpos, hle, rfl⟩
    obtain ⟨n, rfl⟩ := Nat.exists_eq_succ_of_ne_zero (Nat.ne_of_gt hpos)
    exact List.mem_of_getElem? (getElem?_eq_nodeAt hle)

end NodeAt

namespace Chained

variable {r a : α} {l l' : List α} {n m : ℕ} {depth : α → ℕ}

theorem nil : Chained parent r [] := fun _ h ↦ absurd h (Nat.not_lt_zero _)

theorem concat (h : Chained parent r l) (ha : parent a (nodeAt r l l.length)) :
    Chained parent r (l ++ [a]) := by
  intro n hn
  rw [List.length_append, List.length_singleton] at hn
  rcases Nat.lt_or_ge n l.length with hlt | hge
  · rw [nodeAt_append hlt, nodeAt_append (Nat.le_of_lt hlt)]
    exact h n hlt
  · obtain rfl : n = l.length := by omega
    rw [nodeAt_append (Nat.le_refl _), nodeAt, List.getElem?_concat_length, Option.getD_some]
    exact ha

theorem take (h : Chained parent r l) (n : ℕ) : Chained parent r (l.take n) := by
  intro m hm
  rw [List.length_take] at hm
  rw [nodeAt_take (by omega), nodeAt_take (by omega)]
  exact h m (by omega)

theorem ancestor (h : Chained parent r l) (hn : n ≤ l.length) (hm : m ≤ n) :
    Ancestor parent (nodeAt r l n) (nodeAt r l m) := by
  induction n with
  | zero => exact Nat.le_zero.mp hm ▸ .refl
  | succ n ih =>
    rcases Nat.le_succ_iff.mp hm with hle | rfl
    · exact (Ancestor.of_parent (h n hn)).trans (ih (by omega) hle)
    · exact .refl

section Graded

variable (hp : Graded parent depth) (h0 : depth r = 0)

include hp

/-- Two lists with a node in common at a depth are the same up to it. -/
theorem take_eq (h : Chained parent r l) (h' : Chained parent r l') (hn : n ≤ l.length)
    (hn' : n ≤ l'.length) (he : nodeAt r l n = nodeAt r l' n) : l.take n = l'.take n := by
  induction n with
  | zero => rfl
  | succ n ih =>
    have hprev := h n hn
    rw [he] at hprev
    have htake := ih (by omega) (by omega) (hp.unique hprev (h' n hn'))
    rw [List.take_add_one, List.take_add_one, htake, getElem?_eq_nodeAt hn,
      getElem?_eq_nodeAt hn', he]

/-- Two lists that are the same up to a depth and have different nodes above it part somewhere in
between. -/
theorem exists_parting {k : ℕ} (h : Chained parent r l) (h' : Chained parent r l')
    (hk : l.take k = l'.take k) (hn : n ≤ l.length) (hn' : n ≤ l'.length)
    (hne : nodeAt r l n ≠ nodeAt r l' n) :
    ∃ m, k ≤ m ∧ m < n ∧ l.take m = l'.take m ∧ nodeAt r l (m + 1) ≠ nodeAt r l' (m + 1) := by
  have hlt : k < n := by
    by_contra hge
    have hle : n ≤ k := Nat.le_of_not_lt hge
    exact hne (by rw [← nodeAt_take hle, hk, nodeAt_take hle])
  induction n with
  | zero => exact absurd rfl hne
  | succ n ih =>
    by_cases he : nodeAt r l n = nodeAt r l' n
    · exact ⟨n, Nat.le_of_lt_succ hlt, Nat.lt_succ_self n,
        h.take_eq hp h' (by omega) (by omega) he, hne⟩
    · have hkn : k < n := by
        by_contra hge
        have hle : n ≤ k := Nat.le_of_not_lt hge
        exact he (by rw [← nodeAt_take hle, hk, nodeAt_take hle])
      obtain ⟨m, hkm, hmn, hrest⟩ := ih (by omega) (by omega) he hkn
      exact ⟨m, hkm, by omega, hrest⟩

include h0

theorem depth_nodeAt (h : Chained parent r l) (hn : n ≤ l.length) :
    depth (nodeAt r l n) = n := by
  induction n with
  | zero => exact h0
  | succ n ih => rw [hp.deeper (h n hn), ih (by omega)]

/-- What a node of the list builds on, directly or not, is in the list below it. -/
theorem eq_nodeAt (h : Chained parent r l) (hn : n ≤ l.length)
    (ha : Ancestor parent (nodeAt r l n) a) : depth a ≤ n ∧ a = nodeAt r l (depth a) := by
  have hle := hp.depth_le ha
  rw [h.depth_nodeAt hp h0 hn] at hle
  refine ⟨hle, hp.eq_of_depth_eq ha (h.ancestor hn hle) ?_⟩
  rw [h.depth_nodeAt hp h0 (Nat.le_trans hle hn)]

theorem mem_iff (h : Chained parent r l) :
    a ∈ l ↔ 0 < depth a ∧ depth a ≤ l.length ∧ nodeAt r l (depth a) = a := by
  rw [mem_iff_nodeAt (r := r)]
  constructor
  · rintro ⟨n, hpos, hle, rfl⟩
    rw [h.depth_nodeAt hp h0 hle]
    exact ⟨hpos, hle, rfl⟩
  · rintro ⟨hpos, hle, he⟩
    exact ⟨_, hpos, hle, he⟩

end Graded

end Chained

end Taiyi.Library.Lineage
