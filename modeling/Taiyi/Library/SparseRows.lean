import Mathlib.Data.List.Nodup
import Taiyi.Library.RowList

set_option autoImplicit false

/-! Rows under unique keys that stand for a function on the keys: a key without a row has the value
zero, and no row is kept for it. -/

namespace Taiyi.Library.SparseRows

open RowList

variable {R K V : Type} [DecidableEq K] (key : R → K)

def find (rows : List R) (k : K) : Option R := rows.find? fun r ↦ key r = k

/-- The row of a key is modified. -/
def update (rows : List R) (k : K) (f : R → R) : List R := modifyFirst (fun r ↦ key r = k) f rows

def remove (rows : List R) (k : K) : List R := rows.eraseP fun r ↦ key r = k

/-- No two rows have the same key. -/
def Unique (rows : List R) : Prop := (rows.map key).Nodup

section Rows

variable {key} {rows : List R} {r : R} {k k' : K} {f : R → R} {P : R → Prop}

theorem find_some (h : find key rows k = some r) : r ∈ rows ∧ key r = k :=
  ⟨List.mem_of_find?_eq_some h, by simpa using List.find?_some h⟩

theorem find_none : find key rows k = none ↔ ∀ r ∈ rows, key r ≠ k := by
  simp [find]

theorem find_of_mem (hu : Unique key rows) (h : r ∈ rows) : find key rows (key r) = some r := by
  cases hf : find key rows (key r) with
  | none => exact absurd rfl (find_none.mp hf r h)
  | some r' =>
    obtain ⟨hr', hk⟩ := find_some hf
    rw [List.inj_on_of_nodup_map hu hr' h hk]

theorem find_append (hfresh : find key rows (key r) = none) (k : K) :
    find key (rows ++ [r]) k = if key r = k then some r else find key rows k := by
  rw [find, List.find?_append]
  change (find key rows k).or _ = _
  by_cases hk : key r = k
  · rw [if_pos hk, ← hk, hfresh, Option.none_or, List.find?_cons_of_pos (by simp)]
  · rw [if_neg hk, List.find?_cons_of_neg (by simpa using hk), List.find?_nil, Option.or_none]

/-- The row of the key is the one that is modified, or removed. -/
theorem split (h : find key rows k = some r) : ∃ l₁ l₂, rows = l₁ ++ r :: l₂ ∧
    update key rows k f = l₁ ++ f r :: l₂ ∧ remove key rows k = l₁ ++ l₂ :=
  split_of_find h

theorem Unique.append (hu : Unique key rows) (hfresh : find key rows (key r) = none) :
    Unique key (rows ++ [r]) := by
  rw [Unique, List.map_append, List.map_singleton, List.nodup_append]
  refine ⟨hu, List.nodup_singleton _, ?_⟩
  rintro _ ha _ hb rfl
  obtain ⟨r', hr', hk⟩ := List.mem_map.mp ha
  exact find_none.mp hfresh r' hr' (hk.trans (List.mem_singleton.mp hb))

theorem Unique.update (hu : Unique key rows) (h : find key rows k = some r) (hf : key (f r) = key r) :
    Unique key (update key rows k f) := by
  obtain ⟨l₁, l₂, rfl, hupd, -⟩ := split (f := f) h
  rw [Unique, hupd, List.map_append, List.map_cons, hf, ← List.map_cons, ← List.map_append]
  exact hu

theorem Unique.remove (hu : Unique key rows) (k : K) : Unique key (remove key rows k) :=
  hu.sublist (List.eraseP_sublist.map key)

theorem find_update (hu : Unique key rows) (h : find key rows k = some r) (hf : key (f r) = key r)
    (k' : K) : find key (update key rows k f) k' = if k = k' then some (f r) else find key rows k' := by
  have hu' := hu.update h hf
  obtain ⟨-, rfl⟩ := find_some h
  obtain ⟨l₁, l₂, rfl, hupd, -⟩ := split (f := f) h
  split
  · next hk =>
    rw [← hk, ← find_of_mem hu' (hupd ▸ List.mem_append_right _ List.mem_cons_self), hf]
  · next hk =>
    rw [hupd, find, find, List.find?_append, List.find?_append, List.find?_cons_of_neg, List.find?_cons_of_neg]
    · simpa using hk
    · simpa [hf] using hk

theorem find_remove (hu : Unique key rows) (h : find key rows k = some r) (k' : K) :
    find key (remove key rows k) k' = if k = k' then none else find key rows k' := by
  obtain ⟨-, rfl⟩ := find_some h
  obtain ⟨l₁, l₂, rfl, -, hrem⟩ := split (f := id) h
  rw [hrem]
  split
  · next hk =>
    subst hk
    rw [Unique, List.map_append, List.map_cons, List.nodup_middle, List.nodup_cons, ← List.map_append] at hu
    exact find_none.mpr fun r' hr' hk ↦ hu.1 (hk ▸ List.mem_map_of_mem hr')
  · next hk =>
    rw [find, find, List.find?_append, List.find?_append, List.find?_cons_of_neg]
    simpa using hk

theorem forall_update (h : find key rows k = some r) (hall : ∀ r ∈ rows, P r) (hr : P (f r)) :
    ∀ r ∈ update key rows k f, P r := by
  obtain ⟨l₁, l₂, rfl, hupd, -⟩ := split (f := f) h
  rw [hupd]
  rw [List.forall_mem_append, List.forall_mem_cons] at hall ⊢
  exact ⟨hall.1, hr, hall.2.2⟩

/-- Of the other rows it is known that they have another key. -/
theorem forall_update_of_ne (hu : Unique key rows) (h : find key rows k = some r)
    (hall : ∀ r' ∈ rows, key r' ≠ k → P r') (hr : P (f r)) : ∀ r ∈ SparseRows.update key rows k f, P r := by
  obtain ⟨-, rfl⟩ := find_some h
  obtain ⟨l₁, l₂, rfl, hupd, -⟩ := split (f := f) h
  rw [Unique, List.map_append, List.map_cons, List.nodup_middle, List.nodup_cons, ← List.map_append] at hu
  have hother : ∀ r' ∈ l₁ ++ l₂, P r' := fun r' hr' ↦ by
    refine hall r' ?_ fun hk ↦ hu.1 (hk ▸ List.mem_map_of_mem hr')
    exact ((List.sublist_cons_self r l₂).append_left l₁).mem hr'
  rw [hupd, List.forall_mem_append, List.forall_mem_cons]
  rw [List.forall_mem_append] at hother
  exact ⟨hother.1, hr, hother.2⟩

theorem forall_remove (hall : ∀ r ∈ rows, P r) : ∀ r ∈ remove key rows k, P r :=
  fun r hr ↦ hall r (List.mem_of_mem_eraseP hr)

end Rows

section Values

variable [Zero V] (val : R → V)

def value (rows : List R) (k : K) : V := (find key rows k).elim 0 val

/-- Each key has at most one row, and only for a value other than zero. -/
structure Sparse (rows : List R) : Prop where
  unique : Unique key rows
  nonzero : ∀ r ∈ rows, val r ≠ 0

/-- The rows stand for the function with the value `v` at the key. -/
structure Puts (rows rows' : List R) (k : K) (v : V) : Prop where
  sparse : Sparse key val rows'
  value : ∀ k', value key val rows' k' = if k = k' then v else value key val rows k'

variable {key val} {rows : List R} {r : R} {k : K} {f : R → R}

theorem value_of_find (h : find key rows k = some r) : value key val rows k = val r := by
  rw [value, h]
  rfl

theorem value_of_none (h : find key rows k = none) : value key val rows k = 0 := by
  rw [value, h]
  rfl

omit [DecidableEq K] in
theorem Sparse.nil : Sparse key val [] := ⟨List.nodup_nil, by simp⟩

theorem Sparse.puts_self (h : Sparse key val rows) : Puts key val rows rows k (value key val rows k) := by
  refine ⟨h, fun k' ↦ ?_⟩
  split
  · next hk => rw [hk]
  · rfl

theorem Sparse.puts_append (h : Sparse key val rows) (hfresh : find key rows (key r) = none)
    (hr : val r ≠ 0) : Puts key val rows (rows ++ [r]) (key r) (val r) := by
  refine ⟨⟨h.unique.append hfresh, ?_⟩, fun k' ↦ ?_⟩
  · rw [List.forall_mem_append]
    exact ⟨h.nonzero, by simpa using hr⟩
  · rw [value, find_append hfresh]
    split <;> rfl

theorem Sparse.puts_update (h : Sparse key val rows) (hfind : find key rows k = some r)
    (hf : key (f r) = key r) (hr : val (f r) ≠ 0) :
    Puts key val rows (update key rows k f) k (val (f r)) := by
  refine ⟨⟨h.unique.update hfind hf, forall_update hfind h.nonzero hr⟩, fun k' ↦ ?_⟩
  rw [value, find_update h.unique hfind hf]
  split <;> rfl

theorem Sparse.puts_remove (h : Sparse key val rows) (hfind : find key rows k = some r) :
    Puts key val rows (remove key rows k) k 0 := by
  refine ⟨⟨h.unique.remove k, forall_remove h.nonzero⟩, fun k' ↦ ?_⟩
  rw [value, find_remove h.unique hfind]
  split <;> rfl

end Values

end Taiyi.Library.SparseRows
