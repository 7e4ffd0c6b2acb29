import Taiyi.Lua.Types

set_option autoImplicit false

namespace Taiyi.Lua

open Library

variable {Number Userdata : Type} [LinearOrder Number]

abbrev Path (Number : Type) := List (LuaKey Number)

namespace LuaMap

/-- `search_in_table` and `get_in_table`: whether the path is found, and the last node on the way with
the path to it, of which there is none if the first key is missing. -/
def searchInTable (table : LuaMap Number Userdata) : Path Number →
    Bool × Option (Path Number × LuaTypes Number Userdata)
  | [] => (false, none)
  | k :: ks =>
    match table.find k with
    | none => (false, none)
    | some node =>
      if ks.isEmpty then (true, some ([k], node))
      else
        match node with
        | .table t =>
          match searchInTable t ks with
          | (found, some (path, last)) => (found, some (k :: path, last))
          | (found, none) => (found, some ([k], node))
        | _ => (false, some ([k], node))

/-- The table under a key, which is empty if there is none. -/
def below (table : LuaMap Number Userdata) (k : LuaKey Number) : LuaMap Number Userdata :=
  match table.find k with
  | some (.table t) => t
  | _ => []

/-- What stands at a path. -/
def lookup (table : LuaMap Number Userdata) : Path Number → Option (LuaTypes Number Userdata)
  | [] => none
  | k :: ks => if ks.isEmpty then table.find k else lookup (table.below k) ks

/-- A change of what stands at a path. -/
def modifyAt (f : LuaTypes Number Userdata → LuaTypes Number Userdata) (table : LuaMap Number Userdata) :
    Path Number → LuaMap Number Userdata
  | [] => table
  | k :: ks =>
    match table.find k with
    | none => table
    | some node =>
      if ks.isEmpty then table.assign k (f node)
      else
        match node with
        | .table t => table.assign k (.table (modifyAt f t ks))
        | _ => table

/-- A map of which all tables have their entries in order. -/
inductive Ordered : LuaMap Number Userdata → Prop
  | intro {m : LuaMap Number Userdata} : OrderedMap.Sorted LuaKey.lt m →
      (∀ k t, (k, LuaTypes.table t) ∈ m → Ordered t) → Ordered m

section Lookup

variable {m t : LuaMap Number Userdata} {k : LuaKey Number} {ks path : Path Number}
  {v : LuaTypes Number Userdata}

theorem find_nil : LuaMap.find ([] : LuaMap Number Userdata) k = none := rfl

theorem below_of_find (h : m.find k = some (.table t)) : m.below k = t := by rw [below, h]

theorem below_of_none (h : m.find k = none) : m.below k = [] := by rw [below, h]

theorem below_of_atom (h : m.find k = some v) (hv : ∀ t, v ≠ .table t) : m.below k = [] := by
  rw [below, h]
  cases v with
  | table t => exact absurd rfl (hv t)
  | int | number | string | bool | function | userdata => rfl

theorem below_nil : below ([] : LuaMap Number Userdata) k = [] := rfl

theorem lookup_singleton : m.lookup [k] = m.find k := rfl

theorem lookup_cons (h : ks ≠ []) : m.lookup (k :: ks) = (m.below k).lookup ks := by
  rw [lookup, if_neg (by simpa using h)]

theorem lookup_nil_table : lookup ([] : LuaMap Number Userdata) path = none := by
  induction path with
  | nil => rfl
  | cons k ks ih =>
    rw [lookup, below_nil, ih]
    split <;> rfl

/-- The table at a path, which is empty if there is none. -/
def tableAt (m : LuaMap Number Userdata) (path : Path Number) : LuaMap Number Userdata := path.foldl below m

theorem tableAt_append : m.tableAt (path ++ [k]) = (m.tableAt path).below k := List.foldl_concat ..

theorem lookup_append (h : ks ≠ []) : m.lookup (path ++ ks) = (m.tableAt path).lookup ks := by
  induction path generalizing m with
  | nil => rfl
  | cons k path ih =>
    rw [List.cons_append, lookup_cons (by simp [h]), ih]
    rfl

theorem tableAt_eq (h : path ≠ []) : m.tableAt path = match m.lookup path with
    | some (.table t) => t
    | _ => [] := by
  induction path generalizing m with
  | nil => exact absurd rfl h
  | cons k ks ih =>
    by_cases hks : ks = []
    · subst hks
      rfl
    · rw [lookup_cons hks]
      exact ih hks

/-- A path on which something stands is found. -/
theorem search_of_lookup (h : m.lookup path = some v) : m.searchInTable path = (true, some (path, v)) := by
  induction path generalizing m with
  | nil => cases h
  | cons k ks ih =>
    by_cases hks : ks = []
    · subst hks
      rw [lookup_singleton] at h
      simp only [searchInTable, h, List.isEmpty_nil, if_pos]
    · rw [lookup_cons hks, below] at h
      have hempty : ¬ks.isEmpty = true := by simpa using hks
      split at h
      · next t hfind =>
        rw [searchInTable, hfind]
        simp only [if_neg hempty, ih h]
      · rw [lookup_nil_table] at h
        cases h

/-- A path on which nothing stands is not found. -/
theorem search_of_lookup_none (h : m.lookup path = none) : (m.searchInTable path).1 = false := by
  induction path generalizing m with
  | nil => rfl
  | cons k ks ih =>
    rw [searchInTable]
    by_cases hks : ks = []
    · subst hks
      rw [lookup_singleton] at h
      rw [h]
    · rw [lookup_cons hks, below] at h
      have hempty : ¬ks.isEmpty = true := by simpa using hks
      split
      · rfl
      · next node hfind =>
        rw [if_neg hempty]
        split
        · next t =>
          rw [hfind] at h
          have ht := ih h
          split
          · next heq => rw [heq] at ht; exact ht
          · next heq => rw [heq] at ht; exact ht
        · rfl

end Lookup

section Ordered

variable {m t : LuaMap Number Userdata} {k : LuaKey Number} {path : Path Number}
  {v : LuaTypes Number Userdata} {f : LuaTypes Number Userdata → LuaTypes Number Userdata}

theorem Ordered.sorted : Ordered m → OrderedMap.Sorted LuaKey.lt m
  | .intro h _ => h

theorem Ordered.table : Ordered m → (k, LuaTypes.table t) ∈ m → Ordered t
  | .intro _ h => h k t

theorem ordered_nil : Ordered ([] : LuaMap Number Userdata) :=
  .intro .nil fun _ _ h ↦ absurd h List.not_mem_nil

theorem Ordered.of_find (h : Ordered m) (hfind : m.find k = some (.table t)) : Ordered t := by
  obtain ⟨k', hmem, -⟩ := OrderedMap.mem_of_find hfind
  exact h.table hmem

theorem Ordered.of_below (h : Ordered m) (k : LuaKey Number) : Ordered (m.below k) := by
  unfold LuaMap.below
  split
  · next t hfind => exact h.of_find hfind
  · exact ordered_nil

theorem Ordered.assign (h : Ordered m) (hv : ∀ t, v = .table t → Ordered t) : Ordered (m.assign k v) := by
  refine .intro (OrderedMap.sorted_assign h.sorted) fun k' t hmem ↦ ?_
  obtain hmem | ⟨heq, -⟩ := OrderedMap.mem_assign hmem
  · exact h.table hmem
  · exact hv t heq.symm

theorem Ordered.of_tableAt (h : Ordered m) (path : Path Number) : Ordered (m.tableAt path) := by
  induction path generalizing m with
  | nil => exact h
  | cons k path ih => exact ih (h.of_below k)

theorem Ordered.find_of_mem (h : Ordered m) (hmem : (k, v) ∈ m) : m.find k = some v :=
  OrderedMap.find_of_mem h.sorted hmem

theorem find_assign (m : LuaMap Number Userdata) (k : LuaKey Number) (v : LuaTypes Number Userdata)
    (key : LuaKey Number) : (m.assign k v).find key = if k.normal = key.normal then some v else m.find key := by
  rw [LuaMap.find, LuaMap.assign, OrderedMap.find_assign]
  simp only [LuaKey.equiv_lt_iff]
  rfl

/-- A change that leaves what stands at a path as it is leaves the whole map as it is. -/
theorem modifyAt_of_lookup (h : Ordered m) (hlookup : m.lookup path = some v) (hf : f v = v) :
    m.modifyAt f path = m := by
  induction path generalizing m with
  | nil => rfl
  | cons k ks ih =>
    by_cases hks : ks = []
    · subst hks
      rw [lookup_singleton] at hlookup
      rw [modifyAt, hlookup]
      simp only [List.isEmpty_nil, if_pos, hf]
      exact OrderedMap.assign_of_find h.sorted hlookup
    · rw [lookup_cons hks, LuaMap.below] at hlookup
      have hempty : ¬ks.isEmpty = true := by simpa using hks
      split at hlookup
      · next t hfind =>
        rw [modifyAt, hfind]
        simp only [if_neg hempty, ih (h.of_find hfind) hlookup]
        exact OrderedMap.assign_of_find h.sorted hfind
      · rw [lookup_nil_table] at hlookup
        cases hlookup

end Ordered

end LuaMap

end Taiyi.Lua
