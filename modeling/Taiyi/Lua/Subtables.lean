import Taiyi.Lua.Paths

set_option autoImplicit false

namespace Taiyi.Lua.LuaMap

open Library

variable {Number Userdata : Type} [LinearOrder Number]

/-- `erase_in_table`. -/
def eraseAt (table : LuaMap Number Userdata) : Path Number → LuaMap Number Userdata
  | [] => table
  | k :: ks =>
    match table.find k with
    | none => table
    | some node =>
      if ks.isEmpty then table.erase k
      else
        match node with
        | .table t => table.assign k (.table (eraseAt t ks))
        | _ => table

/-- A table in the place of the one at a path. -/
def putTable (m : LuaMap Number Userdata) : Path Number → LuaMap Number Userdata → LuaMap Number Userdata
  | [], t => t
  | k :: ks, t => m.assign k (.table (putTable (m.below k) ks t))

/-- There is a table at a path. -/
inductive IsTableAt : LuaMap Number Userdata → Path Number → LuaMap Number Userdata → Prop
  | here (m : LuaMap Number Userdata) : IsTableAt m [] m
  | down {m m' t : LuaMap Number Userdata} {k : LuaKey Number} {ks : Path Number} :
      m.find k = some (.table m') → IsTableAt m' ks t → IsTableAt m (k :: ks) t

variable {m t t' : LuaMap Number Userdata} {k : LuaKey Number} {path : Path Number}
  {v : LuaTypes Number Userdata} {f : LuaTypes Number Userdata → LuaTypes Number Userdata}

omit [LinearOrder Number] in
/-- Along the entries of a map and into the tables among them. -/
@[elab_as_elim]
theorem entries_induction {motive : LuaMap Number Userdata → Prop} (nil : motive [])
    (cons : ∀ k v es, (∀ ks, v = .table ks → motive ks) → motive es → motive ((k, v) :: es)) :
    ∀ m : LuaMap Number Userdata, motive m
  | [] => nil
  | (k, .table ks) :: es =>
    cons k _ es (fun _ h ↦ LuaTypes.table.inj h ▸ entries_induction nil cons ks) (entries_induction nil cons es)
  | (k, .int _) :: es | (k, .number _) :: es | (k, .string _) :: es | (k, .bool _) :: es
  | (k, .function ..) :: es | (k, .userdata _) :: es => cons k _ es nofun (entries_induction nil cons es)

theorem assign_assign (m : LuaMap Number Userdata) (k : LuaKey Number) (v w : LuaTypes Number Userdata) :
    (m.assign k v).assign k w = m.assign k w := OrderedMap.assign_assign m k v w

theorem find_assign_self : (m.assign k v).find k = some v := by rw [find_assign, if_pos rfl]

theorem find_erase (m : LuaMap Number Userdata) (k key : LuaKey Number) :
    (m.erase k).find key = if k.normal = key.normal then none else m.find key := by
  rw [LuaMap.find, LuaMap.erase, OrderedMap.find_erase]
  simp only [LuaKey.equiv_lt_iff]
  rfl

theorem erase_of_find (hfind : m.find k = none) : m.erase k = m := OrderedMap.erase_of_find hfind

theorem Ordered.erase (h : Ordered m) : Ordered (m.erase k) := by
  refine .intro (List.Pairwise.filter _ h.sorted) fun k' t hmem ↦ h.table (List.mem_filter.mp hmem).1

theorem Ordered.putTable (hm : Ordered m) (ht : Ordered t) (path : Path Number) : Ordered (m.putTable path t) := by
  induction path generalizing m with
  | nil => exact ht
  | cons k ks ih =>
    rw [LuaMap.putTable]
    refine hm.assign ?_
    rintro _ ⟨⟩
    exact ih (hm.of_below k)

namespace IsTableAt

theorem tableAt_eq (h : IsTableAt m path t) : m.tableAt path = t := by
  induction h with
  | here => rfl
  | @down m m' t k ks hfind _ ih =>
    change LuaMap.tableAt (m.below k) ks = t
    rw [below_of_find hfind, ih]

theorem snoc (h : IsTableAt m path t) (hfind : t.find k = some (.table t')) : IsTableAt m (path ++ [k]) t' := by
  induction h with
  | here => exact .down hfind (.here _)
  | down hm _ ih => exact .down hm (ih hfind)

theorem ordered (h : IsTableAt m path t) (hm : Ordered m) : Ordered t := by
  induction h with
  | here => exact hm
  | down hfind _ ih => exact ih (hm.of_find hfind)

theorem lookup_snoc (h : IsTableAt m path t) : m.lookup (path ++ [k]) = t.find k := by
  rw [lookup_append (List.cons_ne_nil _ _), h.tableAt_eq]
  rfl

/-- Past a table, the search stops at it if a key is missing there. -/
theorem search_missing (h : IsTableAt m path t) (hpath : path ≠ []) (hfind : t.find k = none) :
    m.searchInTable (path ++ [k]) = (false, some (path, .table t)) := by
  induction h with
  | here => exact absurd rfl hpath
  | @down m m' t key ks hm hbelow ih =>
    rw [List.cons_append, searchInTable, hm]
    simp only [List.isEmpty_iff, List.append_eq_nil_iff, List.cons_ne_nil, and_false, if_false]
    cases hbelow with
    | here => simp only [List.nil_append, searchInTable, hfind]
    | down hm' hbelow => rw [ih (List.cons_ne_nil _ _) hfind]

theorem search_top (hfind : m.find k = none) : m.searchInTable [k] = (false, none) := by
  rw [searchInTable, hfind]

/-- What is not a table ends the search. -/
theorem search_atom (h : IsTableAt m path t) (hfind : t.find k = some v) (hv : ∀ t', v ≠ .table t') {ks : Path Number}
    (hks : ks ≠ []) : m.searchInTable (path ++ k :: ks) = (false, some (path ++ [k], v)) := by
  have hempty : ¬ks.isEmpty = true := by simpa using hks
  induction h with
  | here =>
    rw [List.nil_append, searchInTable, hfind]
    simp only [if_neg hempty]
    cases v with
    | table t' => exact absurd rfl (hv t')
    | int | number | string | bool | function | userdata => rfl
  | down hm _ ih =>
    rw [List.cons_append, searchInTable, hm]
    simp only [List.isEmpty_iff, List.append_eq_nil_iff, List.cons_ne_nil, and_false, if_false, ih hfind]
    rfl

theorem put (h : IsTableAt m path t) (t' : LuaMap Number Userdata) : IsTableAt (m.putTable path t') path t' := by
  induction h with
  | here => exact .here t'
  | down hfind _ ih =>
    rw [putTable, below_of_find hfind]
    exact .down find_assign_self ih

theorem put_put (h : IsTableAt m path t) (a b : LuaMap Number Userdata) :
    (m.putTable path a).putTable path b = m.putTable path b := by
  induction h with
  | here => rfl
  | down hfind _ ih =>
    rw [putTable, putTable, putTable, below_of_find hfind, below_of_find find_assign_self, ih, assign_assign]

theorem put_self (h : IsTableAt m path t) (hm : Ordered m) : m.putTable path t = m := by
  induction h with
  | here => rfl
  | down hfind _ ih =>
    rw [putTable, below_of_find hfind, ih (hm.of_find hfind)]
    exact OrderedMap.assign_of_find hm.sorted hfind

theorem put_snoc (h : IsTableAt m path t) (t' : LuaMap Number Userdata) :
    m.putTable (path ++ [k]) t' = m.putTable path (t.assign k (.table t')) := by
  induction h with
  | here => rfl
  | down hfind _ ih => rw [List.cons_append, putTable, putTable, below_of_find hfind, ih]

theorem modifyAt_snoc (h : IsTableAt m path t) (hfind : t.find k = some v) :
    m.modifyAt f (path ++ [k]) = m.putTable path (t.assign k (f v)) := by
  induction h with
  | here =>
    rw [List.nil_append, modifyAt, hfind]
    rfl
  | down hm _ ih =>
    rw [List.cons_append, modifyAt, hm, putTable, below_of_find hm, ← ih hfind]
    simp only [List.isEmpty_iff, List.append_eq_nil_iff, List.cons_ne_nil, and_false, if_false]

theorem modifyAt_table (h : IsTableAt m path t) (hpath : path ≠ []) :
    m.modifyAt (fun _ ↦ .table t') path = m.putTable path t' := by
  induction h with
  | here => exact absurd rfl hpath
  | down hm hbelow ih =>
    rw [modifyAt, hm, putTable, below_of_find hm]
    cases hbelow with
    | here => rfl
    | down hm' hbelow =>
      rw [← ih (List.cons_ne_nil _ _)]
      rfl

theorem eraseAt_snoc (h : IsTableAt m path t) (hm : Ordered m) :
    m.eraseAt (path ++ [k]) = m.putTable path (t.erase k) := by
  induction h with
  | here m =>
    rw [List.nil_append, eraseAt, putTable]
    cases hfind : m.find k with
    | none => exact (erase_of_find hfind).symm
    | some v => rfl
  | down hfind _ ih =>
    rw [List.cons_append, eraseAt, hfind, putTable, below_of_find hfind, ← ih (hm.of_find hfind)]
    simp only [List.isEmpty_iff, List.append_eq_nil_iff, List.cons_ne_nil, and_false, if_false]

/-- Nothing is erased below what is not a table. -/
theorem eraseAt_atom (h : IsTableAt m path t) (hm : Ordered m) (hfind : t.find k = some v) (hv : ∀ t', v ≠ .table t')
    {ks : Path Number} (hks : ks ≠ []) : m.eraseAt (path ++ k :: ks) = m := by
  have hempty : ¬ks.isEmpty = true := by simpa using hks
  induction h with
  | here =>
    rw [List.nil_append, eraseAt, hfind]
    simp only [if_neg hempty]
  | down hfind' _ ih =>
    rw [List.cons_append, eraseAt, hfind']
    simp only [List.isEmpty_iff, List.append_eq_nil_iff, List.cons_ne_nil, and_false, if_false,
      ih (hm.of_find hfind') hfind]
    exact OrderedMap.assign_of_find hm.sorted hfind'

end IsTableAt

end Taiyi.Lua.LuaMap
