import Taiyi.TableData.ReadTable
import Taiyi.Lua.Subtables

set_option autoImplicit false

namespace Taiyi.TableData

open Library Lua LuaMap

variable {Number Userdata : Type} [LinearOrder Number]

/-- The table a call leaves, and the error with which it ended: what was written before it is not undone. -/
structure Written (Number Userdata : Type) where
  error : Option String
  table : LuaMap Number Userdata

namespace Written

def done (t : LuaMap Number Userdata) : Written Number Userdata := ⟨none, t⟩

def fail (error : String) (t : LuaMap Number Userdata) : Written Number Userdata := ⟨some error, t⟩

def andThen (w : Written Number Userdata) (f : LuaMap Number Userdata → Written Number Userdata) :
    Written Number Userdata :=
  match w.error with
  | none => f w.table
  | some _ => w

def map (f : LuaMap Number Userdata → LuaMap Number Userdata) (w : Written Number Userdata) :
    Written Number Userdata :=
  ⟨w.error, f w.table⟩

end Written

open Written

def missing : String := "failed in write_table_data while path in data is not exist"

def badType : String := "bad type"

/-- The flag of a key: `false` has it erased. -/
def flag : LuaTypes Number Userdata → Bool
  | .bool b => b
  | _ => true

/-- A key with no keys below it. -/
def writeLeaf (data : LuaMap Number Userdata) (stack : Path Number) (key : LuaKey Number)
    (target : LuaMap Number Userdata) : Written Number Userdata :=
  match target.searchInTable stack with
  | (true, _) =>
    match data.lookup stack with
    | none => fail missing target
    | some v => done (target.modifyAt (fun _ ↦ v) stack)
  | (false, some (path, node)) =>
    match data.lookup stack, node with
    | none, _ => fail missing target
    | some v, .table t => done (target.modifyAt (fun _ ↦ .table (LuaMap.assign t key v)) path)
    | some _, _ => fail badType target
  | (false, none) =>
    match data.lookup (stack.take 1) with
    | none => fail missing target
    | some first => done (target.assign key first)

mutual

/-- The loop over the keys. -/
def writeKeys (unset : ℤ) (data : LuaMap Number Userdata) (stack : Path Number) (target : LuaMap Number Userdata) :
    LuaMap Number Userdata → Written Number Userdata
  | [] => done target
  | e :: es => (writeKey unset data stack target e).andThen fun target ↦ writeKeys unset data stack target es
  termination_by structural l => l

def writeKey (unset : ℤ) (data : LuaMap Number Userdata) (stack : Path Number) (target : LuaMap Number Userdata) :
    LuaKey Number × LuaTypes Number Userdata → Written Number Userdata
  | (key, value) => writeValue unset data stack target key value
  termination_by structural e => e

def writeValue (unset : ℤ) (data : LuaMap Number Userdata) (stack : Path Number) (target : LuaMap Number Userdata)
    (key : LuaKey Number) : LuaTypes Number Userdata → Written Number Userdata
  | .table keys =>
    if keys.isEmpty then writeLeaf data (stack ++ [castKey unset key]) key target
    else
      match target.searchInTable (stack ++ [castKey unset key]) with
      | (true, _) => writeKeys unset data (stack ++ [castKey unset key]) target keys
      | (false, _) => writeLeaf data (stack ++ [castKey unset key]) key target
  | .bool b =>
    if b then writeLeaf data (stack ++ [castKey unset key]) key target
    else done (target.eraseAt (stack ++ [castKey unset key]))
  | _ => writeLeaf data (stack ++ [castKey unset key]) key target
  termination_by structural v => v

end

def writeTableData (unset : ℤ) (target keys data : LuaMap Number Userdata) : Written Number Userdata :=
  if keys.isEmpty then done data else writeKeys unset data [] target keys

/-! What a list of keys does to the one table that it stands on, `d` being the table of the data there. -/

def leafIn (d : LuaMap Number Userdata) (k : LuaKey Number) (t : LuaMap Number Userdata) : Written Number Userdata :=
  match d.find k with
  | none => fail missing t
  | some v => done (t.assign k v)

/-- Keys below what is no table: they can be erased, but not written. -/
def atomError (d : LuaMap Number Userdata) : LuaMap Number Userdata → Option String
  | [] => none
  | (k, v) :: es => if flag v then some (if (d.find k).isSome then badType else missing) else atomError d es

mutual

def writeIn (d t : LuaMap Number Userdata) : LuaMap Number Userdata → Written Number Userdata
  | [] => done t
  | e :: es => (writeEntryIn d t e).andThen fun t ↦ writeIn d t es
  termination_by structural l => l

def writeEntryIn (d t : LuaMap Number Userdata) : LuaKey Number × LuaTypes Number Userdata → Written Number Userdata
  | (k, v) => writeValueIn d t k v
  termination_by structural e => e

def writeValueIn (d t : LuaMap Number Userdata) (k : LuaKey Number) : LuaTypes Number Userdata → Written Number Userdata
  | .table ks =>
    if ks.isEmpty then leafIn d k t
    else
      match t.find k with
      | some (.table t') => (writeIn (d.below k) t' ks).map fun t' ↦ t.assign k (.table t')
      | some _ => ⟨atomError (d.below k) ks, t⟩
      | none => leafIn d k t
  | .bool b => if b then leafIn d k t else done (t.erase k)
  | _ => leafIn d k t
  termination_by structural v => v

end

/-- No Boolean is a key, at any depth. -/
inductive NoBool : LuaMap Number Userdata → Prop
  | intro {keys : LuaMap Number Userdata} : (∀ e ∈ keys, ∀ b, e.1 ≠ LuaKey.bool b) →
      (∀ k ks, (k, LuaTypes.table ks) ∈ keys → NoBool ks) → NoBool keys

section Equations

variable {unset : ℤ} {data target d t : LuaMap Number Userdata} {stack : Path Number} {k : LuaKey Number}
  {v : LuaTypes Number Userdata} {es ks : LuaMap Number Userdata}

theorem writeKeys_cons : writeKeys unset data stack target ((k, v) :: es) =
    (writeValue unset data stack target k v).andThen fun target ↦ writeKeys unset data stack target es := by
  rw [writeKeys, writeKey]

theorem writeIn_cons : writeIn d t ((k, v) :: es) = (writeValueIn d t k v).andThen fun t ↦ writeIn d t es := by
  rw [writeIn, writeEntryIn]

theorem writeValue_leaf (hleaf : IsLeaf v) (hflag : flag v = true) :
    writeValue unset data stack target k v = writeLeaf data (stack ++ [castKey unset k]) k target := by
  cases v with
  | table ks => rw [writeValue, if_pos (by simpa using hleaf ks rfl)]
  | bool b =>
    rw [writeValue]
    exact if_pos hflag
  | int | number | string | function | userdata => rw [writeValue] <;> nofun

theorem writeValueIn_leaf (hleaf : IsLeaf v) (hflag : flag v = true) : writeValueIn d t k v = leafIn d k t := by
  cases v with
  | table ks => rw [writeValueIn, if_pos (by simpa using hleaf ks rfl)]
  | bool b =>
    rw [writeValueIn]
    exact if_pos hflag
  | int | number | string | function | userdata => rw [writeValueIn] <;> nofun

omit [LinearOrder Number] in
theorem eq_of_flag (hflag : flag v = false) : v = .bool false := by
  cases v with
  | bool b => rw [show b = false from hflag]
  | int | number | string | table | function | userdata => cases hflag

theorem writeValue_erase : writeValue unset data stack target k (.bool false) =
    done (target.eraseAt (stack ++ [castKey unset k])) := by
  rw [writeValue]
  rfl

theorem writeValueIn_erase : writeValueIn d t k (.bool false) = done (t.erase k) := by
  rw [writeValueIn]
  rfl

theorem writeValueIn_nested {t' : LuaMap Number Userdata} (hks : ks ≠ []) (hfind : t.find k = some (.table t')) :
    writeValueIn d t k (.table ks) = (writeIn (d.below k) t' ks).map fun t' ↦ t.assign k (.table t') := by
  rw [writeValueIn, if_neg (by simpa using hks), hfind]

theorem writeValueIn_atom {w : LuaTypes Number Userdata} (hks : ks ≠ []) (hfind : t.find k = some w)
    (hw : ∀ t', w ≠ .table t') : writeValueIn d t k (.table ks) = ⟨atomError (d.below k) ks, t⟩ := by
  rw [writeValueIn, if_neg (by simpa using hks), hfind]
  cases w with
  | table t' => exact absurd rfl (hw t')
  | int | number | string | bool | function | userdata => rfl

theorem writeValueIn_missing (hks : ks ≠ []) (hfind : t.find k = none) :
    writeValueIn d t k (.table ks) = leafIn d k t := by
  rw [writeValueIn, if_neg (by simpa using hks), hfind]

end Equations

section Ordered

variable {d t : LuaMap Number Userdata} {k : LuaKey Number} {v : LuaTypes Number Userdata}

theorem leafIn_ordered (hd : Ordered d) (ht : Ordered t) : Ordered (leafIn d k t).table := by
  unfold leafIn
  cases hfind : d.find k with
  | none => exact ht
  | some w => exact ht.assign fun t' ht' ↦ hd.of_find (ht' ▸ hfind)

theorem writeValueIn_ordered (hd : Ordered d) (ht : Ordered t)
    (hnested : ∀ ks, v = .table ks → ∀ {d t}, Ordered d → Ordered t → Ordered (writeIn d t ks).table) :
    Ordered (writeValueIn d t k v).table := by
  by_cases hflag : flag v = true
  · by_cases hleaf : IsLeaf v
    · rw [writeValueIn_leaf hleaf hflag]
      exact leafIn_ordered hd ht
    · obtain ⟨ks, rfl, hks⟩ := exists_of_not_isLeaf hleaf
      cases hfind : t.find k with
      | none =>
        rw [writeValueIn_missing hks hfind]
        exact leafIn_ordered hd ht
      | some w =>
        by_cases hw : ∀ t', w ≠ .table t'
        · rw [writeValueIn_atom hks hfind hw]
          exact ht
        · obtain ⟨t', rfl⟩ : ∃ t', w = .table t' := by simpa only [ne_eq, not_forall, not_not] using hw
          rw [writeValueIn_nested hks hfind]
          refine ht.assign ?_
          rintro _ ⟨⟩
          exact hnested ks rfl (hd.of_below k) (ht.of_find hfind)
  · obtain rfl := eq_of_flag (Bool.eq_false_iff.mpr hflag)
    rw [writeValueIn_erase]
    exact ht.erase

theorem writeIn_ordered (keys : LuaMap Number Userdata) :
    ∀ {d t : LuaMap Number Userdata}, Ordered d → Ordered t → Ordered (writeIn d t keys).table := by
  induction keys using entries_induction with
  | nil =>
    intro d t _ ht
    rw [writeIn]
    exact ht
  | cons k v es hnested ih =>
    intro d t hd ht
    have hvalue := writeValueIn_ordered (k := k) hd ht hnested
    rw [writeIn_cons, andThen]
    split
    · exact ih hd hvalue
    · exact hvalue

end Ordered

/-! The code writes in place, along a path, what `writeIn` writes on the table that stands there. -/

section Refines

variable {unset : ℤ} {data target t : LuaMap Number Userdata} {stack : Path Number} {k k' : LuaKey Number}
  {v w : LuaTypes Number Userdata} {keys : LuaMap Number Userdata}

omit [LinearOrder Number] in
theorem NoBool.key (h : NoBool keys) (hmem : (k, v) ∈ keys) (b : Bool) : k ≠ .bool b := by
  obtain ⟨hkeys, -⟩ := h
  exact hkeys _ hmem b

omit [LinearOrder Number] in
theorem NoBool.nested {ks : LuaMap Number Userdata} (h : NoBool keys) (hmem : (k, .table ks) ∈ keys) : NoBool ks := by
  obtain ⟨-, hnested⟩ := h
  exact hnested k ks hmem

omit [LinearOrder Number] in
theorem NoBool.tail {e : LuaKey Number × LuaTypes Number Userdata} (h : NoBool (e :: keys)) : NoBool keys :=
  .intro (fun _ he b ↦ h.key (List.mem_cons_of_mem _ he) b) fun _ _ hmem ↦ h.nested (List.mem_cons_of_mem _ hmem)

theorem lookup_snoc (data : LuaMap Number Userdata) (stack : Path Number) (k : LuaKey Number) :
    data.lookup (stack ++ [k]) = (data.tableAt stack).find k := lookup_append (List.cons_ne_nil _ _)

theorem writeLeaf_eq (htarget : Ordered target) (h : IsTableAt target stack t) :
    writeLeaf data (stack ++ [k]) k target = (leafIn (data.tableAt stack) k t).map (target.putTable stack) := by
  have hself := h.put_self htarget
  unfold writeLeaf leafIn
  cases hfind : t.find k with
  | some w =>
    rw [search_of_lookup (h.lookup_snoc.trans hfind), lookup_snoc]
    cases (data.tableAt stack).find k with
    | none => exact congrArg (fail missing) hself.symm
    | some v => exact congrArg done (h.modifyAt_snoc hfind)
  | none =>
    by_cases hstack : stack = []
    · subst hstack
      cases h
      have hfirst : data.lookup (List.take 1 [k]) = data.find k := rfl
      have hwhole : data.tableAt [] = data := rfl
      rw [List.nil_append, IsTableAt.search_top hfind, hfirst, hwhole]
      cases data.find k <;> rfl
    · rw [h.search_missing hstack hfind, lookup_snoc]
      cases (data.tableAt stack).find k with
      | none => exact congrArg (fail missing) hself.symm
      | some v => exact congrArg done (h.modifyAt_table hstack)

/-- Below what is no table nothing is written. -/
theorem writeLeaf_atom (h : IsTableAt target stack t) (hfind : t.find k = some w) (hw : ∀ t', w ≠ .table t') :
    writeLeaf data (stack ++ [k] ++ [k']) k' target =
      fail (if ((data.tableAt (stack ++ [k])).find k').isSome then badType else missing) target := by
  rw [writeLeaf, lookup_snoc, List.append_assoc, List.singleton_append, h.search_atom hfind hw (List.cons_ne_nil _ _)]
  cases (data.tableAt (stack ++ [k])).find k' with
  | none => rfl
  | some v =>
    cases w with
    | table t' => exact absurd rfl (hw t')
    | int | number | string | bool | function | userdata => rfl

theorem writeKeys_atom (htarget : Ordered target) (h : IsTableAt target stack t) (hfind : t.find k = some w)
    (hw : ∀ t', w ≠ .table t') (hkeys : NoBool keys) :
    writeKeys unset data (stack ++ [k]) target keys = ⟨atomError (data.tableAt (stack ++ [k])) keys, target⟩ := by
  induction keys with
  | nil =>
    rw [writeKeys]
    rfl
  | cons e es ih =>
    obtain ⟨k', v⟩ := e
    have hcast := castKey_of_ne (hkeys.key List.mem_cons_self) unset
    rw [writeKeys_cons, atomError]
    by_cases hflag : flag v = true
    · have hvalue : writeValue unset data (stack ++ [k]) target k' v =
          writeLeaf data (stack ++ [k] ++ [k']) k' target := by
        by_cases hleaf : IsLeaf v
        · rw [writeValue_leaf hleaf hflag, hcast]
        · obtain ⟨ks, rfl, hks⟩ := exists_of_not_isLeaf hleaf
          have hsearch := h.search_atom hfind hw (List.cons_ne_nil k' [])
          rw [writeValue, if_neg (by simpa using hks), hcast, List.append_assoc, List.singleton_append, hsearch]
      rw [hvalue, writeLeaf_atom h hfind hw, if_pos hflag]
      rfl
    · obtain rfl := eq_of_flag (Bool.eq_false_iff.mpr hflag)
      rw [if_neg hflag, writeValue_erase, hcast, List.append_assoc, List.singleton_append,
        h.eraseAt_atom htarget hfind hw (List.cons_ne_nil _ _)]
      exact ih hkeys.tail

theorem writeValue_eq (htarget : Ordered target) (h : IsTableAt target stack t) (hk : ∀ b, k ≠ .bool b)
    (hv : ∀ ks, v = .table ks → NoBool ks)
    (hnested : ∀ ks, v = .table ks → ∀ {stack t}, IsTableAt target stack t →
      writeKeys unset data stack target ks = (writeIn (data.tableAt stack) t ks).map (target.putTable stack)) :
    writeValue unset data stack target k v =
      (writeValueIn (data.tableAt stack) t k v).map (target.putTable stack) := by
  have hcast := castKey_of_ne hk unset
  have hself := h.put_self htarget
  by_cases hflag : flag v = true
  · by_cases hleaf : IsLeaf v
    · rw [writeValue_leaf hleaf hflag, writeValueIn_leaf hleaf hflag, hcast]
      exact writeLeaf_eq htarget h
    · obtain ⟨ks, rfl, hks⟩ := exists_of_not_isLeaf hleaf
      have hempty : ¬ks.isEmpty = true := by simpa using hks
      rw [writeValue, if_neg hempty, hcast]
      cases hfind : t.find k with
      | none =>
        have hsearch := search_of_lookup_none (h.lookup_snoc.trans hfind)
        rw [writeValueIn_missing hks hfind, ← writeLeaf_eq htarget h]
        split
        · next heq => rw [heq] at hsearch; cases hsearch
        · rfl
      | some w =>
        rw [search_of_lookup (h.lookup_snoc.trans hfind)]
        by_cases hw : ∀ t', w ≠ .table t'
        · rw [writeValueIn_atom hks hfind hw, ← tableAt_append]
          exact (writeKeys_atom htarget h hfind hw (hv ks rfl)).trans (congrArg (Written.mk _) hself.symm)
        · obtain ⟨t', rfl⟩ : ∃ t', w = .table t' := by simpa only [ne_eq, not_forall, not_not] using hw
          rw [writeValueIn_nested hks hfind]
          refine (hnested ks rfl (h.snoc hfind)).trans ?_
          rw [tableAt_append]
          exact congrArg (Written.mk _) (h.put_snoc _)
  · obtain rfl := eq_of_flag (Bool.eq_false_iff.mpr hflag)
    rw [writeValue_erase, writeValueIn_erase, hcast]
    exact congrArg done (h.eraseAt_snoc htarget)

theorem writeKeys_eq (hdata : Ordered data) (keys : LuaMap Number Userdata) :
    NoBool keys → ∀ {target : LuaMap Number Userdata} {stack : Path Number} {t : LuaMap Number Userdata},
      Ordered target → IsTableAt target stack t →
        writeKeys unset data stack target keys = (writeIn (data.tableAt stack) t keys).map (target.putTable stack) := by
  induction keys using entries_induction with
  | nil =>
    intro _ target stack t htarget h
    rw [writeKeys, writeIn]
    exact congrArg done (h.put_self htarget).symm
  | cons k v es hnested ih =>
    intro hkeys target stack t htarget h
    have hv : ∀ ks, v = .table ks → NoBool ks := by
      rintro ks rfl
      exact hkeys.nested List.mem_cons_self
    have hvalue := writeValue_eq (k := k) htarget h (hkeys.key List.mem_cons_self) hv fun ks hks ↦
      fun {_ _} hbelow ↦ hnested ks hks (hv ks hks) htarget hbelow
    have hordered := writeValueIn_ordered (k := k) (v := v) (hdata.of_tableAt stack) (h.ordered htarget) fun ks _ ↦
      fun {_ _} ↦ writeIn_ordered ks
    rw [writeKeys_cons, writeIn_cons, hvalue]
    generalize writeValueIn (data.tableAt stack) t k v = w at hordered
    obtain ⟨error, t'⟩ := w
    cases error with
    | some e => rfl
    | none =>
      refine (ih hkeys.tail (htarget.putTable hordered stack) (h.put t')).trans ?_
      exact congrArg (Written.mk _) (h.put_put _ _)

/-- Without Boolean keys the code writes what `writeIn` does. -/
theorem writeTableData_eq (hdata : Ordered data) (htarget : Ordered target) (hkeys : NoBool keys) (hnil : keys ≠ []) :
    writeTableData unset target keys data = writeIn data target keys := by
  rw [writeTableData, if_neg (by simpa using hnil)]
  exact writeKeys_eq hdata keys hkeys htarget (.here target)

end Refines

end Taiyi.TableData
