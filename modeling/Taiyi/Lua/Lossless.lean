import Taiyi.Lua.Vm

set_option autoImplicit false

namespace Taiyi.Lua

open Library Library.Attempt

variable {Number Userdata : Type} {coerce : Coercions Number}

namespace LuaKey

variable [LinearOrder Number]

/-- The order and the equality of the keys tell the same ones apart, but for the Booleans. -/
theorem equiv_eq_iff (a b : LuaKey Number) :
    OrderedMap.equiv lt a b = eq a b ↔ ¬∃ p q, a = .bool p ∧ b = .bool q := by
  cases a <;> cases b
  case bool.bool => simp [OrderedMap.equiv, lt, eq]
  case int.int | number.number | string.string =>
    refine iff_of_true (Bool.eq_iff_iff.mpr ?_) (by simp)
    rw [equiv_lt_iff]
    simp [normal, eq]
  all_goals simp [OrderedMap.equiv, lt, eq, which]

theorem of_eq {a b : LuaKey Number} (h : eq a b = true) : a = b := by
  cases a <;> cases b <;> simp_all [eq]

theorem lt_irrefl (a : LuaKey Number) : ¬lt a a = true := by cases a <;> simp [lt]

end LuaKey

/-- The key of the VM that a key is pushed as. -/
def LuaKey.vmKey : LuaKey Number → VmKey Number
  | .int v => .int v
  | .number v => .float v
  | .string v => .string v
  | .bool v => .bool v

theorem LuaKey.vmKey_injective : Function.Injective (vmKey : LuaKey Number → VmKey Number) := by
  intro a b h
  cases a <;> cases b <;> cases h <;> rfl

/-- A number that is no integer to the VM. -/
def Fractional (coerce : Coercions Number) (k : LuaKey Number) : Prop :=
  ∀ x, k = .number x → coerce.toInteger x = none

namespace VmKey

theorem read_of_fractional {a : LuaKey Number} (h : Fractional coerce a) : a.vmKey.read coerce = some a := by
  cases a with
  | number x => simp [read, LuaKey.vmKey, value, VmValue.readInt, VmValue.readNumber, h x rfl]
  | int | string | bool => rfl

theorem ofValue_of_fractional {a : LuaKey Number} (h : Fractional coerce a) :
    ofValue coerce (pushKey a : VmValue Number Userdata) = a.vmKey := by
  cases a with
  | number x => simp [ofValue, pushKey, LuaKey.vmKey, h x rfl]
  | int | string | bool => rfl

theorem read_isSome (coerce : Coercions Number) {k : VmKey Number} (h : k ≠ .object) : (k.read coerce).isSome := by
  cases k with
  | float x =>
    simp only [read, value, VmValue.readInt, VmValue.readNumber]
    cases coerce.toInteger x <;> rfl
  | int | string | bool => rfl
  | object => exact absurd rfl h

theorem fractional_of_read {k : VmKey Number} {a : LuaKey Number} (h : k.read coerce = some a) :
    Fractional coerce a := by
  rintro x rfl
  cases k with
  | float y =>
    simp only [read, value, VmValue.readInt, VmValue.readNumber] at h
    cases hy : coerce.toInteger y with
    | none =>
      rw [hy] at h
      cases h
      exact hy
    | some n =>
      rw [hy] at h
      cases h
  | int | string | bool | object => cases h

theorem eq_vmKey_of_read {k : VmKey Number} {a : LuaKey Number} (h : k.read coerce = some a)
    (hk : ∀ x, k = .float x → coerce.toInteger x = none) : k = a.vmKey := by
  cases k with
  | float y =>
    simp only [read, value, VmValue.readInt, VmValue.readNumber, hk y rfl] at h
    cases h
    rfl
  | int | string | bool =>
    cases h
    rfl
  | object => cases h

end VmKey

section Read

variable [LinearOrder Number] {next : VmTable Number Userdata → VmTable Number Userdata} {depth : ℕ}
  {entries : VmTable Number Userdata} {m : LuaMap Number Userdata}
  {l : List (LuaKey Number × LuaTypes Number Userdata)}

/-- What an entry of a table is read as. -/
def readEntry (coerce : Coercions Number) (next : VmTable Number Userdata → VmTable Number Userdata) (depth : ℕ)
    (e : VmKey Number × VmValue Number Userdata) : Option (LuaKey Number × LuaTypes Number Userdata) := do
  let key ← e.1.read coerce
  let value ← e.2.readTypes coerce (readMap coerce next depth)
  return (key, value)

theorem readEntry_eq_some {e : VmKey Number × VmValue Number Userdata}
    {b : LuaKey Number × LuaTypes Number Userdata} : readEntry coerce next depth e = some b ↔
      e.1.read coerce = some b.1 ∧ e.2.readTypes coerce (readMap coerce next depth) = some b.2 := by
  unfold readEntry
  cases e.1.read coerce <;> cases e.2.readTypes coerce (readMap coerce next depth) <;> simp [Prod.ext_iff]

/-- A map gets the entries in the order in which they are read. -/
def fill (l : List (LuaKey Number × LuaTypes Number Userdata)) : LuaMap Number Userdata :=
  l.foldl (fun m e ↦ OrderedMap.insert LuaKey.lt m e.1 e.2) []

theorem readMap_succ : readMap coerce next (depth + 1) entries =
    ((next entries).mapM (readEntry coerce next depth)).map fill := by
  refine Eq.trans ?_ (foldlM_eq_mapM
    (fun (m : LuaMap Number Userdata) (b : LuaKey Number × LuaTypes Number Userdata) ↦
      OrderedMap.insert LuaKey.lt m b.1 b.2) (next entries) [])
  rw [readMap]
  refine congrArg (fun step ↦ List.foldlM step [] (next entries)) ?_
  funext m e
  unfold readEntry
  cases e.1.read coerce <;> cases e.2.readTypes coerce (readMap coerce next depth) <;> rfl

theorem readMap_of_entries (hnext : ∀ es, (next es).Perm es) (h : entries.mapM (readEntry coerce next depth) = some l) :
    ∃ l', l'.Perm l ∧ readMap coerce next (depth + 1) entries = some (fill l') := by
  obtain ⟨l', hl', hperm⟩ := mapM_perm (hnext entries) h
  refine ⟨l', hperm, ?_⟩
  rw [readMap_succ, hl']
  rfl

theorem fill_sorted (l : List (LuaKey Number × LuaTypes Number Userdata)) : OrderedMap.Sorted LuaKey.lt (fill l) :=
  OrderedMap.sorted_fill l List.Pairwise.nil

theorem fill_perm (h : OrderedMap.Apart LuaKey.lt l) : (fill l).Perm l := by
  have hperm := OrderedMap.perm_fill h (m := []) fun _ _ ↦ OrderedMap.find_nil
  rwa [List.append_nil] at hperm

/-- The keys of a table are apart, and no float among them is an integer to the VM. -/
structure WellFormed (coerce : Coercions Number) (entries : VmTable Number Userdata) : Prop where
  nodup : (entries.map Prod.fst).Nodup
  floats : ∀ e ∈ entries, ∀ x, e.1 = .float x → coerce.toInteger x = none

/-- Both Booleans are keys of a table. -/
def BothBools (entries : VmTable Number Userdata) : Prop :=
  VmKey.bool true ∈ entries.map Prod.fst ∧ VmKey.bool false ∈ entries.map Prod.fst

theorem keys_of_entries (hw : WellFormed coerce entries) (h : entries.mapM (readEntry coerce next depth) = some l) :
    l.map (fun e ↦ e.1.vmKey) = entries.map Prod.fst := by
  have hall := mapM_some_iff.mp h
  have hfloats := hw.floats
  clear h hw
  induction hall with
  | nil => rfl
  | @cons e b es bs he _ ih =>
    have hkey := VmKey.eq_vmKey_of_read (readEntry_eq_some.mp he).1 (hfloats e List.mem_cons_self)
    rw [List.map_cons, List.map_cons, ih fun e' he' ↦ hfloats e' (List.mem_cons_of_mem _ he'), hkey]

/-- The entries of a table are apart as entries of a map unless both Booleans are keys. -/
theorem apart_iff (hw : WellFormed coerce entries) (h : entries.mapM (readEntry coerce next depth) = some l) :
    OrderedMap.Apart LuaKey.lt l ↔ ¬BothBools entries := by
  have hkeys := keys_of_entries hw h
  have hmem (b : Bool) (hb : VmKey.bool b ∈ entries.map Prod.fst) : ∃ v, (LuaKey.bool b, v) ∈ l := by
    rw [← hkeys] at hb
    obtain ⟨⟨a, v⟩, he, heq⟩ := List.mem_map.mp hb
    obtain rfl : a = .bool b := LuaKey.vmKey_injective heq
    exact ⟨v, he⟩
  have hback (b : Bool) {e : LuaKey Number × LuaTypes Number Userdata} (he : e ∈ l) (hb : e.1 = .bool b) :
      VmKey.bool b ∈ entries.map Prod.fst := by
    rw [← hkeys]
    exact List.mem_map.mpr ⟨e, he, by rw [hb]; rfl⟩
  have hnodup : l.Pairwise fun e e' ↦ e.1 ≠ e'.1 := by
    have hn := hw.nodup
    rw [← hkeys] at hn
    exact (List.pairwise_map.mp hn).imp fun hne heq ↦ hne (congrArg LuaKey.vmKey heq)
  constructor
  · rintro hapart ⟨htrue, hfalse⟩
    obtain ⟨v, hv⟩ := hmem true htrue
    obtain ⟨w, hw⟩ := hmem false hfalse
    have hne : ((LuaKey.bool true : LuaKey Number), v) ≠ (LuaKey.bool false, w) := nofun
    exact hapart.ne hv hw hne rfl
  · intro hboth
    refine hnodup.imp_of_mem fun {e e'} he he' hne heq ↦ ?_
    rw [LuaKey.equiv_lt_iff] at heq
    by_cases hbool : ∃ p q, e.1 = .bool p ∧ e'.1 = .bool q
    · obtain ⟨p, q, hp, hq⟩ := hbool
      have hpq : p ≠ q := fun h ↦ hne (by rw [hp, hq, h])
      cases p <;> cases q
      case false.true => exact hboth ⟨hback true he' hq, hback false he hp⟩
      case true.false => exact hboth ⟨hback true he hp, hback false he' hq⟩
      all_goals exact hpq rfl
    · refine hne ?_
      have heq' := (LuaKey.equiv_eq_iff e.1 e'.1).mpr hbool
      rw [Bool.eq_iff_iff, LuaKey.equiv_lt_iff] at heq'
      exact LuaKey.of_eq (heq'.mp heq)

/-- A table is read with one entry for each key unless both Booleans are keys. -/
theorem readMap_keeps_iff (hnext : ∀ es, (next es).Perm es) (hw : WellFormed coerce entries)
    (hkeys : ∀ e ∈ entries, e.1 ≠ .object)
    (hvalues : ∀ e ∈ entries, (e.2.readTypes coerce (readMap coerce next depth)).isSome) :
    ∃ m l, readMap coerce next (depth + 1) entries = some m ∧ entries.mapM (readEntry coerce next depth) = some l ∧
      (m.Perm l ↔ ¬BothBools entries) := by
  have hsome : ∀ e ∈ entries, (readEntry coerce next depth e).isSome := by
    intro e he
    obtain ⟨v, hv⟩ := Option.isSome_iff_exists.mp (hvalues e he)
    obtain ⟨k, hk⟩ := Option.isSome_iff_exists.mp (VmKey.read_isSome coerce (hkeys e he))
    exact Option.isSome_of_eq_some (readEntry_eq_some (b := (k, v)).mpr ⟨hk, hv⟩)
  obtain ⟨l, hl⟩ := Option.isSome_iff_exists.mp (mapM_isSome.mpr hsome)
  obtain ⟨l', hperm, hread⟩ := readMap_of_entries hnext hl
  refine ⟨fill l', l, hread, hl, ?_⟩
  rw [← apart_iff hw hl]
  constructor
  · intro h
    exact (fill_sorted l').apart.perm h
  · intro hapart
    exact (fill_perm (hapart.perm hperm.symm)).trans hperm

end Read

/-! What can be stored: what a reader has read. -/

mutual

/-- The function summaries in a map, at any depth. -/
def summaries : LuaMap Number Userdata → ℕ
  | [] => 0
  | e :: es => entrySummaries e + summaries es
  termination_by structural l => l

def entrySummaries : LuaKey Number × LuaTypes Number Userdata → ℕ
  | (_, v) => valueSummaries v
  termination_by structural e => e

def valueSummaries : LuaTypes Number Userdata → ℕ
  | .table m => summaries m
  | .function _ _ => 1
  | .int _ | .number _ | .string _ | .bool _ | .userdata _ => 0
  termination_by structural v => v

end

theorem valueSummaries_of_mem {m : LuaMap Number Userdata} (h : summaries m = 0)
    {e : LuaKey Number × LuaTypes Number Userdata} (he : e ∈ m) : valueSummaries e.2 = 0 := by
  induction m with
  | nil => exact absurd he List.not_mem_nil
  | cons e' m ih =>
    obtain ⟨k, v⟩ := e'
    rw [summaries, entrySummaries] at h
    obtain rfl | he := List.mem_cons.mp he
    · dsimp only
      omega
    · exact ih (by omega) he

section Store

variable [LinearOrder Number] {next : VmTable Number Userdata → VmTable Number Userdata} {depth : ℕ}
  {entries : VmTable Number Userdata} {m : LuaMap Number Userdata}

/-- A map in order whose numbers are no integers to the VM, of at most so many tables in one another. -/
def Storable (coerce : Coercions Number) : ℕ → LuaMap Number Userdata → Prop
  | 0, _ => False
  | depth + 1, m => OrderedMap.Sorted LuaKey.lt m ∧ ∀ e ∈ m, Fractional coerce e.1 ∧
      (∀ x, e.2 = .number x → coerce.toInteger x = none) ∧ ∀ t, e.2 = .table t → Storable coerce depth t

theorem mem_of_mem_fill {l : List (LuaKey Number × LuaTypes Number Userdata)}
    {e : LuaKey Number × LuaTypes Number Userdata} (he : e ∈ fill l) : e ∈ l :=
  (OrderedMap.mem_of_mem_fill he).resolve_right List.not_mem_nil

omit [LinearOrder Number] in
theorem readTypes_number {readTable : VmTable Number Userdata → Option (LuaMap Number Userdata)}
    {v : VmValue Number Userdata} {x : Number} (h : v.readTypes coerce readTable = some (.number x)) :
    coerce.toInteger x = none := by
  cases v with
  | float y =>
    simp only [VmValue.readTypes, VmValue.readInt, VmValue.readNumber] at h
    cases hy : coerce.toInteger y with
    | none =>
      rw [hy] at h
      cases h
      exact hy
    | some n =>
      rw [hy] at h
      cases h
  | table es =>
    cases hes : readTable es <;> simp [VmValue.readTypes, VmValue.readInt, VmValue.readNumber, VmValue.readString,
      VmValue.readBool, VmValue.readFunction, VmValue.readUserdata, hes] at h
  | function summary => cases summary <;> cases h
  | int | string | bool | userdata | other => cases h

omit [LinearOrder Number] in
theorem readTypes_table {readTable : VmTable Number Userdata → Option (LuaMap Number Userdata)}
    {v : VmValue Number Userdata} {t : LuaMap Number Userdata} (h : v.readTypes coerce readTable = some (.table t)) :
    ∃ es, readTable es = some t := by
  cases v with
  | table es =>
    cases hes : readTable es <;> simp [VmValue.readTypes, VmValue.readInt, VmValue.readNumber, VmValue.readString,
      VmValue.readBool, VmValue.readFunction, VmValue.readUserdata, hes] at h
    exact ⟨es, h ▸ hes⟩
  | float y =>
    simp only [VmValue.readTypes, VmValue.readInt, VmValue.readNumber] at h
    cases hy : coerce.toInteger y <;> rw [hy] at h <;> cases h
  | function summary => cases summary <;> cases h
  | int | string | bool | userdata | other => cases h

theorem storable_of_readMap (h : readMap coerce next depth entries = some m) : Storable coerce depth m := by
  induction depth generalizing entries m with
  | zero => cases h
  | succ depth ih =>
    rw [readMap_succ] at h
    obtain ⟨l, hl, rfl⟩ := Option.map_eq_some_iff.mp h
    refine ⟨fill_sorted l, fun e he ↦ ?_⟩
    obtain ⟨e', -, he'⟩ := exists_of_mem_mapM hl (mem_of_mem_fill he)
    obtain ⟨hkey, hvalue⟩ := readEntry_eq_some.mp he'
    refine ⟨VmKey.fractional_of_read hkey, fun x hx ↦ ?_, fun t ht ↦ ?_⟩
    · rw [hx] at hvalue
      exact readTypes_number hvalue
    · rw [ht] at hvalue
      obtain ⟨es, hes⟩ := readTypes_table hvalue
      exact ih hes

end Store

end Taiyi.Lua
