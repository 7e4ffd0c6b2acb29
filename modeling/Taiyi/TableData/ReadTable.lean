import Taiyi.Library.Attempt
import Taiyi.Library.Words
import Taiyi.Lua.Paths

set_option autoImplicit false

namespace Taiyi.TableData

open Library Library.Attempt Library.Words Lua LuaMap

variable {Number Userdata : Type} [LinearOrder Number]

/-- `cast_to_lua_types`, of which the default is an integer that nothing has set. -/
def castKey (unset : ℤ) : LuaKey Number → LuaKey Number
  | .bool _ => .int unset
  | k => k

/-- The bound of a window that a list of keys holds under its name. -/
def bound (keys : LuaMap Number Userdata) (name : String) : Option ℤ :=
  match keys.find (.string name) with
  | some (.int v) => some v
  | _ => none

/-- The bounds of the window are erased from the keys. -/
def isBound (keys : LuaMap Number Userdata) (k : LuaKey Number) : Bool :=
  k = .string "start" ∧ (bound keys "start").isSome ∨ k = .string "stop" ∧ (bound keys "stop").isSome

/-- A bound in a `uint32_t`. -/
def bound32 (keys : LuaMap Number Userdata) (name : String) : ℤ := toUnsigned 32 ((bound keys name).getD 0)

/-- Where a value that was found goes in the result. -/
def place (target out : LuaMap Number Userdata) (stack : Path Number) (key : LuaKey Number)
    (value : LuaTypes Number Userdata) : Except String (LuaMap Number Userdata) :=
  match out.searchInTable stack with
  | (true, _) => .ok (out.modifyAt (fun _ ↦ value) stack)
  | (false, some (path, .table t)) => .ok (out.modifyAt (fun _ ↦ .table (LuaMap.assign t key value)) path)
  | (false, some _) => .error "bad type"
  | (false, none) =>
    -- the value of the first key on the path goes under the last one
    match target.lookup (stack.take 1) with
    | some first => .ok (out.assign key first)
    | none => .error "failed in write_table_data while path in data is not exist"

/-- The loop over the entries of the table that the window is opened on. -/
def readWindow (unset : ℤ) (target : LuaMap Number Userdata) (stack : Path Number) (start stop : ℤ) :
    LuaMap Number Userdata → ℕ → LuaMap Number Userdata → Except String (LuaMap Number Userdata)
  | [], _, out => .ok out
  | (k, v) :: entries, index, out => do
    let out ← if start ≤ index ∧ index < stop then place target out (stack ++ [castKey unset k]) k v else .ok out
    if stop ≤ index then return out else readWindow unset target stack start stop entries (index + 1) out

def openWindow (unset : ℤ) (target keys : LuaMap Number Userdata) (stack : Path Number)
    (out : LuaMap Number Userdata) : Except String (LuaMap Number Userdata) :=
  if bound32 keys "start" = 0 ∧ bound32 keys "stop" = 0 then .ok out
  else
    let table :=
      if stack.isEmpty then target
      else match target.lookup stack with
        | some (.table t) => t
        | _ => []
    readWindow unset target stack (bound32 keys "start") (bound32 keys "stop") table 0 out

/-- A key with no keys below it. -/
def readLeaf (target : LuaMap Number Userdata) (stack : Path Number) (out : LuaMap Number Userdata)
    (key : LuaKey Number) : Except String (LuaMap Number Userdata) :=
  match target.lookup stack with
  | some value => place target out stack key value
  | none => .ok out

mutual

/-- The loop over the keys, of which `skip` says which were erased. -/
def readKeys (unset : ℤ) (target : LuaMap Number Userdata) (skip : LuaKey Number → Bool) (stack : Path Number)
    (out : LuaMap Number Userdata) : LuaMap Number Userdata → Except String (LuaMap Number Userdata)
  | [] => .ok out
  | e :: es => do
    let out ← if skip e.1 then .ok out else readKey unset target stack out e
    readKeys unset target skip stack out es
  termination_by structural l => l

def readKey (unset : ℤ) (target : LuaMap Number Userdata) (stack : Path Number) (out : LuaMap Number Userdata) :
    LuaKey Number × LuaTypes Number Userdata → Except String (LuaMap Number Userdata)
  | (key, value) => readValue unset target stack out key value
  termination_by structural e => e

def readValue (unset : ℤ) (target : LuaMap Number Userdata) (stack : Path Number) (out : LuaMap Number Userdata)
    (key : LuaKey Number) : LuaTypes Number Userdata → Except String (LuaMap Number Userdata)
  | .table keys =>
    if keys.isEmpty then readLeaf target (stack ++ [castKey unset key]) out key
    else do
      -- the call for the keys below
      let stack := stack ++ [castKey unset key]
      let out ← openWindow unset target keys stack out
      readKeys unset target (isBound keys) stack out keys
  | _ => readLeaf target (stack ++ [castKey unset key]) out key
  termination_by structural v => v

end

def readTableData (unset : ℤ) (target keys : LuaMap Number Userdata) : Except String (LuaMap Number Userdata) := do
  let out ← openWindow unset target keys [] []
  let out ← readKeys unset target (isBound keys) [] out keys
  if keys.all (fun e ↦ isBound keys e.1) ∧ bound32 keys "start" = 0 ∧ bound32 keys "stop" = 0 then
    return target
  else return out

/-! What a list of keys asks for. -/

/-- A key with no keys below it. -/
def IsLeaf (v : LuaTypes Number Userdata) : Prop := ∀ ks, v = .table ks → ks = []

/-- The entries at these places of a table, from the first bound on and before the second. -/
def InWindow (start stop : ℤ) (table : LuaMap Number Userdata) (k : LuaKey Number) : Prop :=
  ∃ (i : ℕ) (v : LuaTypes Number Userdata), table[i]? = some (k, v) ∧ start ≤ i ∧ i < stop

/-- The entries that the window of a list of keys selects, over the integers. -/
def Windowed (keys table : LuaMap Number Userdata) (k : LuaKey Number) : Prop :=
  InWindow ((bound keys "start").getD 0) ((bound keys "stop").getD 0) table k

/-- A key that is listed, and is no bound. -/
def Listed (keys : LuaMap Number Userdata) (k : LuaKey Number) (v : LuaTypes Number Userdata) : Prop :=
  (k, v) ∈ keys ∧ isBound keys k = false

/-- The paths that a list of keys selects in a table. -/
inductive Selects : LuaMap Number Userdata → LuaMap Number Userdata → Path Number → Prop
  | whole {table : LuaMap Number Userdata} {k : LuaKey Number} : (table.find k).isSome → Selects [] table [k]
  | leaf {keys table : LuaMap Number Userdata} {k : LuaKey Number} {v : LuaTypes Number Userdata} :
      Listed keys k v → IsLeaf v → (table.find k).isSome → Selects keys table [k]
  | window {keys table : LuaMap Number Userdata} {k : LuaKey Number} :
      Windowed keys table k → Selects keys table [k]
  | nested {keys table ks : LuaMap Number Userdata} {k : LuaKey Number} {path : Path Number} :
      Listed keys k (.table ks) → ks ≠ [] → Selects ks (table.below k) path → Selects keys table (k :: path)

/-- What holds no other entries. -/
def Atom (v : LuaTypes Number Userdata) : Prop := ∀ t, v = .table t → t = []

/-- A result has the values at and below the paths that are selected, and nothing else. -/
def Projects (keys target out : LuaMap Number Userdata) : Prop :=
  ∀ path v, Atom v →
    (out.lookup path = some v ↔ target.lookup path = some v ∧ ∃ q, q <+: path ∧ Selects keys target q)

/-- A Boolean key is listed or selected, so that it is cast. -/
inductive Casts : LuaMap Number Userdata → LuaMap Number Userdata → Prop
  | listed {keys table : LuaMap Number Userdata} {b : Bool} {v : LuaTypes Number Userdata} :
      Listed keys (.bool b) v → Casts keys table
  | window {keys table : LuaMap Number Userdata} {b : Bool} : Windowed keys table (.bool b) → Casts keys table
  | nested {keys table ks : LuaMap Number Userdata} {k : LuaKey Number} :
      Listed keys k (.table ks) → ks ≠ [] → Casts ks (table.below k) → Casts keys table

/-- A bound has no place in 32 bits. -/
inductive Narrows : LuaMap Number Userdata → Prop
  | start {keys : LuaMap Number Userdata} {v : ℤ} :
      bound keys "start" = some v → ¬(0 ≤ v ∧ v < 2 ^ 32) → Narrows keys
  | stop {keys : LuaMap Number Userdata} {v : ℤ} :
      bound keys "stop" = some v → ¬(0 ≤ v ∧ v < 2 ^ 32) → Narrows keys
  | nested {keys ks : LuaMap Number Userdata} {k : LuaKey Number} :
      Listed keys k (.table ks) → ks ≠ [] → Narrows ks → Narrows keys

section Settled

variable {unset start stop : ℤ} {keys target out : LuaMap Number Userdata} {stack : Path Number}
  {k : LuaKey Number} {v : LuaTypes Number Userdata}

omit [LinearOrder Number] in
theorem exists_of_not_isLeaf (h : ¬IsLeaf v) : ∃ ks, v = .table ks ∧ ks ≠ [] := by
  simpa only [IsLeaf, not_forall, exists_prop] using h

omit [LinearOrder Number] in
theorem castKey_of_ne (h : ∀ b, k ≠ .bool b) (unset : ℤ) : castKey unset k = k := by
  cases k with
  | bool b => exact absurd rfl (h b)
  | int | number | string => rfl

omit [LinearOrder Number] in
theorem normal_eq_iff {key : LuaKey Number} (h : ∀ b, k ≠ .bool b) : k.normal = key.normal ↔ k = key := by
  cases k with
  | bool b => exact absurd rfl (h b)
  | int | number | string => cases key <;> simp [LuaKey.normal]

theorem bound32_eq {name : String} (h : ∀ v, bound keys name = some v → 0 ≤ v ∧ v < 2 ^ 32) :
    bound32 keys name = (bound keys name).getD 0 := by
  unfold bound32
  cases hb : bound keys name with
  | none => rfl
  | some v => exact toUnsigned_of_lt (h v hb).1 (h v hb).2

theorem bound32_start (h : ¬Narrows keys) : bound32 keys "start" = (bound keys "start").getD 0 :=
  bound32_eq fun _ hb ↦ not_not.mp fun hv ↦ h (.start hb hv)

theorem bound32_stop (h : ¬Narrows keys) : bound32 keys "stop" = (bound keys "stop").getD 0 :=
  bound32_eq fun _ hb ↦ not_not.mp fun hv ↦ h (.stop hb hv)

/-- What is there already is left as it is. -/
theorem place_of_lookup (h : Ordered out) (hout : out.lookup stack = some v) :
    place target out stack k v = .ok out := by
  rw [place, search_of_lookup hout]
  exact congrArg Except.ok (modifyAt_of_lookup h hout rfl)

theorem readWindow_quiet (h : Ordered out) (entries : LuaMap Number Userdata) (index : ℕ)
    (hentries : ∀ (j : ℕ) (k : LuaKey Number) (v : LuaTypes Number Userdata), entries[j]? = some (k, v) →
      start ≤ (index + j : ℕ) → (index + j : ℕ) < stop →
        castKey unset k = k ∧ out.lookup (stack ++ [k]) = some v) :
    readWindow unset target stack start stop entries index out = .ok out := by
  induction entries generalizing index with
  | nil => rfl
  | cons e entries ih =>
    obtain ⟨k, v⟩ := e
    have htail : (if stop ≤ index then .ok out
        else readWindow unset target stack start stop entries (index + 1) out) = .ok out := by
      split
      · rfl
      · refine ih (index + 1) fun j k v hj ↦ ?_
        have hindex : index + 1 + j = index + (j + 1) := by omega
        rw [hindex]
        exact hentries (j + 1) k v hj
    rw [readWindow]
    split
    · next hin =>
      obtain ⟨hcast, hlookup⟩ := hentries 0 k v rfl hin.1 hin.2
      rw [hcast, place_of_lookup h hlookup]
      exact htail
    · exact htail

/-- All that the keys select at a place is in the result already. -/
def Held (target out keys : LuaMap Number Userdata) (stack : Path Number) : Prop :=
  ∀ q, Selects keys (target.tableAt stack) q → out.lookup (stack ++ q) = target.lookup (stack ++ q)

theorem Held.below {ks : LuaMap Number Userdata} (h : Held target out keys stack) (hlisted : Listed keys k (.table ks))
    (hks : ks ≠ []) : Held target out ks (stack ++ [k]) := by
  intro q hq
  rw [tableAt_append] at hq
  rw [List.append_assoc]
  exact h (k :: q) (.nested hlisted hks hq)

theorem openWindow_quiet (htarget : Ordered target) (h : Ordered out) (hstack : stack ≠ [])
    (hheld : Held target out keys stack) (hcasts : ¬Casts keys (target.tableAt stack)) (hnarrows : ¬Narrows keys) :
    openWindow unset target keys stack out = .ok out := by
  unfold openWindow
  split
  · rfl
  · rw [if_neg (by simpa using hstack)]
    refine (congrArg (readWindow unset target stack _ _ · 0 out) (tableAt_eq hstack).symm).trans ?_
    refine readWindow_quiet h _ 0 fun j k v hj hstart hstop ↦ ?_
    rw [bound32_start hnarrows, Nat.zero_add] at hstart
    rw [bound32_stop hnarrows, Nat.zero_add] at hstop
    have hwindow : Windowed keys (target.tableAt stack) k := ⟨j, v, hj, hstart, hstop⟩
    refine ⟨castKey_of_ne (fun b hb ↦ hcasts (.window (hb ▸ hwindow))) unset, ?_⟩
    rw [hheld [k] (.window hwindow), lookup_append (List.cons_ne_nil _ _), lookup_singleton]
    exact (htarget.of_tableAt stack).find_of_mem (List.mem_of_getElem? hj)

theorem readLeaf_quiet (h : Ordered out) (hlookup : ∀ v, target.lookup stack = some v → out.lookup stack = some v) :
    readLeaf target stack out k = .ok out := by
  unfold readLeaf
  split
  · next v hv => exact place_of_lookup h (hlookup v hv)
  · rfl

/-- What makes one key leave the result as it is. -/
structure Settled (target out : LuaMap Number Userdata) (stack : Path Number) (k : LuaKey Number)
    (v : LuaTypes Number Userdata) : Prop where
  key : ∀ b, k ≠ .bool b
  leaf : IsLeaf v → ∀ w, target.lookup (stack ++ [k]) = some w → out.lookup (stack ++ [k]) = some w
  held : ∀ ks, v = .table ks → ks ≠ [] → Held target out ks (stack ++ [k])
  casts : ∀ ks, v = .table ks → ks ≠ [] → ¬Casts ks (target.tableAt (stack ++ [k]))
  narrows : ∀ ks, v = .table ks → ks ≠ [] → ¬Narrows ks

theorem settled_of_held (hheld : Held target out keys stack) (hcasts : ¬Casts keys (target.tableAt stack))
    (hnarrows : ¬Narrows keys) (hlisted : Listed keys k v) : Settled target out stack k v where
  key b hb := hcasts (.listed (hb ▸ hlisted))
  leaf hleaf w hw := by
    have hfind : ((target.tableAt stack).find k).isSome := by
      rw [lookup_append (List.cons_ne_nil _ _), lookup_singleton] at hw
      rw [hw]
      rfl
    rw [hheld [k] (.leaf hlisted hleaf hfind)]
    exact hw
  held ks hv hks := hheld.below (hv ▸ hlisted) hks
  casts ks hv hks hcast := by
    rw [tableAt_append] at hcast
    exact hcasts (.nested (hv ▸ hlisted) hks hcast)
  narrows ks hv hks hnarrow := hnarrows (.nested (hv ▸ hlisted) hks hnarrow)

mutual

/-- Keys of which all that they select is there already leave the result as it is. -/
theorem readKeys_quiet (htarget : Ordered target) (h : Ordered out) (unset : ℤ) (skip : LuaKey Number → Bool)
    (stack : Path Number) (es : LuaMap Number Userdata)
    (hes : ∀ e ∈ es, skip e.1 = false → Settled target out stack e.1 e.2) :
    readKeys unset target skip stack out es = .ok out := by
  match es with
  | [] => rw [readKeys]
  | e :: es =>
    have htail := readKeys_quiet htarget h unset skip stack es fun e' he' ↦ hes e' (List.mem_cons_of_mem _ he')
    rw [readKeys]
    split
    · exact htail
    · next hskip =>
      rw [readKey_quiet htarget h unset stack e (hes e List.mem_cons_self (by simpa using hskip))]
      exact htail
  termination_by structural es

theorem readKey_quiet (htarget : Ordered target) (h : Ordered out) (unset : ℤ) (stack : Path Number)
    (e : LuaKey Number × LuaTypes Number Userdata) (he : Settled target out stack e.1 e.2) :
    readKey unset target stack out e = .ok out := by
  match e with
  | (k, v) =>
    rw [readKey]
    exact readValue_quiet htarget h unset stack k v he
  termination_by structural e

theorem readValue_quiet (htarget : Ordered target) (h : Ordered out) (unset : ℤ) (stack : Path Number)
    (k : LuaKey Number) (v : LuaTypes Number Userdata) (he : Settled target out stack k v) :
    readValue unset target stack out k v = .ok out := by
  have hcast := castKey_of_ne he.key unset
  match v with
  | .table ks =>
    rw [readValue, hcast]
    by_cases hks : ks = []
    · rw [if_pos (by simpa using hks)]
      exact readLeaf_quiet h (he.leaf fun ks' heq ↦ by cases heq; exact hks)
    · rw [if_neg (by simpa using hks)]
      have hheld := he.held ks rfl hks
      have hcasts := he.casts ks rfl hks
      have hnarrows := he.narrows ks rfl hks
      dsimp only
      rw [openWindow_quiet htarget h (by simp) hheld hcasts hnarrows]
      exact readKeys_quiet htarget h unset (isBound ks) (stack ++ [k]) ks fun e' he' hskip ↦
        settled_of_held hheld hcasts hnarrows ⟨he', hskip⟩
  | .int _ | .number _ | .string _ | .bool _ | .function .. | .userdata _ =>
    rw [readValue, hcast]
    · exact readLeaf_quiet h (he.leaf (by rintro _ ⟨⟩))
    · rintro _ ⟨⟩
  termination_by structural v

end

end Settled

end Taiyi.TableData
