import Mathlib.Order.Monotone.Basic
import Taiyi.TableData.ReadTable

set_option autoImplicit false

namespace Taiyi.TableData

open Library Library.Attempt Lua LuaMap

variable {Number Userdata : Type} [LinearOrder Number] {unset : ℤ} {target keys out : LuaMap Number Userdata}
  {k : LuaKey Number} {v : LuaTypes Number Userdata}

/-- A result gets the values of some keys of the stored table, and keeps what it has under the others. -/
def Adds (target out out' : LuaMap Number Userdata) (P : LuaKey Number → Prop) : Prop :=
  ∀ k, (P k → out'.find k = target.find k) ∧ (¬P k → out'.find k = out.find k)

section Adds

variable {out' out'' : LuaMap Number Userdata} {P Q : LuaKey Number → Prop}

theorem Adds.refl (hP : ∀ k, ¬P k) : Adds target out out P := fun k ↦ ⟨fun h ↦ absurd h (hP k), fun _ ↦ rfl⟩

theorem Adds.trans (h : Adds target out out' P) (h' : Adds target out' out'' Q) :
    Adds target out out'' fun k ↦ P k ∨ Q k := by
  intro k
  by_cases hQ : Q k
  · exact ⟨fun _ ↦ (h' k).1 hQ, fun hPQ ↦ absurd (.inr hQ) hPQ⟩
  · rw [(h' k).2 hQ]
    exact ⟨fun hPQ ↦ (h k).1 (hPQ.resolve_right hQ), fun hPQ ↦ (h k).2 fun hP ↦ hPQ (.inl hP)⟩

theorem Adds.congr (h : Adds target out out' P) (hPQ : ∀ k, P k ↔ Q k) : Adds target out out' Q :=
  fun k ↦ ⟨fun hQ ↦ (h k).1 ((hPQ k).mpr hQ), fun hQ ↦ (h k).2 fun hP ↦ hQ ((hPQ k).mp hP)⟩

/-- What agrees with the stored table still does. -/
theorem Adds.find_eq (h : Adds target out out' P) (hk : out.find k = target.find k) :
    out'.find k = target.find k := by
  by_cases hP : P k
  · exact (h k).1 hP
  · rw [(h k).2 hP, hk]

theorem adds_assign (hk : ∀ b, k ≠ .bool b) (hfind : target.find k = some v) :
    Adds target out (out.assign k v) (k = ·) := by
  intro key
  rw [find_assign]
  refine ⟨fun heq ↦ ?_, fun hne ↦ if_neg fun hnormal ↦ hne ((normal_eq_iff hk).mp hnormal)⟩
  rw [if_pos (congrArg LuaKey.normal heq), ← heq, hfind]

end Adds

theorem readWindow_cons {start stop : ℤ} {stack : Path Number} {entries : LuaMap Number Userdata} {index : ℕ} :
    readWindow unset target stack start stop ((k, v) :: entries) index out =
      (if start ≤ index ∧ index < stop then place target out (stack ++ [castKey unset k]) k v else .ok out) >>=
        fun out ↦ if stop ≤ index then .ok out
          else readWindow unset target stack start stop entries (index + 1) out := by
  rw [readWindow]
  split <;> rfl

theorem readKeys_cons {skip : LuaKey Number → Bool} {stack : Path Number}
    {e : LuaKey Number × LuaTypes Number Userdata} {es : LuaMap Number Userdata} :
    readKeys unset target skip stack out (e :: es) =
      (if skip e.1 then .ok out else readKey unset target stack out e) >>=
        fun out ↦ readKeys unset target skip stack out es := by
  rw [readKeys]
  split <;> rfl

theorem readValue_leaf {stack : Path Number} (hleaf : IsLeaf v) :
    readValue unset target stack out k v = readLeaf target (stack ++ [castKey unset k]) out k := by
  cases v with
  | table ks => rw [readValue, if_pos (by simpa using hleaf ks rfl)]
  | int | number | string | bool | function | userdata =>
    rw [readValue]
    rintro _ ⟨⟩

/-- At the top a value goes under its own key. -/
theorem place_top (hfind : target.find k = some v) : place target out [k] k v = .ok (out.assign k v) := by
  cases hout : out.find k with
  | none =>
    have hsearch : out.searchInTable [k] = (false, none) := by rw [searchInTable, hout]
    rw [place, hsearch]
    simp only [List.take_succ_cons, List.take_zero, lookup_singleton, hfind]
  | some w =>
    rw [place, search_of_lookup (lookup_singleton.trans hout)]
    simp only [modifyAt, hout, List.isEmpty_nil, if_true]

theorem readWindow_top (unset : ℤ) (htarget : Ordered target) (start stop : ℤ) (entries : LuaMap Number Userdata) (index : ℕ)
    (h : Ordered out)
    (hentries : ∀ (j : ℕ) (k : LuaKey Number) (v : LuaTypes Number Userdata), entries[j]? = some (k, v) →
      start ≤ (index + j : ℕ) → (index + j : ℕ) < stop → (∀ b, k ≠ .bool b) ∧ target.find k = some v) :
    ∃ out', readWindow unset target [] start stop entries index out = .ok out' ∧ Ordered out' ∧
      Adds target out out' fun key ↦
        ∃ (j : ℕ) (v : LuaTypes Number Userdata), entries[j]? = some (key, v) ∧
          start ≤ (index + j : ℕ) ∧ (index + j : ℕ) < stop := by
  induction entries generalizing index out with
  | nil => exact ⟨out, rfl, h, Adds.refl fun k ⟨j, v, hj, _⟩ ↦ by simp at hj⟩
  | cons e entries ih =>
    obtain ⟨k, v⟩ := e
    have hshift (j : ℕ) : index + (j + 1) = index + 1 + j := by omega
    -- the entry of this turn
    obtain ⟨out₁, hhead, h₁, hadds₁⟩ : ∃ out₁,
        (if start ≤ index ∧ index < stop then place target out ([] ++ [castKey unset k]) k v else .ok out) = .ok out₁ ∧
          Ordered out₁ ∧ Adds target out out₁ fun key ↦ key = k ∧ start ≤ index ∧ index < stop := by
      split
      · next hin =>
        obtain ⟨hk, hfind⟩ := hentries 0 k v rfl hin.1 hin.2
        rw [castKey_of_ne hk, List.nil_append, place_top hfind]
        refine ⟨_, rfl, h.assign fun t ht ↦ htarget.of_find (ht ▸ hfind), ?_⟩
        exact (adds_assign hk hfind).congr fun key ↦ ⟨fun heq ↦ ⟨heq.symm, hin⟩, fun heq ↦ heq.1.symm⟩
      · next hin => exact ⟨out, rfl, h, Adds.refl fun _ hk ↦ hin hk.2⟩
    rw [readWindow_cons, hhead, ok_bind]
    split
    · next hstop =>
      refine ⟨out₁, rfl, h₁, hadds₁.congr fun key ↦ iff_of_false (fun hk ↦ by omega) ?_⟩
      rintro ⟨j, v, -, -, hj⟩
      omega
    · obtain ⟨out', hrest, h', hadds'⟩ := ih (index + 1) h₁ fun j k v hj ↦ by
        rw [← hshift]
        exact hentries (j + 1) k v hj
      refine ⟨out', hrest, h', (hadds₁.trans hadds').congr fun key ↦ ⟨?_, ?_⟩⟩
      · rintro (⟨rfl, hin⟩ | ⟨j, w, hj, hin⟩)
        · exact ⟨0, v, rfl, hin⟩
        · exact ⟨j + 1, w, hj, by rwa [hshift]⟩
      · rintro ⟨_ | j, w, hj, hin⟩
        · cases hj
          exact .inl ⟨rfl, hin⟩
        · exact .inr ⟨j, w, hj, by rwa [← hshift]⟩

theorem lookup_congr {m m' : LuaMap Number Userdata} (h : m.find k = m'.find k) (path : Path Number) :
    m.lookup (k :: path) = m'.lookup (k :: path) := by
  simp only [LuaMap.lookup, LuaMap.below, h]

/-- What a list of keys asks for that the code reads where it should be. -/
structure ReadsFlat (keys target : LuaMap Number Userdata) : Prop where
  casts : ¬Casts keys target
  narrows : ¬Narrows keys
  /-- A window from zero to zero is no window. -/
  whole : keys ≠ [] → (∀ e ∈ keys, isBound keys e.1 = true) → (bound keys "start").getD 0 = 0 →
    (bound keys "stop").getD 0 = 0 → target = []
  /-- What stands below a key is in the result with the key already. -/
  nested : ∀ k ks, Listed keys k (.table ks) → ks ≠ [] →
    Windowed keys target k ∨ ∀ path, ¬Selects ks (target.below k) path

theorem openWindow_top (unset : ℤ) (htarget : Ordered target) (hflat : ReadsFlat keys target) :
    ∃ out, openWindow unset target keys [] [] = .ok out ∧ Ordered out ∧
      Adds target [] out (Windowed keys target) := by
  obtain ⟨out, hout, h, hadds⟩ := readWindow_top unset htarget ((bound keys "start").getD 0)
    ((bound keys "stop").getD 0) target 0 ordered_nil fun j k v hj hstart hstop ↦ by
      rw [Nat.zero_add] at hstart hstop
      refine ⟨?_, htarget.find_of_mem (List.mem_of_getElem? hj)⟩
      rintro b rfl
      exact hflat.casts (.window ⟨j, v, hj, hstart, hstop⟩)
  simp only [Nat.zero_add] at hadds
  unfold openWindow
  rw [bound32_start hflat.narrows, bound32_stop hflat.narrows]
  split
  · next hzero =>
    refine ⟨[], rfl, ordered_nil, Adds.refl ?_⟩
    rintro k ⟨i, v, -, -, hstop⟩
    omega
  · exact ⟨out, hout, h, hadds⟩

theorem readLeaf_top (htarget : Ordered target) (h : Ordered out) (hk : ∀ b, k ≠ .bool b) :
    ∃ out', readLeaf target [k] out k = .ok out' ∧ Ordered out' ∧
      Adds target out out' fun key ↦ key = k ∧ (target.find k).isSome := by
  unfold readLeaf
  rw [lookup_singleton]
  cases hfind : target.find k with
  | none => exact ⟨out, rfl, h, Adds.refl fun _ hkey ↦ by simp at hkey⟩
  | some v =>
    refine ⟨_, place_top hfind, h.assign fun t ht ↦ htarget.of_find (ht ▸ hfind), ?_⟩
    exact (adds_assign hk hfind).congr fun key ↦ ⟨fun heq ↦ ⟨heq.symm, rfl⟩, fun heq ↦ heq.1.symm⟩

/-- One turn of the loop over the keys at the top. -/
theorem readValue_top (unset : ℤ) (htarget : Ordered target) (hflat : ReadsFlat keys target) (h : Ordered out)
    (hwindow : Windowed keys target k → out.find k = target.find k) (hlisted : Listed keys k v) :
    ∃ out', readValue unset target [] out k v = .ok out' ∧ Ordered out' ∧
      Adds target out out' fun key ↦ key = k ∧ IsLeaf v ∧ (target.find k).isSome := by
  have hk : ∀ b, k ≠ .bool b := by
    rintro b rfl
    exact hflat.casts (.listed hlisted)
  by_cases hleaf : IsLeaf v
  · obtain ⟨out', hout, h', hadds⟩ := readLeaf_top htarget h hk
    refine ⟨out', ?_, h', hadds.congr fun key ↦ by simp only [hleaf, true_and]⟩
    rw [readValue_leaf hleaf, castKey_of_ne hk]
    exact hout
  · obtain ⟨ks, rfl, hks⟩ := exists_of_not_isLeaf hleaf
    refine ⟨out, ?_, h, Adds.refl fun key hkey ↦ hleaf hkey.2.1⟩
    refine readValue_quiet htarget h unset [] k _ ⟨hk, fun hl ↦ absurd hl hleaf, ?_, ?_, ?_⟩
    · rintro _ ⟨⟩ - path hpath
      obtain hwin | hnone := hflat.nested k ks hlisted hks
      · exact lookup_congr (hwindow hwin) path
      · exact absurd hpath (hnone path)
    · rintro _ ⟨⟩ - hcasts
      exact hflat.casts (.nested hlisted hks hcasts)
    · rintro _ ⟨⟩ - hnarrows
      exact hflat.narrows (.nested hlisted hks hnarrows)

/-- The values of the keys that are listed with none below, on top of what the window has copied. -/
theorem readKeys_top (unset : ℤ) (htarget : Ordered target) (hflat : ReadsFlat keys target)
    (es : LuaMap Number Userdata) (hes : ∀ e ∈ es, e ∈ keys) (h : Ordered out)
    (hwindow : ∀ k, Windowed keys target k → out.find k = target.find k) :
    ∃ out', readKeys unset target (isBound keys) [] out es = .ok out' ∧ Ordered out' ∧
      Adds target out out' fun k ↦ ∃ v, (k, v) ∈ es ∧ isBound keys k = false ∧ IsLeaf v ∧ (target.find k).isSome := by
  induction es generalizing out with
  | nil => exact ⟨out, by rw [readKeys], h, Adds.refl fun k ⟨v, hv, _⟩ ↦ absurd hv List.not_mem_nil⟩
  | cons e es ih =>
    obtain ⟨k, v⟩ := e
    obtain ⟨out₁, hhead, h₁, hadds₁⟩ : ∃ out₁,
        (if isBound keys k then .ok out else readKey unset target [] out (k, v)) = .ok out₁ ∧ Ordered out₁ ∧
          Adds target out out₁ fun key ↦ key = k ∧ isBound keys k = false ∧ IsLeaf v ∧ (target.find k).isSome := by
      split
      · next hskip => exact ⟨out, rfl, h, Adds.refl fun _ hkey ↦ by simp [hskip] at hkey⟩
      · next hskip =>
        have hskip : isBound keys k = false := by simpa using hskip
        rw [readKey]
        obtain ⟨out₁, hout, h₁, hadds⟩ := readValue_top unset htarget hflat h (hwindow k)
          ⟨hes _ List.mem_cons_self, hskip⟩
        exact ⟨out₁, hout, h₁, hadds.congr fun key ↦ by simp only [hskip, true_and]⟩
    obtain ⟨out', htail, h', hadds'⟩ := ih (fun e he ↦ hes e (List.mem_cons_of_mem _ he)) h₁ fun key hkey ↦
      hadds₁.find_eq (hwindow key hkey)
    refine ⟨out', ?_, h', (hadds₁.trans hadds').congr fun key ↦ ?_⟩
    · rw [readKeys_cons, hhead]
      exact htail
    · simp only [List.mem_cons, Prod.mk.injEq]
      constructor
      · rintro (⟨rfl, hrest⟩ | ⟨w, hw, hrest⟩)
        · exact ⟨v, .inl ⟨rfl, rfl⟩, hrest⟩
        · exact ⟨w, .inr hw, hrest⟩
      · rintro ⟨w, ⟨rfl, rfl⟩ | hw, hrest⟩
        · exact .inl ⟨rfl, hrest⟩
        · exact .inr ⟨w, hw, hrest⟩

/-- What the first key of a path tells of a result. -/
theorem projects_of_adds (hflat : ReadsFlat keys target) (hkeys : keys ≠ [])
    (hadds : Adds target [] out fun k ↦
      Windowed keys target k ∨ ∃ v, (k, v) ∈ keys ∧ isBound keys k = false ∧ IsLeaf v ∧ (target.find k).isSome) :
    Projects keys target out := by
  intro path v hv
  cases path with
  | nil => exact iff_of_false nofun fun h ↦ nomatch h.1
  | cons k path =>
    constructor
    · intro hout
      by_cases hk : Windowed keys target k ∨
          ∃ v, (k, v) ∈ keys ∧ isBound keys k = false ∧ IsLeaf v ∧ (target.find k).isSome
      · rw [lookup_congr ((hadds k).1 hk)] at hout
        refine ⟨hout, [k], by simp, ?_⟩
        obtain hwin | ⟨w, hw, hbound, hleaf, hsome⟩ := hk
        · exact .window hwin
        · exact .leaf ⟨hw, hbound⟩ hleaf hsome
      · rw [lookup_congr ((hadds k).2 hk), lookup_nil_table] at hout
        cases hout
    · rintro ⟨htarget, q, hq, hselects⟩
      suffices hk : Windowed keys target k ∨
          ∃ v, (k, v) ∈ keys ∧ isBound keys k = false ∧ IsLeaf v ∧ (target.find k).isSome by
        rw [lookup_congr ((hadds k).1 hk)]
        exact htarget
      cases hselects with
      | whole => exact absurd rfl hkeys
      | leaf hlisted hleaf hsome =>
        obtain ⟨rfl, -⟩ := List.cons_prefix_cons.mp hq
        exact .inr ⟨_, hlisted.1, hlisted.2, hleaf, hsome⟩
      | window hwin =>
        obtain ⟨rfl, -⟩ := List.cons_prefix_cons.mp hq
        exact .inl hwin
      | nested hlisted hks hbelow =>
        obtain ⟨rfl, -⟩ := List.cons_prefix_cons.mp hq
        obtain hwin | hnone := hflat.nested _ _ hlisted hks
        · exact .inl hwin
        · exact absurd hbelow (hnone _)

theorem projects_whole (target : LuaMap Number Userdata) : Projects [] target target := by
  intro path v _
  refine ⟨fun h ↦ ⟨h, ?_⟩, fun h ↦ h.1⟩
  cases path with
  | nil => cases h
  | cons k path =>
    refine ⟨[k], by simp, .whole ?_⟩
    cases hfind : target.find k with
    | some w => rfl
    | none =>
      have hnil := lookup_congr (hfind.trans (find_nil (k := k)).symm) path
      rw [h, lookup_nil_table] at hnil
      cases hnil

theorem readTableData_adds (unset : ℤ) (htarget : Ordered target) (hflat : ReadsFlat keys target) (hkeys : keys ≠ []) :
    ∃ out, readTableData unset target keys = .ok out ∧ Adds target [] out fun k ↦
      Windowed keys target k ∨ ∃ v, (k, v) ∈ keys ∧ isBound keys k = false ∧ IsLeaf v ∧ (target.find k).isSome := by
  obtain ⟨out₁, hwindow, h₁, hadds₁⟩ := openWindow_top unset htarget hflat
  obtain ⟨out₂, hread, -, hadds₂⟩ := readKeys_top unset htarget hflat keys (fun _ he ↦ he) h₁ fun k hk ↦ (hadds₁ k).1 hk
  unfold readTableData
  rw [hwindow, ok_bind, hread, ok_bind, bound32_start hflat.narrows, bound32_stop hflat.narrows]
  split
  · next hwhole =>
    obtain rfl := hflat.whole hkeys (List.all_eq_true.mp hwhole.1) hwhole.2.1 hwhole.2.2
    exact ⟨[], rfl, fun k ↦ ⟨fun _ ↦ rfl, fun _ ↦ rfl⟩⟩
  · exact ⟨out₂, rfl, hadds₁.trans hadds₂⟩

theorem readTableData_of_flat (unset : ℤ) (htarget : Ordered target) (hflat : ReadsFlat keys target) :
    ∃ out, readTableData unset target keys = .ok out ∧ Projects keys target out := by
  by_cases hnil : keys = []
  · subst hnil
    obtain ⟨out₁, hwindow, -, -⟩ := openWindow_top unset htarget hflat
    unfold readTableData
    rw [hwindow, ok_bind, readKeys, ok_bind]
    exact ⟨target, rfl, projects_whole target⟩
  · obtain ⟨out, hout, hadds⟩ := readTableData_adds unset htarget hflat hnil
    exact ⟨out, hout, projects_of_adds hflat hnil hadds⟩

/-! Paging. -/

/-- The keys that ask for one page. -/
def page (start stop : ℤ) : LuaMap Number Userdata :=
  [(.string "start", .int start), (.string "stop", .int stop)]

section Page

variable {start stop : ℤ} {cuts : ℕ → ℕ} {n : ℕ}

theorem bound_start_page : bound (page start stop : LuaMap Number Userdata) "start" = some start := by
  have hfind : (page start stop : LuaMap Number Userdata).find (.string "start") = some (.int start) := by
    rw [LuaMap.find, page, OrderedMap.find_cons, if_pos (OrderedMap.equiv_refl _)]
  rw [bound, hfind]

theorem bound_stop_page : bound (page start stop : LuaMap Number Userdata) "stop" = some stop := by
  have hfind : (page start stop : LuaMap Number Userdata).find (.string "stop") = some (.int stop) := by
    rw [LuaMap.find, page, OrderedMap.find_cons, if_neg (by rw [LuaKey.equiv_lt_iff]; simp [LuaKey.normal]),
      OrderedMap.find_cons, if_pos (OrderedMap.equiv_refl _)]
  rw [bound, hfind]

theorem windowed_page_iff :
    Windowed (page start stop) target k ↔ InWindow start stop target k := by
  rw [Windowed, bound_start_page, bound_stop_page]
  rfl

/-- An entry of a page has its value on it. -/
theorem readTableData_page (unset : ℤ) (htarget : Ordered target) (hflat : ReadsFlat (page start stop) target) :
    ∃ out, readTableData unset target (page start stop) = .ok out ∧
      ∀ k v, (k, v) ∈ target → (out.find k = some v ↔ InWindow start stop target k) := by
  obtain ⟨out, hout, hadds⟩ := readTableData_adds unset htarget hflat (List.cons_ne_nil _ _)
  refine ⟨out, hout, fun k v hmem ↦ ?_⟩
  have hnone : ¬∃ v, (k, v) ∈ (page start stop : LuaMap Number Userdata) ∧
      isBound (page start stop : LuaMap Number Userdata) k = false ∧ IsLeaf v ∧ (target.find k).isSome := by
    rintro ⟨w, hw, hbound, -⟩
    simp only [page, List.mem_cons, Prod.mk.injEq, List.not_mem_nil, or_false] at hw
    obtain ⟨rfl, -⟩ | ⟨rfl, -⟩ := hw
    · simp [isBound, bound_start_page] at hbound
    · simp [isBound, bound_stop_page] at hbound
  rw [← windowed_page_iff]
  constructor
  · intro hfind
    by_contra hwin
    rw [(hadds k).2 (not_or.mpr ⟨hwin, hnone⟩)] at hfind
    cases hfind
  · intro hwin
    rw [(hadds k).1 (.inl hwin)]
    exact htarget.find_of_mem hmem

/-- Consecutive pages have each place on one of them. -/
theorem existsUnique_page (hmono : Monotone cuts) (hzero : cuts 0 = 0) {i : ℕ} (hi : i < cuts n) :
    ∃! p, p < n ∧ cuts p ≤ i ∧ i < cuts (p + 1) := by
  have hexists : ∃ p, p < n ∧ cuts p ≤ i ∧ i < cuts (p + 1) := by
    induction n with
    | zero => omega
    | succ n ih =>
      by_cases hn : i < cuts n
      · obtain ⟨p, hp, hin⟩ := ih hn
        exact ⟨p, by omega, hin⟩
      · exact ⟨n, by omega, by omega, hi⟩
  obtain ⟨p, hp, hstart, hstop⟩ := hexists
  refine ⟨p, ⟨hp, hstart, hstop⟩, fun q ⟨_, hq, hq'⟩ ↦ ?_⟩
  obtain hlt | rfl | hlt := lt_trichotomy q p
  · have := hmono (show q + 1 ≤ p from hlt)
    omega
  · rfl
  · have := hmono (show p + 1 ≤ q from hlt)
    omega

/-- A key stands at one place of a table. -/
theorem index_unique (htarget : Ordered target) {i j : ℕ} {w : LuaTypes Number Userdata}
    (hi : target[i]? = some (k, v)) (hj : target[j]? = some (k, w)) : i = j := by
  obtain ⟨hilt, hi⟩ := List.getElem?_eq_some_iff.mp hi
  obtain ⟨hjlt, hj⟩ := List.getElem?_eq_some_iff.mp hj
  have hirrefl : ¬LuaKey.lt k k = true := by cases k <;> simp [LuaKey.lt]
  obtain hlt | heq | hlt := lt_trichotomy i j
  · have hsorted := List.pairwise_iff_getElem.mp htarget.sorted i j hilt hjlt hlt
    rw [hi, hj] at hsorted
    exact absurd hsorted hirrefl
  · exact heq
  · have hsorted := List.pairwise_iff_getElem.mp htarget.sorted j i hjlt hilt hlt
    rw [hi, hj] at hsorted
    exact absurd hsorted hirrefl

/-- Consecutive pages have each entry on one of them. -/
theorem existsUnique_inWindow (htarget : Ordered target) (hmono : Monotone cuts) (hzero : cuts 0 = 0)
    (hlength : target.length ≤ cuts n) (hmem : (k, v) ∈ target) :
    ∃! p, p < n ∧ InWindow (cuts p : ℤ) (cuts (p + 1) : ℤ) target k := by
  obtain ⟨i, hi⟩ := List.getElem?_of_mem hmem
  have hilt : i < cuts n := lt_of_lt_of_le (List.getElem?_eq_some_iff.mp hi).1 hlength
  have hiff (p : ℕ) : InWindow (cuts p : ℤ) (cuts (p + 1) : ℤ) target k ↔ cuts p ≤ i ∧ i < cuts (p + 1) := by
    constructor
    · rintro ⟨j, w, hj, hstart, hstop⟩
      obtain rfl := index_unique htarget hi hj
      omega
    · rintro ⟨hstart, hstop⟩
      exact ⟨i, v, hi, by omega, by omega⟩
  simp only [hiff]
  exact existsUnique_page hmono hzero hilt

end Page

end Taiyi.TableData
