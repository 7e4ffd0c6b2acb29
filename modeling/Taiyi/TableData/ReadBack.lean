import Taiyi.TableData.WriteList

set_option autoImplicit false

namespace Taiyi.TableData

open Library Lua LuaMap Written

variable {Number Userdata : Type} [LinearOrder Number] {unset : ℤ} {keys target data t' : LuaMap Number Userdata}
  {k : LuaKey Number} {v : LuaTypes Number Userdata}

/-- The list of the paths that are not erased. -/
def unerased : LuaMap Number Userdata → LuaMap Number Userdata
  | [] => []
  | (k, .table ks) :: es =>
    if ks.isEmpty ∨ ¬(unerased ks).isEmpty then (k, .table (unerased ks)) :: unerased es else unerased es
  | (_, .bool false) :: es => unerased es
  | (k, v) :: es => (k, v) :: unerased es

omit [LinearOrder Number] in
theorem mem_unerased (hmem : (k, v) ∈ unerased keys) (hleaf : IsLeaf v) : (k, v) ∈ keys ∧ flag v = true := by
  induction keys using unerased.induct with
  | case1 => simp [unerased] at hmem
  | case2 key ks es hkept _ ih =>
    rw [unerased, if_pos hkept] at hmem
    obtain heq | hmem := List.mem_cons.mp hmem
    · obtain ⟨rfl, rfl⟩ := Prod.mk.inj heq
      have hnil := hleaf _ rfl
      have hks : ks = [] := by
        obtain hks | hks := hkept
        · simpa using hks
        · exact absurd (by simp [hnil]) hks
      rw [hnil, hks]
      exact ⟨List.mem_cons_self, rfl⟩
    · exact (ih hmem).imp_left (List.mem_cons_of_mem _)
  | case3 key ks es hdropped _ ih =>
    rw [unerased, if_neg hdropped] at hmem
    exact (ih hmem).imp_left (List.mem_cons_of_mem _)
  | case4 key es ih =>
    rw [unerased] at hmem
    exact (ih hmem).imp_left (List.mem_cons_of_mem _)
  | case5 key w es htable hbool ih =>
    rw [unerased] at hmem
    · obtain heq | hmem := List.mem_cons.mp hmem
      · obtain ⟨rfl, rfl⟩ := Prod.mk.inj heq
        refine ⟨List.mem_cons_self, ?_⟩
        cases hv : flag v with
        | true => rfl
        | false => exact absurd (eq_of_flag hv) hbool
      · exact (ih hmem).imp_left (List.mem_cons_of_mem _)
    · exact htable
    · exact hbool

/-- A list of single keys without bounds. -/
structure Flat (keys : LuaMap Number Userdata) : Prop where
  nonempty : keys ≠ []
  leaf : ∀ e ∈ keys, IsLeaf e.2
  start : bound keys "start" = none
  stop : bound keys "stop" = none

section Flat

theorem Flat.not_windowed (h : Flat keys) : ¬Windowed keys target k := by
  rintro ⟨i, v, -, -, hstop⟩
  rw [h.stop, Option.getD_none] at hstop
  omega

theorem Flat.isBound (h : Flat keys) (k : LuaKey Number) : isBound keys k = false := by
  simp [TableData.isBound, h.start, h.stop]

/-- Single keys are read where they should be. -/
theorem Flat.readsFlat (h : Flat keys) (hbool : ∀ e ∈ keys, ∀ b, e.1 ≠ LuaKey.bool b) : ReadsFlat keys target where
  casts
    | .listed hlisted => hbool _ hlisted.1 _ rfl
    | .window hwin => h.not_windowed hwin
    | .nested hlisted hks _ => hks (h.leaf _ hlisted.1 _ rfl)
  narrows
    | .nested hlisted hks _ => hks (h.leaf _ hlisted.1 _ rfl)
    | .start hbound _ => by
      rw [h.start] at hbound
      cases hbound
    | .stop hbound _ => by
      rw [h.stop] at hbound
      cases hbound
  whole _ hall := by
    obtain ⟨e, he⟩ := List.exists_mem_of_ne_nil keys h.nonempty
    have hbound := hall e he
    rw [h.isBound] at hbound
    cases hbound
  nested k ks hlisted hks := absurd (h.leaf _ hlisted.1 ks rfl) hks

theorem projects_of_places (h : Flat (unerased keys)) (hplaces : Places keys data t') {out : LuaMap Number Userdata}
    (hout : Projects (unerased keys) t' out) : Projects (unerased keys) data out := by
  -- a path starts with a listed key on either side, and there the table is as the data
  have hselects {m : LuaMap Number Userdata} {q : Path Number} (hq : Selects (unerased keys) m q) :
      ∃ k v, q = [k] ∧ Listed (unerased keys) k v ∧ IsLeaf v ∧ (m.find k).isSome := by
    generalize hks : unerased keys = ks at hq
    cases hq with
    | whole => exact absurd hks h.nonempty
    | leaf hlisted hleaf hsome => exact ⟨_, _, rfl, hks ▸ hlisted, hleaf, hsome⟩
    | window hwin => exact absurd (hks ▸ hwin) h.not_windowed
    | nested hlisted hne _ => exact absurd (h.leaf _ (hks ▸ hlisted.1) _ rfl) hne
  have hfind {k : LuaKey Number} {v : LuaTypes Number Userdata} (hlisted : Listed (unerased keys) k v)
      (hleaf : IsLeaf v) : t'.find k = data.find k := by
    obtain ⟨hmem, hflag⟩ := mem_unerased hlisted.1 hleaf
    exact ((hplaces [k]).1 (hflag ▸ .leaf hmem hleaf)).2
  intro path w hw
  rw [hout path w hw]
  constructor
  · rintro ⟨hlookup, q, ⟨rest, rfl⟩, hselect⟩
    obtain ⟨k, v, rfl, hlisted, hleaf, hsome⟩ := hselects hselect
    have heq := hfind hlisted hleaf
    rw [heq] at hsome
    exact ⟨(lookup_congr heq rest).symm.trans hlookup, [k], ⟨rest, rfl⟩, .leaf hlisted hleaf hsome⟩
  · rintro ⟨hlookup, q, ⟨rest, rfl⟩, hselect⟩
    obtain ⟨k, v, rfl, hlisted, hleaf, hsome⟩ := hselects hselect
    have heq := hfind hlisted hleaf
    rw [← heq] at hsome
    exact ⟨(lookup_congr heq rest).trans hlookup, [k], ⟨rest, rfl⟩, .leaf hlisted hleaf hsome⟩

/-- What was written by single keys is read back by them. -/
theorem readBack (unset : ℤ) (ht' : Ordered t') (hbool : NoBool keys) (h : Flat (unerased keys))
    (hplaces : Places keys data t') :
    ∃ out, readTableData unset t' (unerased keys) = .ok out ∧ Projects (unerased keys) data out := by
  have hflat : ReadsFlat (unerased keys) t' := h.readsFlat fun e he b ↦
    hbool.key (mem_unerased he (h.leaf e he)).1 b
  obtain ⟨out, hread, hout⟩ := readTableData_of_flat unset ht' hflat
  exact ⟨out, hread, projects_of_places h hplaces hout⟩

end Flat

end Taiyi.TableData
