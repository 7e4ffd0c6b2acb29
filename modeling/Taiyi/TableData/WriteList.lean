import Taiyi.TableData.Projection
import Taiyi.TableData.WriteTable

set_option autoImplicit false

namespace Taiyi.TableData

open Library Lua LuaMap Written

variable {Number Userdata : Type} [LinearOrder Number] {unset : ℤ}
  {keys ks target data d t t' : LuaMap Number Userdata} {k : LuaKey Number} {v : LuaTypes Number Userdata}
  {p : Path Number} {b : Bool}

/-- The paths that a list of keys names, to be written or else to be erased. -/
inductive Lists : LuaMap Number Userdata → Path Number → Bool → Prop
  | leaf {keys : LuaMap Number Userdata} {k : LuaKey Number} {v : LuaTypes Number Userdata} :
      (k, v) ∈ keys → IsLeaf v → Lists keys [k] (flag v)
  | nested {keys ks : LuaMap Number Userdata} {k : LuaKey Number} {p : Path Number} {b : Bool} :
      (k, LuaTypes.table ks) ∈ keys → ks ≠ [] → Lists ks p b → Lists keys (k :: p) b

/-- What is listed is as in the data, or is gone. -/
def Places (keys data t' : LuaMap Number Userdata) : Prop :=
  ∀ p, (Lists keys p true → (data.lookup p).isSome ∧ t'.lookup p = data.lookup p) ∧
    (Lists keys p false → t'.lookup p = none)

/-- A table stays a table, any other value stays, and only a table comes where nothing was. -/
def Remains : Option (LuaTypes Number Userdata) → Option (LuaTypes Number Userdata) → Prop
  | some (.table _), new => ∃ t, new = some (.table t)
  | none, new => ∀ w, new = some w → ∃ t, w = .table t
  | some v, new => new = some v

/-- What is neither listed nor below a listed path stays, with the value it has unless the path is
on the way to a listed one. -/
def Frames (keys t t' : LuaMap Number Userdata) : Prop :=
  ∀ p, (∀ q b, Lists keys q b → ¬q <+: p) →
    Remains (t.lookup p) (t'.lookup p) ∧ ((∀ q b, Lists keys q b → ¬p <+: q) → t'.lookup p = t.lookup p)

/-- What a call does with its list. -/
def Writes (keys target data : LuaMap Number Userdata) (w : Written Number Userdata) : Prop :=
  match w.error with
  | none => Places keys data w.table ∧ Frames keys target w.table
  | some _ => w.table = target

/-- A table of the data holds the listed paths and no others. -/
inductive Covered : LuaMap Number Userdata → LuaMap Number Userdata → Prop
  | intro {keys d : LuaMap Number Userdata} :
      (∀ k v, (k, v) ∈ keys → IsLeaf v → (d.find k).isSome = flag v) →
      (∀ k ks, (k, LuaTypes.table ks) ∈ keys → ks ≠ [] → d.find k = some (.table (d.below k))) →
      (∀ k ks, (k, LuaTypes.table ks) ∈ keys → ks ≠ [] → Covered ks (d.below k)) →
      (∀ k, (d.find k).isSome → ∃ v, (k, v) ∈ keys) → Covered keys d

/-- The listed paths are in the data, and stand on tables or can be copied with all of the table of the
data that they stand on. -/
inductive Meets : LuaMap Number Userdata → LuaMap Number Userdata → LuaMap Number Userdata → Prop
  | intro {keys t d : LuaMap Number Userdata} :
      (∀ k v, (k, v) ∈ keys → IsLeaf v → flag v = true → (d.find k).isSome) →
      (∀ k ks, (k, LuaTypes.table ks) ∈ keys → ks ≠ [] → t.find k = none →
        d.find k = some (.table (d.below k)) ∧ Covered ks (d.below k)) →
      (∀ k ks w, (k, LuaTypes.table ks) ∈ keys → ks ≠ [] → t.find k = some w → (∀ t', w ≠ .table t') →
        ∀ e ∈ ks, flag e.2 = false) →
      (∀ k ks t', (k, LuaTypes.table ks) ∈ keys → ks ≠ [] → t.find k = some (.table t') → Meets ks t' (d.below k)) →
      Meets keys t d

section Entries

omit [LinearOrder Number] in
theorem Remains.refl (old : Option (LuaTypes Number Userdata)) : Remains old old := by
  match old with
  | none => exact nofun
  | some (.table t) => exact ⟨t, rfl⟩
  | some (.int _) | some (.number _) | some (.string _) | some (.bool _) | some (.function ..) | some (.userdata _) => rfl

omit [LinearOrder Number] in
theorem Lists.ne_nil (h : Lists keys p b) : p ≠ [] := by
  cases h <;> exact List.cons_ne_nil _ _

omit [LinearOrder Number] in
/-- Every list names a path. -/
theorem exists_lists (keys : LuaMap Number Userdata) : keys ≠ [] → ∃ q b, Lists keys q b := by
  induction keys using entries_induction with
  | nil => exact fun h ↦ absurd rfl h
  | cons k v es hnested ih =>
    intro _
    by_cases hleaf : IsLeaf v
    · exact ⟨[k], flag v, .leaf List.mem_cons_self hleaf⟩
    · obtain ⟨ks, rfl, hks⟩ := exists_of_not_isLeaf hleaf
      obtain ⟨q, b, hq⟩ := hnested ks rfl hks
      exact ⟨k :: q, b, .nested List.mem_cons_self hks hq⟩

/-- What a call does with one key of its list. -/
structure EntryDone (d t t' : LuaMap Number Userdata) (k : LuaKey Number) (v : LuaTypes Number Userdata) : Prop where
  leaf : IsLeaf v → t'.find k = (if flag v then d.find k else none) ∧ (flag v = true → (d.find k).isSome)
  nested : ∀ ks, v = .table ks → ks ≠ [] →
    Places ks (d.below k) (t'.below k) ∧ Frames ks (t.below k) (t'.below k) ∧ Remains (t.find k) (t'.find k)

theorem places_of_entries (hdone : ∀ k v, (k, v) ∈ keys → EntryDone d t t' k v) : Places keys d t' := by
  refine fun p ↦ ⟨fun h ↦ ?_, fun h ↦ ?_⟩
  · generalize hb : true = b at h
    cases h with
    | leaf hmem hleaf =>
      obtain ⟨hfind, hsome⟩ := (hdone _ _ hmem).leaf hleaf
      rw [← hb, if_pos rfl] at hfind
      exact ⟨(hsome hb.symm).trans hb, hfind⟩
    | nested hmem hks hp =>
      subst hb
      rw [lookup_cons hp.ne_nil, lookup_cons hp.ne_nil]
      exact (((hdone _ _ hmem).nested _ rfl hks).1 _).1 hp
  · generalize hb : false = b at h
    cases h with
    | leaf hmem hleaf =>
      obtain ⟨hfind, -⟩ := (hdone _ _ hmem).leaf hleaf
      rw [← hb, if_neg Bool.false_ne_true] at hfind
      exact hfind
    | nested hmem hks hp =>
      subst hb
      rw [lookup_cons hp.ne_nil]
      exact (((hdone _ _ hmem).nested _ rfl hks).1 _).2 hp

theorem frames_of_entries (hdone : ∀ k v, (k, v) ∈ keys → EntryDone d t t' k v)
    (hothers : ∀ k, (∀ v, (k, v) ∉ keys) → t'.find k = t.find k) : Frames keys t t' := by
  intro p hp
  cases p with
  | nil => exact ⟨Remains.refl none, fun _ ↦ rfl⟩
  | cons k p =>
    by_cases hlisted : ∃ v, (k, v) ∈ keys
    · obtain ⟨v, hmem⟩ := hlisted
      by_cases hleaf : IsLeaf v
      · exact absurd (by simp) (hp [k] _ (.leaf hmem hleaf))
      · obtain ⟨ks, rfl, hks⟩ := exists_of_not_isLeaf hleaf
        obtain ⟨-, hframes, hremains⟩ := (hdone k _ hmem).nested ks rfl hks
        by_cases hnil : p = []
        · subst hnil
          obtain ⟨q, b, hq⟩ := exists_lists ks hks
          refine ⟨hremains, fun hext ↦ absurd ?_ (hext (k :: q) b (.nested hmem hks hq))⟩
          simp
        · have hbelow := hframes p fun q b hq hprefix ↦
            hp (k :: q) b (.nested hmem hks hq) (List.cons_prefix_cons.mpr ⟨rfl, hprefix⟩)
          rw [lookup_cons hnil, lookup_cons hnil]
          refine ⟨hbelow.1, fun hext ↦ hbelow.2 fun q b hq hprefix ↦ ?_⟩
          exact hext (k :: q) b (.nested hmem hks hq) (List.cons_prefix_cons.mpr ⟨rfl, hprefix⟩)
    · have hfind := lookup_congr (hothers k (not_exists.mp hlisted)) p
      rw [hfind]
      exact ⟨Remains.refl _, fun _ ↦ rfl⟩

/-- A table of the data that holds the listed paths and no others is right where there was none. -/
theorem Covered.done (h : Covered keys d) : Places keys d d ∧ Frames keys [] d := by
  induction h with
  | @intro keys d hleaf htable _ hcovers ih =>
    have hdone : ∀ k v, (k, v) ∈ keys → EntryDone d [] d k v := by
      intro k v hmem
      constructor
      · intro hl
        have hsome := hleaf k v hmem hl
        cases hfind : d.find k with
        | none =>
          rw [hfind] at hsome
          rw [← hsome]
          exact ⟨rfl, nofun⟩
        | some w =>
          rw [hfind] at hsome
          rw [← hsome]
          exact ⟨rfl, fun _ ↦ rfl⟩
      · rintro ks rfl hks
        refine ⟨(ih k ks hmem hks).1, (ih k ks hmem hks).2, fun w hw ↦ ⟨d.below k, ?_⟩⟩
        rw [htable k ks hmem hks] at hw
        exact (Option.some.inj hw).symm
    refine ⟨places_of_entries hdone, frames_of_entries hdone fun k hk ↦ ?_⟩
    by_contra hfind
    obtain ⟨v, hmem⟩ := hcovers k (Option.ne_none_iff_isSome.mp hfind)
    exact hk v hmem

/-- Keys that are all to be erased leave what is no table as it is. -/
theorem done_of_flags (hflags : ∀ e ∈ keys, flag e.2 = false) : Places keys d [] ∧ Frames keys [] [] := by
  refine ⟨fun p ↦ ⟨fun h ↦ ?_, fun _ ↦ lookup_nil_table⟩, fun p _ ↦ ⟨Remains.refl _, fun _ ↦ rfl⟩⟩
  generalize hb : true = b at h
  cases h with
  | leaf hmem _ =>
    rw [hflags _ hmem] at hb
    cases hb
  | nested hmem _ _ => exact absurd (hflags _ hmem) nofun

theorem atomError_of_flags (hflags : ∀ e ∈ keys, flag e.2 = false) : atomError d keys = none := by
  induction keys with
  | nil => rfl
  | cons e es ih =>
    rw [atomError, if_neg (by rw [hflags e List.mem_cons_self]; exact Bool.false_ne_true)]
    exact ih fun e' he' ↦ hflags e' (List.mem_cons_of_mem _ he')

/-- One turn of the loop: the table that the turn starts from is like the first one under its key. -/
theorem writeValueIn_meets {t₁ : LuaMap Number Userdata} (h : Meets keys t d) (hmem : (k, v) ∈ keys)
    (hk : ∀ b, k ≠ .bool b) (ht₁ : t₁.find k = t.find k)
    (hnested : ∀ ks t', v = .table ks → ks ≠ [] → t.find k = some (.table t') →
      ∃ t'', writeIn (d.below k) t' ks = done t'' ∧ Places ks (d.below k) t'' ∧ Frames ks t' t'') :
    ∃ t', writeValueIn d t₁ k v = done t' ∧ EntryDone d t t' k v ∧ ∀ key, k ≠ key → t'.find key = t₁.find key := by
  obtain ⟨hleaf, hnone, hatom, -⟩ := h
  have hassign (w : LuaTypes Number Userdata) (key : LuaKey Number) (hkey : k ≠ key) :
      (t₁.assign k w).find key = t₁.find key := by
    rw [find_assign, if_neg fun heq ↦ hkey ((normal_eq_iff hk).mp heq)]
  by_cases hflag : flag v = true
  · by_cases hl : IsLeaf v
    · obtain ⟨w, hw⟩ := Option.isSome_iff_exists.mp (hleaf k v hmem hl hflag)
      rw [writeValueIn_leaf hl hflag, leafIn, hw]
      refine ⟨_, rfl, ⟨fun _ ↦ ?_, ?_⟩, hassign w⟩
      · rw [find_assign_self, if_pos hflag, hw]
        exact ⟨rfl, fun _ ↦ rfl⟩
      · rintro ks rfl hks
        exact absurd (hl ks rfl) hks
    · obtain ⟨ks, rfl, hks⟩ := exists_of_not_isLeaf hl
      cases hfind : t.find k with
      | none =>
        obtain ⟨hw, hcovered⟩ := hnone k ks hmem hks hfind
        rw [writeValueIn_missing hks (ht₁.trans hfind), leafIn, hw]
        refine ⟨_, rfl, ⟨fun h ↦ absurd h hl, ?_⟩, hassign _⟩
        rintro _ ⟨⟩ -
        rw [below_of_find find_assign_self, find_assign_self, below_of_none hfind, hfind]
        exact ⟨hcovered.done.1, hcovered.done.2, fun w hw ↦ ⟨_, (Option.some.inj hw).symm⟩⟩
      | some w =>
        by_cases hw : ∀ t', w ≠ .table t'
        · have hflags := hatom k ks w hmem hks hfind hw
          obtain ⟨hplaces, hframes⟩ := done_of_flags (d := d.below k) hflags
          refine ⟨t₁, ?_, ⟨fun h ↦ absurd h hl, ?_⟩, fun _ _ ↦ rfl⟩
          · rw [writeValueIn_atom hks (ht₁.trans hfind) hw, atomError_of_flags hflags]
            rfl
          · rintro _ ⟨⟩ -
            rw [below_of_atom (ht₁.trans hfind) hw, below_of_atom hfind hw, ht₁]
            exact ⟨hplaces, hframes, Remains.refl _⟩
        · obtain ⟨t', rfl⟩ : ∃ t', w = .table t' := by simpa only [ne_eq, not_forall, not_not] using hw
          obtain ⟨t'', hwrite, hplaces, hframes⟩ := hnested ks t' rfl hks hfind
          rw [writeValueIn_nested hks (ht₁.trans hfind), hwrite]
          refine ⟨_, rfl, ⟨fun h ↦ absurd h hl, ?_⟩, hassign _⟩
          rintro _ ⟨⟩ -
          rw [below_of_find find_assign_self, find_assign_self, below_of_find hfind, hfind]
          exact ⟨hplaces, hframes, t'', rfl⟩
  · obtain rfl := eq_of_flag (Bool.eq_false_iff.mpr hflag)
    rw [writeValueIn_erase]
    refine ⟨_, rfl, ⟨fun _ ↦ ⟨?_, fun h ↦ absurd h hflag⟩, nofun⟩, fun key hkey ↦ ?_⟩
    · rw [find_erase, if_pos rfl, if_neg hflag]
    · rw [find_erase, if_neg fun heq ↦ hkey ((normal_eq_iff hk).mp heq)]

theorem EntryDone.congr {t₁ t₂ : LuaMap Number Userdata} (h : EntryDone d t t₁ k v) (hfind : t₂.find k = t₁.find k) :
    EntryDone d t t₂ k v := by
  have hbelow : t₂.below k = t₁.below k := by rw [LuaMap.below, hfind, LuaMap.below]
  refine ⟨fun hleaf ↦ ?_, fun ks hv hks ↦ ?_⟩
  · rw [hfind]
    exact h.leaf hleaf
  · rw [hfind, hbelow]
    exact h.nested ks hv hks

/-- The loop over some of the keys, from a table that is like the first one under these. -/
theorem writeIn_entries (h : Meets keys t d) (hbool : NoBool keys)
    (hnested : ∀ k ks t', (k, .table ks) ∈ keys → ks ≠ [] → t.find k = some (.table t') →
      ∃ t'', writeIn (d.below k) t' ks = done t'' ∧ Places ks (d.below k) t'' ∧ Frames ks t' t'')
    (es : LuaMap Number Userdata) (hes : ∀ e ∈ es, e ∈ keys) (hsorted : OrderedMap.Sorted LuaKey.lt es)
    {t₁ : LuaMap Number Userdata} (ht₁ : ∀ e ∈ es, t₁.find e.1 = t.find e.1) :
    ∃ t', writeIn d t₁ es = done t' ∧ (∀ k v, (k, v) ∈ es → EntryDone d t t' k v) ∧
      ∀ k, (∀ v, (k, v) ∉ es) → t'.find k = t₁.find k := by
  induction es generalizing t₁ with
  | nil => exact ⟨t₁, by rw [writeIn], fun _ _ hmem ↦ absurd hmem List.not_mem_nil, fun _ _ ↦ rfl⟩
  | cons e es ih =>
    obtain ⟨k, v⟩ := e
    have hmem := hes _ List.mem_cons_self
    have hne (e' : LuaKey Number × LuaTypes Number Userdata) (he' : e' ∈ es) : k ≠ e'.1 := by
      intro heq
      have hlt := List.rel_of_pairwise_cons hsorted he'
      rw [← heq] at hlt
      exact absurd hlt (by cases k <;> simp [LuaKey.lt])
    obtain ⟨t₂, hwrite, hdone, hothers⟩ := writeValueIn_meets h hmem (hbool.key hmem) (ht₁ _ List.mem_cons_self)
      fun ks t' hv hks hfind ↦ hnested k ks t' (hv ▸ hmem) hks hfind
    obtain ⟨t', hrest, hdone', hothers'⟩ := ih (fun e' he' ↦ hes e' (List.mem_cons_of_mem _ he')) hsorted.of_cons
      fun e' he' ↦ (hothers _ (hne e' he')).trans (ht₁ e' (List.mem_cons_of_mem _ he'))
    refine ⟨t', ?_, fun key w hw ↦ ?_, fun key hkey ↦ ?_⟩
    · rw [writeIn_cons, hwrite]
      exact hrest
    · obtain heq | hw := List.mem_cons.mp hw
      · obtain ⟨rfl, rfl⟩ := Prod.mk.inj heq
        exact hdone.congr (hothers' _ fun w hw ↦ hne _ hw rfl)
      · exact hdone' key w hw
    · rw [hothers' key fun w hw ↦ hkey w (List.mem_cons_of_mem _ hw), hothers key]
      rintro rfl
      exact hkey v List.mem_cons_self

/-- What is listed is written, and all else stays. -/
theorem writeIn_meets (h : Meets keys t d) : Ordered keys → NoBool keys →
    ∃ t', writeIn d t keys = done t' ∧ Places keys d t' ∧ Frames keys t t' := by
  induction h with
  | @intro keys t d hleaf hnone hatom hmeets ih =>
    intro hkeys hbool
    have hnested (k : LuaKey Number) (ks t' : LuaMap Number Userdata) (hmem : (k, LuaTypes.table ks) ∈ keys)
        (hks : ks ≠ []) (hfind : t.find k = some (.table t')) :
        ∃ t'', writeIn (d.below k) t' ks = done t'' ∧ Places ks (d.below k) t'' ∧ Frames ks t' t'' :=
      ih k ks t' hmem hks hfind (hkeys.table hmem) (hbool.nested hmem)
    obtain ⟨t', hwrite, hdone, hothers⟩ := writeIn_entries (.intro hleaf hnone hatom hmeets) hbool hnested keys
      (fun _ he ↦ he) hkeys.sorted fun _ _ ↦ rfl
    exact ⟨t', hwrite, places_of_entries hdone, frames_of_entries hdone hothers⟩

end Entries

/-! Calls that fail before they change anything. -/

/-- Keys that ask for what the table has already. -/
inductive Idle : LuaMap Number Userdata → LuaMap Number Userdata → LuaMap Number Userdata → Prop
  | nil {t d : LuaMap Number Userdata} : Idle [] t d
  | erased {t d es : LuaMap Number Userdata} {k : LuaKey Number} :
      t.find k = none → Idle es t d → Idle ((k, .bool false) :: es) t d
  | same {t d es : LuaMap Number Userdata} {k : LuaKey Number} {v w : LuaTypes Number Userdata} :
      IsLeaf v → flag v = true → d.find k = some w → t.find k = some w → Idle es t d → Idle ((k, v) :: es) t d
  | nested {t t' d es ks : LuaMap Number Userdata} {k : LuaKey Number} :
      ks ≠ [] → t.find k = some (.table t') → Idle ks t' (d.below k) → Idle es t d → Idle ((k, .table ks) :: es) t d
  | atom {t d es ks : LuaMap Number Userdata} {k : LuaKey Number} {w : LuaTypes Number Userdata} :
      ks ≠ [] → t.find k = some w → (∀ t', w ≠ .table t') → (∀ e ∈ ks, flag e.2 = false) → Idle es t d →
      Idle ((k, .table ks) :: es) t d

/-- The first key that asks for something else cannot be written. -/
inductive Stops : LuaMap Number Userdata → LuaMap Number Userdata → LuaMap Number Userdata → Prop
  | leaf {t d es : LuaMap Number Userdata} {k : LuaKey Number} {v : LuaTypes Number Userdata} :
      IsLeaf v → flag v = true → d.find k = none → Stops ((k, v) :: es) t d
  | nowhere {t d es ks : LuaMap Number Userdata} {k : LuaKey Number} :
      ks ≠ [] → t.find k = none → d.find k = none → Stops ((k, .table ks) :: es) t d
  | nested {t t' d es ks : LuaMap Number Userdata} {k : LuaKey Number} :
      ks ≠ [] → t.find k = some (.table t') → Stops ks t' (d.below k) → Stops ((k, .table ks) :: es) t d
  | atom {t d es ks : LuaMap Number Userdata} {k : LuaKey Number} {w : LuaTypes Number Userdata} :
      ks ≠ [] → t.find k = some w → (∀ t', w ≠ .table t') → (∃ e ∈ ks, flag e.2 = true) →
      Stops ((k, .table ks) :: es) t d
  | idle {t d es : LuaMap Number Userdata} {k : LuaKey Number} {v : LuaTypes Number Userdata} :
      Idle [(k, v)] t d → Stops es t d → Stops ((k, v) :: es) t d

section Fails

variable {w : LuaTypes Number Userdata}

theorem writeIn_single : writeIn d t [(k, v)] = writeValueIn d t k v := by
  rw [writeIn_cons, andThen]
  generalize writeValueIn d t k v = w
  obtain ⟨error, t'⟩ := w
  cases error with
  | none =>
    change writeIn d t' [] = _
    rw [writeIn]
    rfl
  | some e => rfl

theorem writeIn_idle (h : Idle keys t d) : Ordered t → writeIn d t keys = done t := by
  induction h with
  | nil =>
    intro _
    rw [writeIn]
  | erased hfind _ ih =>
    intro ht
    rw [writeIn_cons, writeValueIn_erase, erase_of_find hfind]
    exact ih ht
  | same hleaf hflag hd hfind _ ih =>
    intro ht
    have hassign : LuaMap.assign _ _ _ = _ := OrderedMap.assign_of_find ht.sorted hfind
    rw [writeIn_cons, writeValueIn_leaf hleaf hflag, leafIn, hd]
    simp only [hassign]
    exact ih ht
  | nested hks hfind _ _ ihks ih =>
    intro ht
    have hassign : LuaMap.assign _ _ _ = _ := OrderedMap.assign_of_find ht.sorted hfind
    rw [writeIn_cons, writeValueIn_nested hks hfind, ihks (ht.of_find hfind)]
    simp only [Written.map, Written.done, hassign]
    exact ih ht
  | atom hks hfind hw hflags _ ih =>
    intro ht
    rw [writeIn_cons, writeValueIn_atom hks hfind hw, atomError_of_flags hflags]
    exact ih ht

theorem atomError_of_flag (h : ∃ e ∈ keys, flag e.2 = true) : ∃ error, atomError d keys = some error := by
  induction keys with
  | nil =>
    obtain ⟨e, he, -⟩ := h
    exact absurd he List.not_mem_nil
  | cons e es ih =>
    rw [atomError]
    split
    · exact ⟨_, rfl⟩
    · next hflag =>
      obtain ⟨e', he', hflag'⟩ := h
      obtain rfl | he' := List.mem_cons.mp he'
      · exact absurd hflag' hflag
      · exact ih ⟨e', he', hflag'⟩

theorem writeIn_stops (h : Stops keys t d) : Ordered t → ∃ error, writeIn d t keys = fail error t := by
  induction h with
  | leaf hleaf hflag hd =>
    intro _
    refine ⟨missing, ?_⟩
    rw [writeIn_cons, writeValueIn_leaf hleaf hflag, leafIn, hd]
    rfl
  | nowhere hks hfind hd =>
    intro _
    refine ⟨missing, ?_⟩
    rw [writeIn_cons, writeValueIn_missing hks hfind, leafIn, hd]
    rfl
  | nested hks hfind _ ih =>
    intro ht
    obtain ⟨error, hwrite⟩ := ih (ht.of_find hfind)
    have hassign : LuaMap.assign _ _ _ = _ := OrderedMap.assign_of_find ht.sorted hfind
    refine ⟨error, ?_⟩
    rw [writeIn_cons, writeValueIn_nested hks hfind, hwrite]
    simp only [Written.map, Written.fail, Written.andThen, hassign]
  | atom hks hfind hw hflag =>
    intro _
    obtain ⟨error, herror⟩ := atomError_of_flag (d := LuaMap.below _ _) hflag
    refine ⟨error, ?_⟩
    rw [writeIn_cons, writeValueIn_atom hks hfind hw, herror]
    rfl
  | idle hidle _ ih =>
    intro ht
    obtain ⟨error, hwrite⟩ := ih ht
    have hdone := writeIn_idle hidle ht
    rw [writeIn_single] at hdone
    refine ⟨error, ?_⟩
    rw [writeIn_cons, hdone]
    exact hwrite

end Fails

end Taiyi.TableData
