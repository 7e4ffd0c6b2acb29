import Taiyi.Actors.Born
import Taiyi.Library.Clamp

set_option autoImplicit false

namespace Taiyi.Actors

open Library Library.Attempt Library.Clamp Library.Words Lua

variable {Number Userdata : Type} [LinearOrder Number]

/-- The attributes that have a maximum: those of the core object and the health of the actor. -/
inductive Field
  | core (a : CoreAttribute)
  | health
  deriving DecidableEq

def Field.key : Field → String
  | core .strength => "strength"
  | core .physique => "physique"
  | core .agility => "agility"
  | core .vitality => "vitality"
  | core .comprehension => "comprehension"
  | core .willpower => "willpower"
  | core .charm => "charm"
  | core .mood => "mood"
  | health => "health"

/-- The attribute that a key names. -/
def Field.named : String → Option Field
  | "strength" => some (core .strength)
  | "physique" => some (core .physique)
  | "agility" => some (core .agility)
  | "vitality" => some (core .vitality)
  | "comprehension" => some (core .comprehension)
  | "willpower" => some (core .willpower)
  | "charm" => some (core .charm)
  | "mood" => some (core .mood)
  | "health" => some health
  | _ => none

/-- What an entry of the values changes. -/
inductive Target
  | field (f : Field)
  | age
  deriving DecidableEq

def Target.key : Target → String
  | field f => f.key
  | age => "age"

def Target.named (k : String) : Option Target :=
  match Field.named k with
  | some f => some (field f)
  | none => if k = "age" then some age else none

/-- The attributes of an actor; the age is a `uint16_t`. -/
structure Attributes where
  field : Field → Attribute
  age : ℤ

namespace Attribute

def addMax (x : Attribute) (v : ℤ) : Attribute := ⟨x.value, Max.max 0 (toSigned 15 (x.max + v))⟩

def addValue (x : Attribute) (v : ℤ) : Attribute := ⟨min (Max.max 0 (toSigned 15 (x.value + v))) x.max, x.max⟩

end Attribute

/-- The new age goes through an `int16_t`. -/
def addAge (age v : ℤ) : ℤ := max 0 (toSigned 15 (age + v))

namespace Attributes

variable (attrs : Attributes)

def addMax (f : Field) (v : ℤ) : Attributes :=
  { attrs with field := Function.update attrs.field f ((attrs.field f).addMax v) }

def addValue (v : ℤ) : Target → Attributes
  | .field f => { attrs with field := Function.update attrs.field f ((attrs.field f).addValue v) }
  | .age => { attrs with age := addAge attrs.age v }

end Attributes

/-- What one entry of a table does: a key that names nothing is skipped, as is a change by zero. -/
def changeEntry {κ : Type} (named : String → Option κ) (change : Attributes → κ → ℤ → Attributes)
    (attrs : Attributes) (e : LuaKey Number × LuaTypes Number Userdata) : Except String Attributes :=
  match e.1 with
  | .string k =>
    match named k with
    | none => .ok attrs
    | some target =>
      match e.2 with
      | .int v => .ok (if v ≠ 0 then change attrs target v else attrs)
      | _ => .error "attributes value type invalid (must be int)"
  | _ => .ok attrs

def changeMax (attrs : Attributes) (e : LuaKey Number × LuaTypes Number Userdata) : Except String Attributes :=
  changeEntry Field.named Attributes.addMax attrs e

def changeValue (attrs : Attributes) (e : LuaKey Number × LuaTypes Number Userdata) : Except String Attributes :=
  changeEntry Target.named (fun attrs t v ↦ attrs.addValue v t) attrs e

/-- The loop over the maxima. -/
def runMaxValues (values maxValues : LuaMap Number Userdata) (attrs : Attributes) : Except String Attributes :=
  maxValues.foldlM (fun attrs e ↦ do
    let attrs ← changeMax attrs e
    -- the loop over the values stands inside the loop over the maxima
    values.foldlM changeValue attrs) attrs

def modifyActorAttributes (caller : Rights) (callerAccount : ℕ) (isDaoAccount : Bool)
    (values maxValues : LuaMap Number Userdata) (attrs : Attributes) : Except String Attributes :=
  if ¬(caller.ownerAccount = callerAccount ∨ caller.activeAccount = callerAccount ∨ isDaoAccount) then
    .error "caller account not the owner or active operator or DAO"
  else runMaxValues values maxValues attrs

/-- The change that a table asks for under a key. -/
def delta (es : LuaMap Number Userdata) (k : String) : ℤ :=
  match es.find (.string k) with
  | some (.int v) => v
  | _ => 0

/-- A table of changes: what stands under a key that names something is an integer. -/
structure Deltas {κ : Type} (named : String → Option κ) (es : LuaMap Number Userdata) : Prop where
  sorted : OrderedMap.Sorted LuaKey.lt es
  ints : ∀ k v, (LuaKey.string k, v) ∈ es → (named k).isSome → ∃ n, v = .int n

section Entries

variable {e : LuaKey Number × LuaTypes Number Userdata} {es : LuaMap Number Userdata} {k : String}

theorem find_cons_string : LuaMap.find (e :: es) (.string k) =
    if e.1 = .string k then some e.2 else LuaMap.find es (.string k) := by
  have hiff : OrderedMap.equiv LuaKey.lt e.1 (.string k) = true ↔ e.1 = .string k := by
    rw [LuaKey.equiv_lt_iff]
    cases e.1 <;> simp [LuaKey.normal]
  rw [LuaMap.find, OrderedMap.find_cons]
  simp only [hiff]
  rfl

theorem delta_cons (es : LuaMap Number Userdata) : delta (e :: es) k = if e.1 = .string k then delta [e] k else delta es k := by
  by_cases he : e.1 = .string k
  · simp only [delta, find_cons_string, if_pos he]
  · simp only [delta, find_cons_string, if_neg he]

theorem delta_eq_zero (h : ∀ e ∈ es, e.1 ≠ .string k) : delta es k = 0 := by
  induction es with
  | nil => rfl
  | cons e es ih =>
    rw [delta_cons, if_neg (h e List.mem_cons_self)]
    exact ih fun e' he' ↦ h e' (List.mem_cons_of_mem _ he')

theorem delta_singleton_of_ne (h : e.1 ≠ .string k) : delta [e] k = 0 :=
  delta_eq_zero (by simpa using h)

/-- After the entry of a key there is no other. -/
theorem ne_of_sorted (h : OrderedMap.Sorted LuaKey.lt (e :: es)) (he : e.1 = .string k)
    {e' : LuaKey Number × LuaTypes Number Userdata} (hmem : e' ∈ es) : e'.1 ≠ .string k := by
  intro he'
  have hlt := List.rel_of_pairwise_cons h hmem
  rw [he, he'] at hlt
  simp [LuaKey.lt] at hlt

theorem Deltas.tail {κ : Type} {named : String → Option κ} (h : Deltas named (e :: es)) : Deltas named es :=
  ⟨h.sorted.of_cons, fun k v hmem ↦ h.ints k v (List.mem_cons_of_mem _ hmem)⟩

end Entries

section Pass

variable {β κ : Type} {named : String → Option κ} {change : Attributes → κ → ℤ → Attributes}
  {view : Attributes → β} {upd : β → ℤ → β} {key : String} {target : κ} {attrs attrs' : Attributes}
  {e : LuaKey Number × LuaTypes Number Userdata} {es : LuaMap Number Userdata}

/-- A change that is skipped when it is zero. -/
def pass (upd : β → ℤ → β) (x : β) (d : ℤ) : β := if d ≠ 0 then upd x d else x

theorem pass_zero (x : β) : pass upd x 0 = x := if_neg (by simp)

omit [LinearOrder Number] in
theorem changeEntry_ok (hints : ∀ k, e.1 = .string k → (named k).isSome → ∃ n, e.2 = .int n) :
    ∃ attrs', changeEntry named change attrs e = .ok attrs' := by
  obtain ⟨k, v⟩ := e
  cases k with
  | string k =>
    cases htarget : named k with
    | none => exact ⟨attrs, by simp only [changeEntry, htarget]⟩
    | some target =>
      obtain ⟨n, rfl⟩ := hints k rfl (by rw [htarget]; rfl)
      simp only [changeEntry, htarget]
      exact ⟨_, rfl⟩
  | int | number | bool => exact ⟨attrs, rfl⟩

variable (view) in
/-- One entry changes what it names by its integer and nothing else. -/
theorem view_of_changeEntry (hnamed : ∀ k, named k = some target ↔ k = key)
    (hown : ∀ s v, view (change s target v) = upd (view s) v)
    (hother : ∀ s t v, t ≠ target → view (change s t v) = view s)
    (h : changeEntry named change attrs e = .ok attrs') :
    view attrs' = pass upd (view attrs) (delta [e] key) := by
  obtain ⟨k, v⟩ := e
  cases k with
  | string k =>
    cases htarget : named k with
    | none =>
      simp only [changeEntry, htarget, Except.ok.injEq] at h
      have hne : k ≠ key := fun hk ↦ by simp [(hnamed k).mpr hk] at htarget
      rw [delta_singleton_of_ne (by simpa using hne), pass_zero, h]
    | some t =>
      simp only [changeEntry, htarget] at h
      cases v with
      | int v =>
        simp only [Except.ok.injEq] at h
        subst h
        by_cases ht : t = target
        · subst ht
          obtain rfl := (hnamed k).mp htarget
          have hdelta : delta [((.string k, .int v) : LuaKey Number × LuaTypes Number Userdata)] k = v := by
            simp only [delta, find_cons_string, if_pos]
          rw [hdelta, pass]
          split
          · exact hown ..
          · rfl
        · have hne : k ≠ key := fun hk ↦ ht (by simpa [(hnamed k).mpr hk] using htarget.symm)
          rw [delta_singleton_of_ne (by simpa using hne), pass_zero]
          split
          · exact hother _ _ _ ht
          · rfl
      | number | string | bool | table | function | userdata => cases h
  | int | number | bool =>
    simp only [changeEntry, Except.ok.injEq] at h
    rw [delta_singleton_of_ne (by simp), pass_zero, h]

/-- The entries of a table together make the one change that the table asks for. -/
theorem foldl_pass (hsorted : OrderedMap.Sorted LuaKey.lt es) (x : β) :
    es.foldl (fun x e ↦ pass upd x (delta [e] key)) x = pass upd x (delta es key) := by
  induction es generalizing x with
  | nil => exact (pass_zero x).symm
  | cons e es ih =>
    rw [List.foldl_cons, ih hsorted.of_cons, delta_cons es]
    split
    · next he =>
      rw [delta_eq_zero fun e' he' ↦ ne_of_sorted hsorted he he', pass_zero]
    · next he => rw [delta_singleton_of_ne he, pass_zero]

end Pass

section Passes

variable {x : Attribute} {d Δ : ℤ} {n m : ℕ} {key : String} {maxValues : LuaMap Number Userdata}

/-- The passes over the values that a table of maxima makes, each after one of its entries. -/
def passes (maxValues : LuaMap Number Userdata) (key : String) (d : ℤ) (x : Attribute) : Attribute :=
  maxValues.foldl (fun x e ↦ pass Attribute.addValue (pass Attribute.addMax x (delta [e] key)) d) x

theorem passes_append (l l' : LuaMap Number Userdata) :
    passes (l ++ l') key d x = passes l' key d (passes l key d x) := List.foldl_append

theorem passes_of_zero (h : ∀ e ∈ maxValues, delta [e] key = 0) (x : Attribute) :
    passes maxValues key d x = (fun x ↦ pass Attribute.addValue x d)^[maxValues.length] x := by
  induction maxValues generalizing x with
  | nil => rfl
  | cons e l ih =>
    rw [passes, List.foldl_cons, h e List.mem_cons_self, pass_zero, List.length_cons,
      Function.iterate_succ_apply]
    exact ih (fun e' he' ↦ h e' (List.mem_cons_of_mem _ he')) _

/-- No entry of a table that leaves a maximum as it is changes it. -/
theorem delta_singleton_of_zero (hsorted : OrderedMap.Sorted LuaKey.lt maxValues)
    (hΔ : delta maxValues key = 0) : ∀ e ∈ maxValues, delta [e] key = 0 := by
  induction maxValues with
  | nil => simp
  | cons e es ih =>
    intro e' he'
    rw [delta_cons] at hΔ
    obtain rfl | hmem := List.mem_cons.mp he'
    · by_cases hkey : e'.1 = .string key
      · rwa [if_pos hkey] at hΔ
      · exact delta_singleton_of_ne hkey
    · split at hΔ
      · next hkey => exact delta_singleton_of_ne (ne_of_sorted hsorted hkey hmem)
      · exact ih hsorted.of_cons hΔ e' hmem

/-- A table that changes a maximum has one entry that does. -/
theorem exists_entry (hsorted : OrderedMap.Sorted LuaKey.lt maxValues) (hΔ : delta maxValues key ≠ 0) :
    ∃ l e l', maxValues = l ++ e :: l' ∧ (∀ e' ∈ l, delta [e'] key = 0) ∧ (∀ e' ∈ l', delta [e'] key = 0) ∧
      delta [e] key = delta maxValues key := by
  induction maxValues with
  | nil => exact absurd rfl hΔ
  | cons e es ih =>
    by_cases he : e.1 = .string key
    · refine ⟨[], e, es, rfl, by simp, fun e' he' ↦ delta_singleton_of_ne (ne_of_sorted hsorted he he'), ?_⟩
      rw [delta_cons es, if_pos he]
    · rw [delta_cons, if_neg he] at hΔ ⊢
      obtain ⟨l, e₁, l', rfl, hl, hl', hd⟩ := ih hsorted.of_cons hΔ
      refine ⟨e :: l, e₁, l', rfl, ?_, hl', hd⟩
      intro e' he'
      obtain rfl | hmem := List.mem_cons.mp he'
      · exact delta_singleton_of_ne he
      · exact hl e' hmem

theorem iterate_pass_zero (n : ℕ) : (fun x ↦ pass Attribute.addValue x 0)^[n] x = x := by
  induction n with
  | zero => rfl
  | succ n ih =>
    rw [Function.iterate_succ_apply', ih]
    exact pass_zero x

theorem addValue_of_isSigned (h : IsSigned 15 (x.value + d)) :
    x.addValue d = ⟨clampAdd d x.max x.value, x.max⟩ := by
  rw [Attribute.addValue, toSigned_of_isSigned h]
  rfl

theorem isSigned_add_of_bounds {top y : ℤ} (hd : IsSigned 15 d) (htop : IsSigned 15 (top + d)) (h0 : 0 ≤ y)
    (hy : y ≤ top) : IsSigned 15 (y + d) := by
  unfold IsSigned at *
  omega

/-- Passes whose sums all fit are clamped additions under the maximum. -/
theorem iterate_pass (hd : d ≠ 0) (hmax : 0 ≤ x.max) (hfirst : IsSigned 15 (x.value + d))
    (hnext : 1 < n → IsSigned 15 d ∧ IsSigned 15 (x.max + d)) :
    (fun x ↦ pass Attribute.addValue x d)^[n] x = ⟨(clampAdd d x.max)^[n] x.value, x.max⟩ := by
  induction n generalizing x with
  | zero => rfl
  | succ n ih =>
    rw [Function.iterate_succ_apply, Function.iterate_succ_apply, pass, if_pos hd,
      addValue_of_isSigned hfirst]
    obtain rfl | hn := n.eq_zero_or_pos
    · rfl
    obtain ⟨hsigned, hsignedMax⟩ := hnext (by omega)
    obtain ⟨h0, hle⟩ := clampAdd_bounds (d := d) (x := x.value) hmax
    exact ih hmax (isSigned_add_of_bounds hsigned hsignedMax h0 hle) fun _ ↦ ⟨hsigned, hsignedMax⟩

/-- No sum is narrowed when a value is changed in each of `m` passes and the maximum once. -/
structure Unnarrowed (m : ℕ) (x : Attribute) (d Δ : ℤ) : Prop where
  newMax : IsSigned 15 (x.max + Δ)
  first : IsSigned 15 (x.value + d)
  next : 1 < m → IsSigned 15 d ∧ IsSigned 15 (x.max + d) ∧ IsSigned 15 (x.max + Δ + d)

/-- When `m` passes come to one. The maximum is changed before the last pass only if `last`. -/
structure Settles (m : ℕ) (last : Prop) (x : Attribute) (d Δ : ℤ) : Prop where
  newMax : 0 ≤ x.max + Δ
  kept : d = 0 → x.value ≤ x.max + Δ
  raised : 0 < d → if m = 0 then x.value = x.max
    else m = 1 ∨ x.max + Δ ≤ x.value + d ∨ last ∧ x.value = x.max
  lowered : d < 0 → if m = 0 then x.value = 0
    else m = 1 ∨ x.value + d ≤ 0 ∨ x.max + Δ = 0 ∨ last ∧ x.max + Δ ≤ x.value + m * d

/-- The changes are made once: the maximum is raised by its change, and the value by its own within
the new maximum. -/
structure Applied (x y : Attribute) (d Δ : ℤ) : Prop where
  max_eq : y.max = x.max + Δ
  value_eq : y.value = clampAdd d y.max x.value
  value_nonneg : 0 ≤ y.value
  value_le : y.value ≤ y.max
  unnamed : d = 0 → Δ = 0 → y = x

theorem applied_iff {y : Attribute} (h0 : 0 ≤ x.value) (hle : x.value ≤ x.max) (hmax : 0 ≤ x.max + Δ) :
    Applied x y d Δ ↔ y = ⟨clampAdd d (x.max + Δ) x.value, x.max + Δ⟩ := by
  constructor
  · intro h
    rw [← h.max_eq, ← h.value_eq]
  · rintro rfl
    obtain ⟨hv0, hv⟩ := clampAdd_bounds (d := d) (x := x.value) hmax
    refine ⟨rfl, rfl, hv0, hv, ?_⟩
    rintro rfl rfl
    obtain ⟨value, top⟩ := x
    simp only [clampAdd, add_zero, Attribute.mk.injEq, and_true] at *
    omega

/-- Without a change of the maximum all passes are alike. -/
theorem iterate_pass_applied_iff {last : Prop} (h0 : 0 ≤ x.value) (hle : x.value ≤ x.max) (hlast : ¬last)
    (hw : Unnarrowed m x d 0) :
    Applied x ((fun x ↦ pass Attribute.addValue x d)^[m] x) d 0 ↔ Settles m last x d 0 := by
  have hmax : 0 ≤ x.max := h0.trans hle
  have htop : x.max + 0 = x.max := add_zero _
  rw [applied_iff h0 hle (by omega), htop]
  obtain rfl | hd := eq_or_ne d 0
  · rw [iterate_pass_zero]
    have hself : x = ⟨clampAdd 0 x.max x.value, x.max⟩ := by
      obtain ⟨value, top⟩ := x
      simp only [clampAdd, add_zero, Attribute.mk.injEq, and_true] at *
      omega
    exact iff_of_true hself ⟨by omega, fun _ ↦ by omega, fun h ↦ absurd h (lt_irrefl 0), fun h ↦ absurd h (lt_irrefl 0)⟩
  rw [iterate_pass hd hmax hw.first fun hm ↦ ⟨(hw.next hm).1, (hw.next hm).2.1⟩, Attribute.mk.injEq,
    and_iff_left rfl]
  cases m with
  | zero =>
    constructor
    · intro h
      simp only [Function.iterate_zero, id, clampAdd] at h
      exact ⟨by omega, fun _ ↦ by omega, fun _ ↦ by simp; omega, fun _ ↦ by simp; omega⟩
    · intro h
      have hraised := h.raised
      have hlowered := h.lowered
      simp only [if_pos, Function.iterate_zero, id, clampAdd] at *
      omega
  | succ k =>
    obtain hneg | hpos := hd.lt_or_gt
    · have hiff := iterate_eq_once_iff_neg (k := k) (i := 0) hneg h0 hle hmax
      rw [Function.iterate_zero, id] at hiff
      rw [hiff]
      constructor
      · intro h
        refine ⟨by omega, fun _ ↦ by omega, fun hp ↦ absurd hp (by omega), fun _ ↦ ?_⟩
        rw [if_neg k.succ_ne_zero]
        omega
      · intro h
        have hl := h.lowered hneg
        rw [if_neg k.succ_ne_zero] at hl
        simp only [hlast, false_and, or_false] at hl
        omega
    · have hiff := iterate_eq_once_iff_pos (k := k) (i := 0) hpos h0 hle hmax
      rw [Function.iterate_zero, id] at hiff
      rw [hiff]
      constructor
      · intro h
        refine ⟨by omega, fun _ ↦ by omega, fun _ ↦ ?_, fun hn ↦ absurd hn (by omega)⟩
        rw [if_neg k.succ_ne_zero]
        omega
      · intro h
        have hr := h.raised hpos
        rw [if_neg k.succ_ne_zero] at hr
        simp only [hlast, false_and, or_false] at hr
        omega

theorem addMax_of_isSigned (h : IsSigned 15 (x.max + Δ)) : x.addMax Δ = ⟨x.value, max 0 (x.max + Δ)⟩ := by
  rw [Attribute.addMax, toSigned_of_isSigned h]

/-- The passes before and after the change of the maximum, under the old maximum and the new. -/
theorem changed_pass_eq {i k : ℕ} (hd : d ≠ 0) (h0 : 0 ≤ x.value) (hle : x.value ≤ x.max)
    (hmax : 0 ≤ x.max + Δ) (hw : Unnarrowed (i + k + 1) x d Δ) :
    (fun x ↦ pass Attribute.addValue x d)^[k + 1] (((fun x ↦ pass Attribute.addValue x d)^[i] x).addMax Δ) =
      ⟨(clampAdd d (x.max + Δ))^[k + 1] ((clampAdd d x.max)^[i] x.value), x.max + Δ⟩ := by
  rw [iterate_pass hd (h0.trans hle) hw.first fun hi ↦
    ⟨(hw.next (by omega)).1, (hw.next (by omega)).2.1⟩,
    addMax_of_isSigned (x := ⟨(clampAdd d x.max)^[i] x.value, x.max⟩) hw.newMax, max_eq_right hmax]
  refine iterate_pass hd hmax ?_ fun hk ↦ ⟨(hw.next (by omega)).1, (hw.next (by omega)).2.2⟩
  cases i with
  | zero => exact hw.first
  | succ i =>
    obtain ⟨hsigned, hsignedMax, -⟩ := hw.next (by omega)
    rw [Function.iterate_succ_apply']
    obtain ⟨hy0, hy⟩ := clampAdd_bounds (d := d) (x := (clampAdd d x.max)^[i] x.value) (h0.trans hle)
    exact isSigned_add_of_bounds hsigned hsignedMax hy0 hy

theorem changed_pass_applied_iff {i k : ℕ} {last : Prop} (h0 : 0 ≤ x.value) (hle : x.value ≤ x.max)
    (hlast : last ↔ k = 0) (hw : Unnarrowed (i + k + 1) x d Δ) :
    Applied x ((fun x ↦ pass Attribute.addValue x d)^[k + 1]
      (((fun x ↦ pass Attribute.addValue x d)^[i] x).addMax Δ)) d Δ ↔ Settles (i + k + 1) last x d Δ := by
  have hm : (i + k + 1 = 1) ↔ i = 0 ∧ k = 0 := by omega
  by_cases hmax : 0 ≤ x.max + Δ
  swap
  · -- a maximum is not lowered below zero
    refine iff_of_false (fun h ↦ ?_) fun h ↦ hmax h.newMax
    have hge := h.max_eq ▸ h.value_nonneg.trans h.value_le
    exact hmax hge
  rw [applied_iff h0 hle hmax]
  obtain rfl | hd := eq_or_ne d 0
  · rw [iterate_pass_zero, iterate_pass_zero, addMax_of_isSigned hw.newMax, max_eq_right hmax,
      Attribute.mk.injEq, and_iff_left rfl, clampAdd]
    constructor
    · intro h
      exact ⟨hmax, fun _ ↦ by omega, fun hp ↦ absurd hp (lt_irrefl 0), fun hn ↦ absurd hn (lt_irrefl 0)⟩
    · intro h
      have hkept := h.kept rfl
      omega
  rw [changed_pass_eq hd h0 hle hmax hw, Attribute.mk.injEq, and_iff_left rfl]
  obtain hneg | hpos := hd.lt_or_gt
  · rw [iterate_eq_once_iff_neg hneg h0 hle hmax]
    constructor
    · intro h
      refine ⟨hmax, fun _ ↦ by omega, fun hp ↦ absurd hp (by omega), fun _ ↦ ?_⟩
      rw [if_neg (Nat.succ_ne_zero _), hm, hlast]
      obtain h | h | ⟨rfl, h | h⟩ := h
      · exact .inr (.inl h)
      · exact .inr (.inr (.inl h))
      · exact .inl ⟨h, rfl⟩
      · exact .inr (.inr (.inr ⟨rfl, by push_cast; rwa [add_zero]⟩))
    · intro h
      have hl := h.lowered hneg
      rw [if_neg (Nat.succ_ne_zero _), hm, hlast] at hl
      obtain ⟨hi, hk⟩ | h | h | ⟨rfl, h⟩ := hl
      · exact .inr (.inr ⟨hk, .inl hi⟩)
      · exact .inl h
      · exact .inr (.inl h)
      · push_cast at h
        rw [add_zero] at h
        exact .inr (.inr ⟨rfl, .inr h⟩)
  · rw [iterate_eq_once_iff_pos hpos h0 hle hmax]
    constructor
    · intro h
      refine ⟨hmax, fun _ ↦ by omega, fun _ ↦ ?_, fun hn ↦ absurd hn (by omega)⟩
      rw [if_neg (Nat.succ_ne_zero _), hm, hlast]
      tauto
    · intro h
      have hr := h.raised hpos
      rw [if_neg (Nat.succ_ne_zero _), hm, hlast] at hr
      tauto

/-- The maximum is changed before the last pass only. -/
def ChangesLast (maxValues : LuaMap Number Userdata) (key : String) : Prop :=
  ∃ e ∈ maxValues.getLast?, delta [e] key ≠ 0

/-- All passes over one attribute. -/
theorem passes_applied_iff (hsorted : OrderedMap.Sorted LuaKey.lt maxValues) (h0 : 0 ≤ x.value)
    (hle : x.value ≤ x.max) (hw : Unnarrowed maxValues.length x d (delta maxValues key)) :
    Applied x (passes maxValues key d x) d (delta maxValues key) ↔
      Settles maxValues.length (ChangesLast maxValues key) x d (delta maxValues key) := by
  by_cases hΔ : delta maxValues key = 0
  · have hzero := delta_singleton_of_zero hsorted hΔ
    have hlast : ¬ChangesLast maxValues key := by
      rintro ⟨e, he, hne⟩
      exact hne (hzero e (List.mem_of_getLast? he))
    rw [hΔ] at hw ⊢
    rw [passes_of_zero hzero]
    exact iterate_pass_applied_iff h0 hle hlast hw
  · obtain ⟨l, e, l', heq, hl, hl', he⟩ := exists_entry hsorted hΔ
    have hlast : ChangesLast maxValues key ↔ l'.length = 0 := by
      rw [ChangesLast, heq, List.getLast?_append, List.length_eq_zero_iff]
      cases l' with
      | nil => simpa [he] using hΔ
      | cons e' l' =>
        refine iff_of_false ?_ (List.cons_ne_nil _ _)
        rintro ⟨e'', he'', hne⟩
        rw [List.getLast?_cons_cons, List.getLast?_cons, Option.some_or, Option.mem_some] at he''
        refine hne (hl' e'' (List.mem_of_getLast? ?_))
        rw [List.getLast?_cons, he'']
    have hlength : maxValues.length = l.length + l'.length + 1 := by
      rw [heq, List.length_append, List.length_cons, Nat.add_assoc]
    have hadd (y : Attribute) : pass Attribute.addMax y (delta maxValues key) = y.addMax (delta maxValues key) :=
      if_pos hΔ
    have hrun : passes maxValues key d x = (fun x ↦ pass Attribute.addValue x d)^[l'.length + 1]
        (((fun x ↦ pass Attribute.addValue x d)^[l.length] x).addMax (delta maxValues key)) := by
      rw [heq, passes_append, passes_of_zero hl, passes, List.foldl_cons, Function.iterate_succ_apply,
        ← heq, he, hadd]
      exact passes_of_zero hl' _
    rw [hrun, hlength]
    rw [hlength] at hw
    exact changed_pass_applied_iff h0 hle hlast hw

end Passes

section Age

variable {age d : ℤ} {m : ℕ}

/-- No sum is narrowed when the age is changed in each of `m` passes. -/
structure AgeUnnarrowed (m : ℕ) (age d : ℤ) : Prop where
  first : IsSigned 15 (age + d)
  next : 1 < m → -2 ^ 15 ≤ d ∧ age + m * d < 2 ^ 15

/-- When `m` passes over the age come to one. -/
structure AgeSettles (m : ℕ) (age d : ℤ) : Prop where
  raised : 0 < d → m = 1
  lowered : d < 0 → if m = 0 then age = 0 else m = 1 ∨ age + d ≤ 0

theorem addAge_of_isSigned (h : IsSigned 15 (age + d)) : addAge age d = clampAdd d (2 ^ 16) age := by
  rw [addAge, toSigned_of_isSigned h, clampAdd]
  unfold IsSigned at h
  omega

theorem iterate_age (hd : d ≠ 0) (h0 : 0 ≤ age) (hw : AgeUnnarrowed m age d) :
    (fun a ↦ pass addAge a d)^[m] age = (clampAdd d (2 ^ 16))^[m] age := by
  induction m generalizing age with
  | zero => rfl
  | succ m ih =>
    rw [Function.iterate_succ_apply, Function.iterate_succ_apply, pass, if_pos hd,
      addAge_of_isSigned hw.first]
    obtain rfl | hm := m.eq_zero_or_pos
    · rfl
    obtain ⟨hge, hlt⟩ := hw.next (by omega)
    have hfirst := hw.first
    push_cast at hlt
    rw [add_mul, one_mul] at hlt
    obtain hneg | hpos := hd.lt_or_gt
    all_goals
      refine ih (clampAdd_bounds (by norm_num)).1 ⟨?_, fun _ ↦ ⟨hge, ?_⟩⟩
    · unfold IsSigned clampAdd at *
      omega
    · have hprod := natCast_mul_neg_cases hneg m
      unfold IsSigned clampAdd at *
      generalize (m : ℤ) * d = p at *
      omega
    · have hprod := natCast_mul_pos_cases hpos m
      unfold IsSigned clampAdd at *
      generalize (m : ℤ) * d = p at *
      omega
    · have hprod := natCast_mul_pos_cases hpos m
      unfold IsSigned clampAdd at *
      generalize (m : ℤ) * d = p at *
      omega

theorem iterate_age_iff (h0 : 0 ≤ age) (hage : age < 2 ^ 16) (hw : AgeUnnarrowed m age d) :
    (fun a ↦ pass addAge a d)^[m] age = max 0 (age + d) ↔ AgeSettles m age d := by
  have hfirst := hw.first
  unfold IsSigned at hfirst
  obtain rfl | hd := eq_or_ne d 0
  · have hfixed : (fun a ↦ pass addAge a 0)^[m] age = age := by
      clear hw
      induction m with
      | zero => rfl
      | succ m ih =>
        rw [Function.iterate_succ_apply', ih]
        exact pass_zero age
    rw [hfixed, add_zero, max_eq_right h0]
    exact iff_of_true rfl ⟨fun h ↦ absurd h (lt_irrefl 0), fun h ↦ absurd h (lt_irrefl 0)⟩
  have honce : max 0 (age + d) = clampAdd d (2 ^ 16) age := by
    unfold clampAdd
    omega
  rw [iterate_age hd h0 hw]
  cases m with
  | zero =>
    constructor
    · intro h
      simp only [Function.iterate_zero, id] at h
      exact ⟨fun _ ↦ by omega, fun _ ↦ by simp; omega⟩
    · rintro ⟨hr, hl⟩
      simp only [if_pos, Function.iterate_zero, id] at *
      omega
  | succ k =>
    rw [honce]
    obtain hneg | hpos := hd.lt_or_gt
    · have hiff := iterate_eq_once_iff_neg (k := k) (i := 0) hneg h0 hage.le (by norm_num : (0 : ℤ) ≤ 2 ^ 16)
      rw [Function.iterate_zero, id] at hiff
      rw [hiff]
      constructor
      · intro h
        refine ⟨fun hp ↦ absurd hp (by omega), fun _ ↦ ?_⟩
        rw [if_neg k.succ_ne_zero]
        omega
      · intro h
        have hl := h.lowered hneg
        rw [if_neg k.succ_ne_zero] at hl
        omega
    · have hiff := iterate_eq_once_iff_pos (k := k) (i := 0) hpos h0 hage.le (by norm_num : (0 : ℤ) ≤ 2 ^ 16)
      rw [Function.iterate_zero, id] at hiff
      rw [hiff]
      constructor
      · intro h
        exact ⟨fun _ ↦ by omega, fun hn ↦ absurd hn (by omega)⟩
      · intro h
        have hr := h.raised hpos
        omega

end Age

section Call

variable {values maxValues : LuaMap Number Userdata} {attrs attrs' : Attributes} {caller : Rights}
  {callerAccount : ℕ} {isDaoAccount : Bool}

theorem Field.named_iff {k : String} {f : Field} : Field.named k = some f ↔ k = f.key := by
  constructor
  · intro h
    unfold Field.named at h
    split at h <;> cases h <;> rfl
  · rintro rfl
    cases f with
    | health => rfl
    | core a => cases a <;> rfl

theorem Target.named_iff {k : String} {t : Target} : Target.named k = some t ↔ k = t.key := by
  unfold Target.named
  cases hf : Field.named k with
  | some f =>
    obtain rfl := Field.named_iff.mp hf
    cases t with
    | field g =>
      change some (field f) = some (field g) ↔ f.key = g.key
      rw [Option.some.injEq, Target.field.injEq, ← Field.named_iff, hf, Option.some.injEq]
    | age =>
      refine iff_of_false (by simp) fun h ↦ ?_
      have hnone : Field.named Target.age.key = none := rfl
      rw [h, hnone] at hf
      cases hf
  | none =>
    cases t with
    | field g =>
      refine iff_of_false (by simp only; split <;> simp) fun h ↦ ?_
      rw [Field.named_iff.mpr h] at hf
      cases hf
    | age => by_cases hk : k = "age" <;> simp [hk, Target.key]

/-- One pass over the values changes every attribute by what the table asks for. -/
theorem field_of_values (hsorted : OrderedMap.Sorted LuaKey.lt values)
    (h : values.foldlM changeValue attrs = .ok attrs') (f : Field) :
    attrs'.field f = pass Attribute.addValue (attrs.field f) (delta values f.key) := by
  rw [← foldl_pass hsorted]
  have hown (s : Attributes) (v : ℤ) : (s.addValue v (.field f)).field f = (s.field f).addValue v :=
    Function.update_self ..
  have hother (s : Attributes) (t : Target) (v : ℤ) (ht : t ≠ .field f) :
      (s.addValue v t).field f = s.field f := by
    cases t with
    | field g => exact Function.update_of_ne (fun hfg ↦ ht (congrArg Target.field hfg.symm)) ..
    | age => rfl
  exact view_of_foldlM (fun s ↦ s.field f) (g := fun x e ↦ pass Attribute.addValue x (delta [e] f.key))
    (fun s e s' hs ↦ view_of_changeEntry (fun s ↦ s.field f) (fun k ↦ Target.named_iff) hown hother hs) h

theorem age_of_values (hsorted : OrderedMap.Sorted LuaKey.lt values)
    (h : values.foldlM changeValue attrs = .ok attrs') :
    attrs'.age = pass addAge attrs.age (delta values "age") := by
  rw [← foldl_pass hsorted]
  have hown (s : Attributes) (v : ℤ) : (s.addValue v .age).age = addAge s.age v := rfl
  have hother (s : Attributes) (t : Target) (v : ℤ) (ht : t ≠ .age) : (s.addValue v t).age = s.age := by
    cases t with
    | field g => rfl
    | age => exact absurd rfl ht
  exact view_of_foldlM Attributes.age (fun s e s' hs ↦
    view_of_changeEntry Attributes.age (fun k ↦ Target.named_iff) hown hother hs) h

theorem runMaxValues_ok (hvalues : Deltas Target.named values) (hmax : Deltas Field.named maxValues)
    (attrs : Attributes) :
    ∃ attrs', runMaxValues values maxValues attrs = .ok attrs' := by
  refine foldlM_ok (fun s e he ↦ ?_) attrs
  obtain ⟨s₁, hs₁⟩ : ∃ s₁, changeMax s e = .ok s₁ :=
    changeEntry_ok fun k hk ↦ hmax.ints k e.2 (hk ▸ he)
  rw [hs₁]
  exact foldlM_ok (fun s e he ↦ changeEntry_ok fun k hk ↦ hvalues.ints k e.2 (hk ▸ he)) s₁

theorem field_of_runMaxValues (hvalues : OrderedMap.Sorted LuaKey.lt values)
    (h : runMaxValues values maxValues attrs = .ok attrs') (f : Field) :
    attrs'.field f = passes maxValues f.key (delta values f.key) (attrs.field f) := by
  have hown (s : Attributes) (v : ℤ) : (s.addMax f v).field f = (s.field f).addMax v :=
    Function.update_self ..
  have hother (s : Attributes) (g : Field) (v : ℤ) (hg : g ≠ f) : (s.addMax g v).field f = s.field f :=
    Function.update_of_ne hg.symm ..
  refine view_of_foldlM (fun s ↦ s.field f) (fun s e s' hs ↦ ?_) h
  cases he : changeMax s e with
  | error e' => rw [he] at hs; cases hs
  | ok s₁ =>
    rw [he] at hs
    rw [← view_of_changeEntry (fun s ↦ s.field f) (fun k ↦ Field.named_iff) hown hother he]
    exact field_of_values hvalues hs f

omit [LinearOrder Number] in
theorem age_of_changeMax {e : LuaKey Number × LuaTypes Number Userdata}
    (h : changeMax attrs e = .ok attrs') : attrs'.age = attrs.age := by
  unfold changeMax changeEntry at h
  split at h
  · split at h
    · cases h; rfl
    · split at h
      · cases h; split <;> rfl
      · cases h
  · cases h; rfl

theorem age_of_runMaxValues (hvalues : OrderedMap.Sorted LuaKey.lt values)
    (h : runMaxValues values maxValues attrs = .ok attrs') :
    attrs'.age = (fun a ↦ pass addAge a (delta values "age"))^[maxValues.length] attrs.age := by
  rw [← List.foldl_const]
  refine view_of_foldlM Attributes.age (fun s e s' hs ↦ ?_) h
  cases he : changeMax s e with
  | error e' => rw [he] at hs; cases hs
  | ok s₁ =>
    rw [he] at hs
    rw [← age_of_changeMax he]
    exact age_of_values hvalues hs

/-- The changes of a call are all made once. -/
structure AppliedOnce (values maxValues : LuaMap Number Userdata) (attrs attrs' : Attributes) : Prop where
  field : ∀ f, Applied (attrs.field f) (attrs'.field f) (delta values f.key) (delta maxValues f.key)
  age : attrs'.age = max 0 (attrs.age + delta values "age")

/-- Every value lies between zero and its maximum, and the age fits its field. -/
structure Attributes.InRange (attrs : Attributes) : Prop where
  value_nonneg : ∀ f, 0 ≤ (attrs.field f).value
  value_le : ∀ f, (attrs.field f).value ≤ (attrs.field f).max
  age_nonneg : 0 ≤ attrs.age
  age_lt : attrs.age < 2 ^ 16

/-- No sum of a call is narrowed. -/
structure CallUnnarrowed (values maxValues : LuaMap Number Userdata) (attrs : Attributes) : Prop where
  field : ∀ f, Unnarrowed maxValues.length (attrs.field f) (delta values f.key) (delta maxValues f.key)
  age : AgeUnnarrowed maxValues.length attrs.age (delta values "age")

/-- When the passes over the values come to one for every attribute. -/
structure CallSettles (values maxValues : LuaMap Number Userdata) (attrs : Attributes) : Prop where
  field : ∀ f, Settles maxValues.length (ChangesLast maxValues f.key) (attrs.field f) (delta values f.key)
    (delta maxValues f.key)
  age : AgeSettles maxValues.length attrs.age (delta values "age")

/-- An actor of twenty years with fifty of a hundred points for everything. -/
def halved : Attributes := ⟨fun _ ↦ ⟨50, 100⟩, 20⟩

/-- A table that asks for a change under one key. -/
def one (key : String) (n : ℤ) : LuaMap ℕ Unit := [(.string key, .int n)]

theorem delta_one (key k : String) (n : ℤ) : delta (one key n) k = if key = k then n else 0 := by
  by_cases h : key = k
  · simp only [delta, one, find_cons_string, LuaKey.string.injEq, if_pos h]
  · rw [if_neg h]
    exact delta_singleton_of_ne (by simpa using h)

theorem deltas_one {κ : Type} (named : String → Option κ) (key : String) (n : ℤ) : Deltas named (one key n) :=
  ⟨List.pairwise_singleton .., fun k v hmem _ ↦ ⟨n, by simpa [one] using And.right (by simpa [one] using hmem)⟩⟩

end Call

end Taiyi.Actors
