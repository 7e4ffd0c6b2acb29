import Taiyi.Library.IdMap

set_option autoImplicit false

namespace Taiyi.Library.MultiIndex

open Taiyi.Library.IdMap

variable {V K : Type}

/-- No two rows agree on any of the unique keys. -/
def Unique (keys : List (ℕ → V → K)) (rows : Table V) : Prop :=
  ∀ a b v w, rows[a]? = some v → rows[b]? = some w → a ≠ b →
    ∀ key ∈ keys, key a v ≠ key b w

/-- A container ordered by id with any number of further unique indexes. An ordered view
is a function of the rows, so the rows determine every index. -/
structure Container (keys : List (ℕ → V → K)) where
  rows : Table V
  unique : Unique keys rows

@[ext]
theorem Container.ext {keys : List (ℕ → V → K)} {c d : Container keys}
    (h : ∀ a : ℕ, c.rows[a]? = d.rows[a]?) : c = d := by
  obtain ⟨rows, hr⟩ := c
  obtain ⟨rows', hr'⟩ := d
  obtain rfl : rows = rows' := Std.ExtTreeMap.ext_getElem? (h ·)
  rfl

theorem Unique.mono {keys : List (ℕ → V → K)} {rows rows' : Table V} (h : Unique keys rows)
    (hsub : ∀ (a : ℕ) v, rows'[a]? = some v → rows[a]? = some v) : Unique keys rows' :=
  fun a b v w hv hw ↦ h a b v w (hsub a v hv) (hsub b w hw)

theorem Unique.erase {keys : List (ℕ → V → K)} {rows : Table V} (h : Unique keys rows) (id : ℕ) :
    Unique keys (rows.erase id) := by
  refine h.mono fun a v hv ↦ ?_
  rw [getElem?_erase] at hv
  split at hv
  · cases hv
  · exact hv

def Container.erase {keys : List (ℕ → V → K)} (c : Container keys) (id : ℕ) : Container keys :=
  ⟨c.rows.erase id, c.unique.erase id⟩

variable [DecidableEq K] {keys : List (ℕ → V → K)}

/-- Some row other than `id` already holds one of the keys that `v` would have at `id`. -/
def collides (keys : List (ℕ → V → K)) (rows : Table V) (id : ℕ) (v : V) : Bool :=
  rows.toList.any fun r ↦ r.1 != id && keys.any fun key ↦ key id v == key r.1 r.2

theorem collides_iff (rows : Table V) (id : ℕ) (v : V) :
    collides keys rows id v = true ↔
      ∃ b w, rows[b]? = some w ∧ b ≠ id ∧ ∃ key ∈ keys, key id v = key b w := by
  simp only [collides, List.any_eq_true, Bool.and_eq_true, bne_iff_ne, beq_iff_eq, Prod.exists,
    mem_toList]

theorem Unique.insert {rows : Table V} (h : Unique keys rows) {id : ℕ} {v : V}
    (hc : collides keys rows id v = false) : Unique keys (rows.insert id v) := by
  have hfree : ∀ b w, rows[b]? = some w → b ≠ id → ∀ key ∈ keys, key id v ≠ key b w := by
    intro b w hw hb key hk he
    have : collides keys rows id v = true := (collides_iff rows id v).mpr ⟨b, w, hw, hb, key, hk, he⟩
    simp [hc] at this
  intro a b u w hu hw hab key hk
  rw [getElem?_insert] at hu hw
  split at hu <;> split at hw
  · omega
  · next ha hb =>
    subst ha
    cases hu
    exact hfree b w hw (Ne.symm hab) key hk
  · next ha hb =>
    subst hb
    cases hw
    exact (hfree a u hu hab key hk).symm
  · exact h a b u w hu hw hab key hk

/-- Insertion is refused when the id or one of the unique keys is taken. -/
def Container.emplace (c : Container keys) (id : ℕ) (v : V) : Option (Container keys) :=
  if h : id ∉ c.rows ∧ collides keys c.rows id v = false then
    some ⟨c.rows.insert id v, c.unique.insert h.2⟩
  else none

/-- A modification that would break uniqueness erases the element and reports failure. -/
def Container.modify (c : Container keys) (id : ℕ) (v : V) : Bool × Container keys :=
  if h : collides keys c.rows id v = false then
    (true, ⟨c.rows.insert id v, c.unique.insert h⟩)
  else (false, c.erase id)

theorem emplace_eq_some_iff {c d : Container keys} {id : ℕ} {v : V} :
    c.emplace id v = some d ↔
      id ∉ c.rows ∧ collides keys c.rows id v = false ∧ d.rows = c.rows.insert id v := by
  unfold Container.emplace
  split
  · next h =>
    obtain ⟨rows, hr⟩ := d
    simp only [Option.some.injEq, Container.mk.injEq, h.1, h.2, not_false_eq_true, true_and]
    exact eq_comm
  · next h =>
    simp only [reduceCtorEq, false_iff]
    rintro ⟨h₁, h₂, -⟩
    exact h ⟨h₁, h₂⟩

theorem emplace_of_free {c : Container keys} {id : ℕ} {v : V}
    (hid : id ∉ c.rows) (hc : collides keys c.rows id v = false) :
    ∃ d, c.emplace id v = some d ∧ d.rows = c.rows.insert id v :=
  ⟨⟨_, c.unique.insert hc⟩, emplace_eq_some_iff.mpr ⟨hid, hc, rfl⟩, rfl⟩

theorem modify_of_free {c : Container keys} {id : ℕ} {v : V}
    (hc : collides keys c.rows id v = false) :
    ∃ d, c.modify id v = (true, d) ∧ d.rows = c.rows.insert id v := by
  refine ⟨⟨_, c.unique.insert hc⟩, ?_, rfl⟩
  simp [Container.modify, hc]

theorem modify_of_collides {c : Container keys} {id : ℕ} {v : V}
    (hc : collides keys c.rows id v = true) : c.modify id v = (false, c.erase id) := by
  simp [Container.modify, hc]

theorem modify_eq_true_iff {c d : Container keys} {id : ℕ} {v : V} :
    c.modify id v = (true, d) ↔
      collides keys c.rows id v = false ∧ d.rows = c.rows.insert id v := by
  cases hc : collides keys c.rows id v with
  | true => simp [modify_of_collides hc]
  | false =>
    obtain ⟨e, he, hr⟩ := modify_of_free hc
    rw [he]
    obtain ⟨rows, hd⟩ := d
    obtain ⟨rows', he'⟩ := e
    simp only at hr
    subst hr
    simp [eq_comm]

end Taiyi.Library.MultiIndex
