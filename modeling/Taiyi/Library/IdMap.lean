import Mathlib.Algebra.BigOperators.Group.Finset.Basic
import Mathlib.Algebra.BigOperators.Group.List.Basic
import Mathlib.Algebra.BigOperators.Ring.List
import Mathlib.Algebra.Order.BigOperators.Group.List
import Mathlib.Data.Int.Notation
import Mathlib.Data.List.Perm.Basic
import Mathlib.Data.Nat.Notation
import Mathlib.Tactic.Abel
import Std.Data.ExtTreeMap
import Std.Data.ExtTreeSet

set_option autoImplicit false

namespace Taiyi.Library.IdMap

open Std

/-- A finite map keyed by object id, iterated in ascending id order. -/
abbrev Table (V : Type) := ExtTreeMap ℕ V compare

abbrev IdSet := ExtTreeSet ℕ compare

variable {V S β : Type}

theorem getElem?_insert (m : Table V) (a b : ℕ) (v : V) :
    (m.insert a v)[b]? = if a = b then some v else m[b]? := by
  simp [ExtTreeMap.getElem?_insert]

theorem getElem?_erase (m : Table V) (a b : ℕ) :
    (m.erase a)[b]? = if a = b then none else m[b]? := by
  simp [ExtTreeMap.getElem?_erase]

theorem getElem?_insertIfNew (m : Table V) (a b : ℕ) (v : V) :
    (m.insertIfNew a v)[b]? = if a = b then (m[b]?).or (some v) else m[b]? := by
  rw [ExtTreeMap.getElem?_insertIfNew]
  by_cases hab : a = b
  · subst hab
    by_cases ha : a ∈ m <;> simp [ha]
  · simp [hab]

theorem mem_insert (m : Table V) (a b : ℕ) (v : V) : b ∈ m.insert a v ↔ a = b ∨ b ∈ m := by
  simp

theorem mem_iff_getElem? (m : Table V) (a : ℕ) : a ∈ m ↔ ∃ v, m[a]? = some v := by
  rw [ExtTreeMap.mem_iff_isSome_getElem?, Option.isSome_iff_exists]

theorem ids_sorted (m : Table V) : m.toList.Pairwise (fun r s ↦ r.1 < s.1) := by
  simpa only [Nat.compare_eq_lt] using m.ordered_keys_toList

theorem mem_toList (m : Table V) (a : ℕ) (v : V) : (a, v) ∈ m.toList ↔ m[a]? = some v :=
  ExtTreeMap.mem_toList_iff_getElem?_eq_some

section FoldView

variable (view : ℕ → S → β) (body : S → ℕ → V → S) (update : ℕ → V → β → β)

private theorem foldl_view_list
    (hown : ∀ s a v, view a (body s a v) = update a v (view a s))
    (hother : ∀ s a v b, a ≠ b → view b (body s a v) = view b s)
    (rows : List (ℕ × V)) (hr : rows.Pairwise (fun r s ↦ r.1 < s.1)) (s : S) (b : ℕ) :
    (∀ v, (b, v) ∈ rows → view b (rows.foldl (fun s r ↦ body s r.1 r.2) s) =
        update b v (view b s)) ∧
      ((∀ v, (b, v) ∉ rows) → view b (rows.foldl (fun s r ↦ body s r.1 r.2) s) = view b s) := by
  induction rows generalizing s with
  | nil => simp
  | cons r rows ih =>
    obtain ⟨a, v⟩ := r
    rw [List.pairwise_cons] at hr
    obtain ⟨hin, hout⟩ := ih hr.2 (body s a v)
    constructor
    · intro w hw
      simp only [List.foldl_cons]
      rcases List.mem_cons.mp hw with he | hw
      · obtain ⟨rfl, rfl⟩ := Prod.mk.inj he
        rw [hout fun u hu ↦ Nat.lt_irrefl b (hr.1 (b, u) hu), hown]
      · have hne : a ≠ b := Nat.ne_of_lt (hr.1 _ hw)
        rw [hin w hw, hother _ _ _ _ hne]
    · intro hn
      have hne : a ≠ b := by
        rintro rfl
        exact hn v (by simp)
      simp only [List.foldl_cons]
      rw [hout fun u hu ↦ hn u (List.mem_cons_of_mem _ hu), hother _ _ _ _ hne]

/-- A loop over a map whose body at id `a` reads and writes only the part of the state
belonging to `a` acts on every part independently. -/
theorem foldl_view
    (hown : ∀ s a v, view a (body s a v) = update a v (view a s))
    (hother : ∀ s a v b, a ≠ b → view b (body s a v) = view b s)
    (m : Table V) (s : S) (b : ℕ) :
    view b (m.foldl body s) =
      match m[b]? with
      | some v => update b v (view b s)
      | none => view b s := by
  rw [ExtTreeMap.foldl_eq_foldl_toList]
  obtain ⟨hin, hout⟩ := foldl_view_list view body update hown hother _ (ids_sorted m) s b
  cases hb : m[b]? with
  | some v => exact hin v ((mem_toList m b v).mpr hb)
  | none =>
    refine hout fun v hv ↦ ?_
    rw [mem_toList, hb] at hv
    cases hv

end FoldView

theorem foldl_keeps (view : S → β) (body : S → ℕ → V → S)
    (h : ∀ s a v, view (body s a v) = view s) (m : Table V) (s : S) :
    view (m.foldl body s) = view s := by
  have hv := foldl_view (fun _ ↦ view) body (fun _ _ b ↦ b) h (fun s a v _ _ ↦ h s a v) m s 0
  rw [hv]
  split <;> rfl

section Sums

variable {W M : Type} [AddCommGroup M]

/-- The sum of a quantity over all rows of a table. -/
def rowSum (f : ℕ → V → M) (t : Table V) : M := (t.toList.map fun r ↦ f r.1 r.2).sum

theorem nodup_toList (t : Table V) : t.toList.Nodup :=
  (ids_sorted t).imp fun {r s} (h : r.1 < s.1) (e : r = s) ↦ Nat.lt_irrefl _ (e ▸ h)

theorem nodup_ids (ids : IdSet) : ids.toList.Nodup :=
  ids.distinct_toList.imp fun {_ _} h e ↦ h (Nat.compare_eq_eq.mpr e)

theorem toList_perm {t : Table V} {l : List (ℕ × V)} (hl : l.Nodup)
    (h : ∀ k v, (k, v) ∈ l ↔ t[k]? = some v) : t.toList.Perm l := by
  apply (List.perm_ext_iff_of_nodup (nodup_toList t) hl).mpr
  intro r
  rw [mem_toList, h]

/-- The row of a key stands out of the others. -/
theorem toList_perm_erase {t : Table V} {k : ℕ} {v : V} (h : t[k]? = some v) :
    t.toList.Perm ((k, v) :: (t.erase k).toList) := by
  apply toList_perm
  · rw [List.nodup_cons, mem_toList, getElem?_erase, if_pos rfl]
    exact ⟨Option.some_ne_none v ∘ Eq.symm, nodup_toList _⟩
  · intro j u
    rw [List.mem_cons, mem_toList, getElem?_erase, Prod.mk.injEq]
    by_cases hj : k = j
    · subst hj
      simp [h, eq_comm]
    · simp [hj, Ne.symm hj]

theorem rowSum_perm {f : ℕ → V → M} {t : Table V} {l : List (ℕ × V)} (h : t.toList.Perm l) :
    rowSum f t = (l.map fun r ↦ f r.1 r.2).sum := (h.map _).sum_eq

theorem rowSum_erase (f : ℕ → V → M) {t : Table V} {k : ℕ} {v : V} (h : t[k]? = some v) :
    rowSum f t = f k v + rowSum f (t.erase k) := rowSum_perm (toList_perm_erase h)

theorem erase_insert (t : Table V) (k : ℕ) (v : V) : (t.insert k v).erase k = t.erase k := by
  apply ExtTreeMap.ext_getElem?
  intro j
  simp only [getElem?_erase, getElem?_insert]
  split <;> rfl

theorem rowSum_insert_erase (f : ℕ → V → M) (t : Table V) (k : ℕ) (v : V) :
    rowSum f (t.insert k v) = f k v + rowSum f (t.erase k) := by
  rw [rowSum_erase f (k := k) (v := v) (by simp), erase_insert]

/-- Overwriting a row changes the total by what the row counted before and counts now. -/
theorem rowSum_insert (f : ℕ → V → M) {t : Table V} {k : ℕ} {u : V} (h : t[k]? = some u) (v : V) :
    rowSum f (t.insert k v) = rowSum f t + (f k v - f k u) := by
  rw [rowSum_insert_erase, rowSum_erase f h]
  abel

theorem rowSum_insert_new (f : ℕ → V → M) {t : Table V} {k : ℕ} (h : t[k]? = none) (v : V) :
    rowSum f (t.insert k v) = rowSum f t + f k v := by
  have he : t.erase k = t := by
    apply ExtTreeMap.ext_getElem?
    intro j
    rw [getElem?_erase]
    split
    · next hj => rw [← hj, h]
    · rfl
  rw [rowSum_insert_erase, he, add_comm]

theorem rowSum_empty (f : ℕ → V → M) : rowSum f ∅ = 0 := rfl

theorem rowSum_add (f g : ℕ → V → M) (t : Table V) :
    rowSum (fun k v ↦ f k v + g k v) t = rowSum f t + rowSum g t := List.sum_map_add

theorem rowSum_mul (c : ℤ) (f : ℕ → V → ℤ) (t : Table V) :
    rowSum (fun k v ↦ c * f k v) t = c * rowSum f t := List.sum_map_mul_left ..

theorem rowSum_zero (t : Table V) : rowSum (fun _ _ ↦ (0 : M)) t = 0 := by
  unfold rowSum
  induction t.toList with
  | nil => rfl
  | cons r l ih => rw [List.map_cons, List.sum_cons, ih, add_zero]

theorem rowSum_congr {N : Type} {φ : V → N} (f : ℕ → N → M) {t t' : Table V}
    (h : ∀ k : ℕ, (t[k]?).map φ = (t'[k]?).map φ) :
    rowSum (fun k v ↦ f k (φ v)) t = rowSum (fun k v ↦ f k (φ v)) t' := by
  have hnodup : ∀ u : Table V, (u.toList.map fun r ↦ (r.1, φ r.2)).Nodup := fun u ↦
    List.pairwise_map.mpr ((ids_sorted u).imp fun {_ _} hlt he ↦
      absurd hlt (Nat.not_lt.mpr (Nat.le_of_eq (Prod.mk.inj he).1.symm)))
  have hmem : ∀ (u : Table V) (k : ℕ) (x : N),
      (k, x) ∈ u.toList.map (fun r ↦ (r.1, φ r.2)) ↔ (u[k]?).map φ = some x := by
    intro u k x
    simp only [List.mem_map, Prod.exists, Prod.mk.injEq, mem_toList, Option.map_eq_some_iff]
    constructor
    · rintro ⟨k, v, hv, rfl, rfl⟩
      exact ⟨v, hv, rfl⟩
    · rintro ⟨v, hv, rfl⟩
      exact ⟨k, v, hv, rfl, rfl⟩
  have hperm : (t.toList.map fun r ↦ (r.1, φ r.2)).Perm (t'.toList.map fun r ↦ (r.1, φ r.2)) := by
    refine (List.perm_ext_iff_of_nodup (hnodup t) (hnodup t')).mpr fun r ↦ ?_
    rw [← Prod.mk.eta (p := r), hmem, hmem, h]
  have hsum := (hperm.map fun r ↦ f r.1 r.2).sum_eq
  rwa [List.map_map, List.map_map] at hsum

theorem rowSum_eq_zero {f : ℕ → V → M} {t : Table V} (h : ∀ k v, t[k]? = some v → f k v = 0) :
    rowSum f t = 0 := by
  refine List.sum_eq_zero fun x hx ↦ ?_
  obtain ⟨r, hr, rfl⟩ := List.mem_map.mp hx
  exact h r.1 r.2 ((mem_toList t r.1 r.2).mp hr)

/-- The row of one key. -/
theorem rowSum_single (f : V → M) (t : Table V) (a : ℕ) :
    rowSum (fun k v ↦ if k = a then f v else 0) t = ((t[a]?).map f).getD 0 := by
  cases ha : t[a]? with
  | none =>
    refine rowSum_eq_zero fun k v hv ↦ if_neg ?_
    rintro rfl
    rw [ha] at hv
    cases hv
  | some v =>
    rw [rowSum_erase _ ha, if_pos rfl, rowSum_eq_zero, add_zero]
    · rfl
    · intro k w hw
      rw [getElem?_erase] at hw
      split at hw
      · cases hw
      · next hk => exact if_neg (Ne.symm hk)

theorem rowSum_sum {ι : Type} (S : Finset ι) (f : ι → ℕ → V → M) (t : Table V) :
    rowSum (fun k v ↦ ∑ i ∈ S, f i k v) t = ∑ i ∈ S, rowSum (f i) t := by
  classical
  induction S using Finset.induction_on with
  | empty => exact rowSum_zero t
  | insert i S hi ih =>
    simp only [Finset.sum_insert hi, rowSum_add, ih]

/-- Each row is counted once where the keys it is counted at are keys of the table. -/
theorem rowSum_fibers {e : ℕ → ℕ} (f : ℕ → V → M) {t : Table V}
    (h : ∀ (k : ℕ) v, t[k]? = some v → e k ∈ t) :
    rowSum (fun a _ ↦ rowSum (fun k v ↦ if e k = a then f k v else 0) t) t = rowSum f t := by
  have hswap := Multiset.sum_map_sum_map (t.toList : Multiset (ℕ × V)) (t.toList : Multiset (ℕ × V))
    (f := fun a r ↦ if e r.1 = a.1 then f r.1 r.2 else 0)
  simp only [Multiset.map_coe, Multiset.sum_coe] at hswap
  refine hswap.trans (congrArg List.sum (List.map_congr_left fun r hr ↦ ?_))
  obtain ⟨v, hv⟩ := (mem_iff_getElem? _ _).mp (h r.1 r.2 ((mem_toList t r.1 r.2).mp hr))
  have hsingle := rowSum_single (fun _ ↦ f r.1 r.2) t (e r.1)
  rw [hv] at hsingle
  simp only [eq_comm (a := e r.1)]
  exact hsingle

theorem rowSum_le {f g : ℕ → V → ℤ} {t : Table V}
    (h : ∀ (k : ℕ) v, t[k]? = some v → f k v ≤ g k v) : rowSum f t ≤ rowSum g t :=
  List.sum_le_sum fun r hr ↦ h r.1 r.2 ((mem_toList t r.1 r.2).mp hr)

theorem rowSum_nonneg {f : ℕ → V → ℤ} {t : Table V} (h : ∀ (k : ℕ) v, t[k]? = some v → 0 ≤ f k v) :
    0 ≤ rowSum f t := (rowSum_zero t).symm.le.trans (rowSum_le h)

end Sums

end Taiyi.Library.IdMap
