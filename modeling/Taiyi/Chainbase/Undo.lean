import Taiyi.Chainbase.Session

set_option autoImplicit false

namespace Taiyi.Chainbase.GenericIndex

open Taiyi.Library.IdMap Taiyi.Library.MultiIndex Taiyi.Library.Outcome

variable {V K : Type} {keys : List (ℕ → V → K)}

/-- `rows'` holds the listed values at their ids and agrees with `rows` elsewhere. -/
def Overwritten (items : List (ℕ × V)) (rows rows' : Table V) : Prop :=
  ∀ a : ℕ, (∀ v, (a, v) ∈ items → rows'[a]? = some v) ∧
    ((∀ v, (a, v) ∉ items) → rows'[a]? = rows[a]?)

theorem Overwritten.cons {items : List (ℕ × V)} {rows rows' : Table V} {id : ℕ} {v : V}
    (hs : ((id, v) :: items).Pairwise (fun r s ↦ r.1 < s.1))
    (h : Overwritten items (rows.insert id v) rows') :
    Overwritten ((id, v) :: items) rows rows' := by
  rw [List.pairwise_cons] at hs
  intro a
  obtain ⟨hin, hout⟩ := h a
  constructor
  · intro w hw
    rcases List.mem_cons.mp hw with he | hw
    · obtain ⟨rfl, rfl⟩ := Prod.mk.inj he
      rw [hout fun u hu ↦ Nat.lt_irrefl a (hs.1 (a, u) hu), getElem?_insert, if_pos rfl]
    · exact hin w hw
  · intro hn
    have hne : id ≠ a := by
      rintro rfl
      exact hn v List.mem_cons_self
    rw [hout fun u hu ↦ hn u (List.mem_cons_of_mem _ hu), getElem?_insert, if_neg hne]

theorem Overwritten.getElem? {m rows rows' : Table V} (h : Overwritten m.toList rows rows')
    (a : ℕ) : rows'[a]? = (m[a]?).or rows[a]? := by
  cases hm : m[a]? with
  | some v => exact (h a).1 v ((mem_toList m a v).mpr hm)
  | none =>
    refine (h a).2 fun v hv ↦ ?_
    rw [mem_toList, hm] at hv
    cases hv

theorem eraseNew_rows (ids : IdSet) (c : Container keys) (a : ℕ) :
    (eraseNew ids c).rows[a]? = if a ∈ ids then none else c.rows[a]? := by
  simp only [eraseNew, Std.ExtTreeSet.foldl_eq_foldl_toList, ← Std.ExtTreeSet.mem_toList (t := ids)]
  generalize ids.toList = l
  induction l generalizing c with
  | nil => simp
  | cons id l ih =>
    rw [List.foldl_cons, ih, Container.erase, getElem?_erase]
    by_cases ha : a ∈ l
    · simp [ha]
    · by_cases hi : id = a
      · simp [hi]
      · simp [ha, hi, Ne.symm hi]

/-- While the listed values are put back in ascending id order, the row `b` still holds a
key that the value to be put back at some other id needs. -/
def Blocked (keys : List (ℕ → V → K)) (items : List (ℕ × V)) (rows : Table V) : Prop :=
  ∃ a v b w, (a, v) ∈ items ∧ rows[b]? = some w ∧ b ≠ a ∧ (∀ u, (b, u) ∈ items → a < b) ∧
    ∃ key ∈ keys, key a v = key b w

/-- A row that exists now holds a unique key that another live row held at the opening, and
`undo` reaches the former owner first: the present holder was created in the session or has
the greater id. -/
def KeyHandover (before after : GenericIndex keys) : Prop :=
  ∃ a v b w, before.indices.rows[a]? = some v ∧ a ∈ after.indices.rows ∧
    after.indices.rows[b]? = some w ∧ b ≠ a ∧ (b ∉ before.indices.rows ∨ a < b) ∧
    ∃ key ∈ keys, key a v = key b w

theorem InSession.blocked_iff {g g' : GenericIndex keys} {st : UndoState V}
    (h : InSession g g' st) :
    Blocked keys st.oldValues.toList g'.indices.rows ↔ KeyHandover g g' := by
  have hold : ∀ a v, (a, v) ∈ st.oldValues.toList →
      g.indices.rows[a]? = some v ∧ a ∈ g'.indices.rows := by
    intro a v ha
    rw [mem_toList, h.disjoint.oldValues_eq] at ha
    have hd := h.describes a
    rw [ha] at hd
    refine ⟨hd.1, ?_⟩
    rw [Std.ExtTreeMap.mem_iff_isSome_getElem?]
    exact Option.isSome_iff_ne_none.mpr hd.2
  constructor
  · rintro ⟨a, v, b, w, ha, hw, hba, hlater, key, hk, he⟩
    obtain ⟨hv, hin⟩ := hold a v ha
    refine ⟨a, v, b, w, hv, hin, hw, hba, ?_, key, hk, he⟩
    by_contra hn
    obtain ⟨hb, hlt⟩ := not_or.mp hn
    rw [not_not, mem_iff_getElem?] at hb
    obtain ⟨x, hx⟩ := hb
    have hd := h.describes b
    rw [hx, hw] at hd
    cases hm : st.mark b with
    | nop =>
      rw [hm] at hd
      cases hd
      exact g.indices.unique a b v w hv hx hba.symm key hk he
    | new => simp [hm, Mark.Describes] at hd
    | upd was =>
      exact hlt (hlater was ((mem_toList _ _ _).mpr ((h.disjoint.oldValues_eq was).mpr hm)))
    | del was => simp [hm, Mark.Describes] at hd
  · rintro ⟨a, v, b, w, hv, hin, hw, hba, hlater, key, hk, he⟩
    refine ⟨a, v, b, w, ?_, hw, hba, fun u hu ↦ ?_, key, hk, he⟩
    · rw [mem_toList, h.disjoint.oldValues_eq]
      have hd := h.describes a
      obtain ⟨u, hu⟩ := (mem_iff_getElem? _ _).mp hin
      rw [hv, hu] at hd
      cases hm : st.mark a with
      | nop =>
        rw [hm] at hd
        cases hd
        exact absurd he (g'.indices.unique a b v w hu hw hba.symm key hk)
      | new => simp [hm, Mark.Describes] at hd
      | upd was =>
        rw [hm] at hd
        rw [Option.some.inj hd.1]
      | del was => simp [hm, Mark.Describes] at hd
    · rcases hlater with hb | hlt
      · exact absurd ((mem_iff_getElem? _ _).mpr ⟨u, (hold b u hu).1⟩) hb
      · exact hlt

variable [DecidableEq K]

instance (before after : GenericIndex keys) : Decidable (KeyHandover before after) :=
  decidable_of_iff (∃ r ∈ before.indices.rows.toList, r.1 ∈ after.indices.rows ∧
      ∃ s ∈ after.indices.rows.toList, s.1 ≠ r.1 ∧
        (s.1 ∉ before.indices.rows ∨ r.1 < s.1) ∧ ∃ key ∈ keys, key r.1 r.2 = key s.1 s.2) <| by
    simp only [KeyHandover, Prod.exists, mem_toList]
    constructor
    · rintro ⟨a, v, hv, ha, b, w, hw, h⟩
      exact ⟨a, v, b, w, hv, ha, hw, h⟩
    · rintro ⟨a, v, b, w, hv, ha, hw, h⟩
      exact ⟨a, v, hv, ha, b, w, hw, h⟩

theorem blocked_cons {id : ℕ} {v : V} {items : List (ℕ × V)} {rows : Table V}
    (hs : ((id, v) :: items).Pairwise (fun r s ↦ r.1 < s.1))
    (hu : ∀ a u, (a, u) ∈ items → ∀ key ∈ keys, key a u ≠ key id v) :
    Blocked keys ((id, v) :: items) rows ↔
      collides keys rows id v = true ∨ Blocked keys items (rows.insert id v) := by
  rw [List.pairwise_cons] at hs
  rw [collides_iff]
  constructor
  · rintro ⟨a, u, b, w, ha, hw, hba, hlater, key, hk, he⟩
    rcases List.mem_cons.mp ha with heq | ha
    · obtain ⟨rfl, rfl⟩ := Prod.mk.inj heq
      exact .inl ⟨b, w, hw, hba, key, hk, he⟩
    · have hid : id < a := hs.1 _ ha
      have hne : id ≠ b := by
        rintro rfl
        exact absurd (hlater v List.mem_cons_self) (by omega)
      refine .inr ⟨a, u, b, w, ha, ?_, hba, fun t ht ↦ ?_, key, hk, he⟩
      · rw [getElem?_insert, if_neg hne, hw]
      · exact hlater t (List.mem_cons_of_mem _ ht)
  · rintro (⟨b, w, hw, hb, key, hk, he⟩ | ⟨a, u, b, w, ha, hw, hba, hlater, key, hk, he⟩)
    · refine ⟨id, v, b, w, List.mem_cons_self, hw, hb, fun t ht ↦ ?_, key, hk, he⟩
      rcases List.mem_cons.mp ht with heq | ht
      · exact absurd (Prod.mk.inj heq).1 hb
      · exact hs.1 _ ht
    · have hne : id ≠ b := by
        rintro rfl
        rw [getElem?_insert, if_pos rfl] at hw
        cases hw
        exact hu a u ha key hk he
      rw [getElem?_insert, if_neg hne] at hw
      refine ⟨a, u, b, w, List.mem_cons_of_mem _ ha, hw, hba, fun t ht ↦ ?_, key, hk, he⟩
      rcases List.mem_cons.mp ht with heq | ht
      · exact absurd (Prod.mk.inj heq).1.symm hne
      · exact hlater t ht

/-- The first loop of `undo` throws exactly when it is blocked, and else overwrites. -/
theorem restoreOld_spec {items : List (ℕ × V)} (hs : items.Pairwise (fun r s ↦ r.1 < s.1))
    (hu : ∀ a u b w, (a, u) ∈ items → (b, w) ∈ items → a ≠ b →
      ∀ key ∈ keys, key a u ≠ key b w)
    (c : Container keys) (hin : ∀ a u, (a, u) ∈ items → a ∈ c.rows) :
    (Blocked keys items c.rows → ∃ d, restoreOld items c = .error d) ∧
      (¬ Blocked keys items c.rows →
        ∃ d, restoreOld items c = .ok d ∧ Overwritten items c.rows d.rows) := by
  induction items generalizing c with
  | nil => simp [Blocked, restoreOld, Overwritten]
  | cons r items ih =>
    obtain ⟨id, v⟩ := r
    have hs' := List.pairwise_cons.mp hs
    have htail := ih hs'.2
      (fun a u b w ha hb ↦ hu a u b w (List.mem_cons_of_mem _ ha) (List.mem_cons_of_mem _ hb))
    have hv : ∀ a u, (a, u) ∈ items → ∀ key ∈ keys, key a u ≠ key id v := fun a u ha ↦
      hu a u id v (List.mem_cons_of_mem _ ha) List.mem_cons_self
        (Nat.ne_of_gt (hs'.1 _ ha))
    rw [blocked_cons hs hv, restoreOld, if_pos (hin id v List.mem_cons_self)]
    cases hc : collides keys c.rows id v with
    | true => simp [modify_of_collides hc]
    | false =>
      obtain ⟨d, hd, hr⟩ := modify_of_free hc
      obtain ⟨hbad, hgood⟩ := htail d fun a u ha ↦ by
        rw [hr, mem_insert]
        exact .inr (hin a u (List.mem_cons_of_mem _ ha))
      rw [hr] at hbad hgood
      simp only [hd, Bool.false_eq_true, false_or]
      refine ⟨hbad, fun hn ↦ ?_⟩
      obtain ⟨e, he, ho⟩ := hgood hn
      exact ⟨e, he, ho.cons hs⟩

/-- Values taken from rows that satisfy the unique keys can always be put back into a
part of those rows. -/
theorem restoreRemoved_spec {target : Table V} (ht : Unique keys target)
    {items : List (ℕ × V)} (hs : items.Pairwise (fun r s ↦ r.1 < s.1))
    (hitems : ∀ a v, (a, v) ∈ items → target[a]? = some v) (c : Container keys)
    (hsub : ∀ (a : ℕ) v, c.rows[a]? = some v → target[a]? = some v)
    (hout : ∀ a v, (a, v) ∈ items → a ∉ c.rows) :
    ∃ d, restoreRemoved items c = .ok d ∧ Overwritten items c.rows d.rows := by
  induction items generalizing c with
  | nil => exact ⟨c, rfl, by simp [Overwritten]⟩
  | cons r items ih =>
    obtain ⟨id, v⟩ := r
    have hs' := List.pairwise_cons.mp hs
    have hid := hitems id v List.mem_cons_self
    have hfree : collides keys c.rows id v = false := by
      rw [Bool.eq_false_iff]
      intro hc
      obtain ⟨b, w, hw, hb, key, hk, he⟩ := (collides_iff _ _ _).mp hc
      exact ht id b v w hid (hsub b w hw) hb.symm key hk he
    obtain ⟨d, hd, hr⟩ := emplace_of_free (hout id v List.mem_cons_self) hfree
    obtain ⟨e, he, ho⟩ := ih hs'.2 (fun a u ha ↦ hitems a u (List.mem_cons_of_mem _ ha)) d
      (fun a u hu ↦ by
        rw [hr, getElem?_insert] at hu
        split at hu
        · next h => rw [← h, hid, hu]
        · exact hsub a u hu)
      (fun a u ha ↦ by
        rw [hr, mem_insert]
        rintro (rfl | hin)
        · exact Nat.lt_irrefl id (hs'.1 (id, u) ha)
        · exact hout a u (List.mem_cons_of_mem _ ha) hin)
    refine ⟨e, ?_, (hr ▸ ho).cons hs⟩
    simp only [restoreRemoved, hd, he]

/-- After the first two loops nothing stands in the way of the removed values, and the rows
are those at the opening. -/
theorem InSession.restored {g g' : GenericIndex keys} {st : UndoState V}
    (h : InSession g g' st) {c : Container keys}
    (hc : Overwritten st.oldValues.toList g'.indices.rows c.rows) :
    restoreRemoved st.removedValues.toList (eraseNew st.newIds c) = .ok g.indices := by
  have hrow : ∀ a : ℕ, (eraseNew st.newIds c).rows[a]? =
      (st.mark a).overwritten (g'.indices.rows[a]?) := by
    intro a
    rw [eraseNew_rows, hc.getElem?]
    have he := (UndoState.disjoint_iff st).mp h.disjoint a
    cases hm : st.mark a <;> rw [hm] at he <;>
      simp_all [Mark.overwritten, UndoState.entry, UndoState.markEntry]
  have hd := h.describes
  obtain ⟨d, hd', ho⟩ := restoreRemoved_spec g.indices.unique (ids_sorted st.removedValues)
    (fun a v ha ↦ by
      have := hd a
      rw [mem_toList, h.disjoint.removedValues_eq] at ha
      rw [ha] at this
      exact this.1)
    (eraseNew st.newIds c)
    (fun a v hv ↦ by
      have := hd a
      rw [hrow] at hv
      cases hm : st.mark a <;> simp_all [Mark.overwritten, Mark.Describes])
    (fun a v ha ↦ by
      have := hd a
      rw [mem_toList, h.disjoint.removedValues_eq] at ha
      rw [mem_iff_getElem?, hrow]
      simp_all [Mark.overwritten, Mark.Describes])
  rw [hd']
  congr 1
  ext1 a
  rw [ho.getElem?, hrow]
  have := hd a
  have he := (UndoState.disjoint_iff st).mp h.disjoint a
  cases hm : st.mark a <;> simp_all [Mark.overwritten, Mark.Describes, UndoState.entry, UndoState.markEntry]

theorem InSession.undo_spec {g g' : GenericIndex keys} {st : UndoState V}
    (h : InSession g g' st) :
    (KeyHandover g g' → ∃ d, undo.run g' = .error couldNotModify d) ∧
      (¬ KeyHandover g g' → undo.run g' = .ok ⟨⟩ g) := by
  have hu : ∀ a u b w, (a, u) ∈ st.oldValues.toList → (b, w) ∈ st.oldValues.toList → a ≠ b →
      ∀ key ∈ keys, key a u ≠ key b w := by
    intro a u b w ha hb hab
    rw [mem_toList, h.disjoint.oldValues_eq] at ha hb
    have hda := h.describes a
    have hdb := h.describes b
    rw [ha] at hda
    rw [hb] at hdb
    exact g.indices.unique a b u w hda.1 hdb.1 hab
  obtain ⟨hbad, hgood⟩ := restoreOld_spec (ids_sorted st.oldValues) hu g'.indices
    (fun a u ha ↦ by
      have hd := h.describes a
      rw [mem_toList, h.disjoint.oldValues_eq] at ha
      rw [ha] at hd
      rw [Std.ExtTreeMap.mem_iff_isSome_getElem?]
      exact Option.isSome_iff_ne_none.mpr hd.2)
  rw [h.blocked_iff] at hbad hgood
  constructor
  · intro hk
    obtain ⟨d, hd⟩ := hbad hk
    exact ⟨{ g' with indices := d }, by simp only [EStateM.run, undo, h.stack, hd]⟩
  · intro hk
    obtain ⟨c, hc, ho⟩ := hgood hk
    simp only [EStateM.run, undo, h.stack, hc, h.restored ho, h.revision, h.oldNextId,
      Int.add_sub_cancel]

/-- For every content and every session of successful calls, `undo` gives back the index as
it was at the opening exactly when no live key was handed over. -/
theorem undo_restores_iff {g g' : GenericIndex keys} (hg : g.Fresh) (ops : List (Operation V))
    (hr : (run ops).run g.startUndoSession = .ok ⟨⟩ g') :
    undo.run g' = .ok ⟨⟩ g ↔ ¬ KeyHandover g g' := by
  obtain ⟨st, h⟩ := (inSession_start hg).run hg hr
  refine ⟨fun hu hk ↦ ?_, h.undo_spec.2⟩
  obtain ⟨d, hd⟩ := h.undo_spec.1 hk
  rw [hu] at hd
  cases hd

section Handover

/-- One unique index, on the object's only field. -/
def byName : List (ℕ → ℕ → ℕ) := [fun _ name ↦ name]

def holder : GenericIndex byName :=
  ⟨[], 0, 1, ⟨(∅ : Table ℕ).insert 0 1, by
    intro a b v w hv hw hab
    simp only [getElem?_insert, Std.ExtTreeMap.getElem?_empty] at hv hw
    split at hv <;> split at hw <;> simp_all⟩⟩

theorem holder_fresh : holder.Fresh := by
  intro a ha
  simp_all [holder]

/-- Renaming an object and creating another under the freed name is a session of successful
calls that `undo` cannot take back. -/
theorem undo_throws_on_handover :
    ∃ g g' : GenericIndex byName, g.Fresh ∧
      (run [.modify 0 fun _ ↦ 2, .create fun _ ↦ 1]).run g.startUndoSession = .ok ⟨⟩ g' ∧
      ∃ d, undo.run g' = .error couldNotModify d :=
  ⟨holder, _, holder_fresh, rfl, _, rfl⟩

theorem undo_restores_removed_and_created :
    ∃ g g' : GenericIndex byName,
      (run [.remove 0, .create fun _ ↦ 1]).run g.startUndoSession = .ok ⟨⟩ g' ∧
      undo.run g' = .ok ⟨⟩ g :=
  ⟨holder, _, rfl, (undo_restores_iff holder_fresh [.remove 0, .create fun _ ↦ 1] rfl).mpr
    (by decide)⟩

end Handover

end Taiyi.Chainbase.GenericIndex
