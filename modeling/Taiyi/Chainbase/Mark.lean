import Taiyi.Chainbase.GenericIndex

set_option autoImplicit false

namespace Taiyi.Chainbase

open Taiyi.Library.IdMap

/-- The relationship of one object to a recorded session. -/
inductive Mark (V : Type)
  | nop
  | new
  | upd (was : V)
  | del (was : V)

variable {V : Type}

namespace Mark

/-- What a session with this mark did to an object, from its value before to its value after. -/
def Describes : Mark V → Option V → Option V → Prop
  | nop, before, after => before = after
  | new, before, after => before = none ∧ after ≠ none
  | upd was, before, after => before = some was ∧ after ≠ none
  | del was, before, after => before = some was ∧ after = none

/-- The matrix of an outer session followed by an inner one; the cells that violate causal
timing have no entry. -/
def compose : Mark V → Mark V → Option (Mark V)
  | nop, b => some b
  | new, nop => some new
  | new, upd _ => some new
  | new, del _ => some nop
  | new, new => none
  | upd was, nop => some (upd was)
  | upd was, upd _ => some (upd was)
  | upd was, del _ => some (del was)
  | upd _, new => none
  | del was, nop => some (del was)
  | del _, _ => none

/-- The effect of the three hooks on the mark of the object they concern. -/
def created (_ : Mark V) : Mark V := new

def modified (v : V) : Mark V → Mark V
  | nop => upd v
  | m => m

def removed (v : V) : Mark V → Mark V
  | new => nop
  | upd was => del was
  | _ => del v

/-- What an undo leaves of a row before it puts back the removed ones. -/
def overwritten (now : Option V) : Mark V → Option V
  | new => none
  | upd was => some was
  | _ => now

theorem modified_eq_new {m : Mark V} {v : V} : m.modified v = new ↔ m = new := by
  cases m <;> simp [modified]

theorem removed_ne_new (m : Mark V) (v : V) : m.removed v ≠ new := by
  cases m <;> simp [removed]

theorem Describes.modified {m : Mark V} {before : Option V} {v : V}
    (h : m.Describes before (some v)) (w : V) : (m.modified v).Describes before (some w) := by
  cases m <;> simp_all [Describes, Mark.modified]

theorem Describes.removed {m : Mark V} {before : Option V} {v : V}
    (h : m.Describes before (some v)) : (m.removed v).Describes before none := by
  cases m <;> simp_all [Describes, Mark.removed]

theorem compose_created {a b : Mark V} (h : a.compose b = some nop) (hb : b = nop) :
    a.compose b.created = some (created nop) := by
  subst hb
  cases a <;> simp_all [compose, created]

theorem compose_modified {a b c : Mark V} (v : V) (h : a.compose b = some c)
    (hb : ∀ was, b ≠ del was) (hc : ∀ was, c ≠ del was) :
    a.compose (b.modified v) = some (c.modified v) := by
  cases a <;> cases b <;> cases h <;> simp_all [compose, modified]

theorem compose_removed {a b c : Mark V} (v : V) (h : a.compose b = some c)
    (hb : ∀ was, b ≠ del was) (hc : ∀ was, c ≠ del was) :
    a.compose (b.removed v) = some (c.removed v) := by
  cases a <;> cases b <;> cases h <;> simp_all [compose, removed]

theorem compose_describes {a b : Mark V} {before mid after : Option V}
    (ha : a.Describes before mid) (hb : b.Describes mid after) :
    (∃ c, a.compose b = some c ∧ c.Describes before after) ∨
      ∃ was, a = del was ∧ b = new := by
  cases a <;> cases b <;> simp_all [Describes, compose]

end Mark

namespace UndoState

/-- What a session holds about one id. -/
def entry (st : UndoState V) (a : ℕ) : Bool × Option V × Option V :=
  (decide (a ∈ st.newIds), st.oldValues[a]?, st.removedValues[a]?)

def entryMark : Bool × Option V × Option V → Mark V
  | (true, _, _) => .new
  | (false, some was, _) => .upd was
  | (false, none, some was) => .del was
  | (false, none, none) => .nop

def mark (st : UndoState V) (a : ℕ) : Mark V := entryMark (st.entry a)

/-- The three containers of a session share no id. -/
def Disjoint (st : UndoState V) : Prop :=
  ∀ a, (a ∈ st.newIds → a ∉ st.oldValues ∧ a ∉ st.removedValues) ∧
    (a ∈ st.oldValues → a ∉ st.removedValues)

def markEntry : Mark V → Bool × Option V × Option V
  | .new => (true, none, none)
  | .upd was => (false, some was, none)
  | .del was => (false, none, some was)
  | .nop => (false, none, none)

theorem disjoint_iff (st : UndoState V) :
    st.Disjoint ↔ ∀ a, st.entry a = markEntry (st.mark a) := by
  refine forall_congr' fun a ↦ ?_
  simp only [mem_iff_getElem?]
  by_cases hn : a ∈ st.newIds <;> cases ho : st.oldValues[a]? <;>
    cases hr : st.removedValues[a]? <;> simp [mark, entry, entryMark, markEntry, hn, ho, hr]

theorem ext_entry {st st' : UndoState V} (h : ∀ a, st.entry a = st'.entry a)
    (hi : st.oldNextId = st'.oldNextId) (hr : st.revision = st'.revision) : st = st' := by
  obtain ⟨old, removed, news, next, rev⟩ := st
  obtain ⟨old', removed', news', next', rev'⟩ := st'
  simp only [entry, Prod.mk.injEq, decide_eq_decide] at h hi hr
  obtain rfl : old = old' := Std.ExtTreeMap.ext_getElem? fun a ↦ (h a).2.1
  obtain rfl : removed = removed' := Std.ExtTreeMap.ext_getElem? fun a ↦ (h a).2.2
  obtain rfl : news = news' := Std.ExtTreeSet.ext_mem fun a ↦ (h a).1
  subst hi hr
  rfl

theorem Disjoint.ext {st st' : UndoState V} (hd : st.Disjoint) (hd' : st'.Disjoint)
    (h : ∀ a, st.mark a = st'.mark a) (hi : st.oldNextId = st'.oldNextId)
    (hr : st.revision = st'.revision) : st = st' := by
  refine ext_entry (fun a ↦ ?_) hi hr
  rw [(disjoint_iff st).mp hd, (disjoint_iff st').mp hd', h]

variable {st : UndoState V} {a : ℕ}

theorem Disjoint.mem_newIds (hd : st.Disjoint) : a ∈ st.newIds ↔ st.mark a = .new := by
  have h := (disjoint_iff st).mp hd a
  cases hm : st.mark a <;> simp_all [entry, markEntry]

theorem Disjoint.oldValues_eq (hd : st.Disjoint) (was : V) :
    st.oldValues[a]? = some was ↔ st.mark a = .upd was := by
  have h := (disjoint_iff st).mp hd a
  cases hm : st.mark a <;> simp_all [entry, markEntry]

theorem Disjoint.removedValues_eq (hd : st.Disjoint) (was : V) :
    st.removedValues[a]? = some was ↔ st.mark a = .del was := by
  have h := (disjoint_iff st).mp hd a
  cases hm : st.mark a <;> simp_all [entry, markEntry]

theorem entryMark_markEntry (m : Mark V) : entryMark (markEntry m) = m := by
  cases m <;> rfl

theorem Disjoint.of_entry {st' : UndoState V} {m : ℕ → Mark V}
    (h : ∀ a, st'.entry a = markEntry (m a)) : st'.Disjoint ∧ ∀ a, st'.mark a = m a := by
  have hm : ∀ a, st'.mark a = m a := fun a ↦ by rw [mark, h, entryMark_markEntry]
  exact ⟨(disjoint_iff st').mpr fun a ↦ by rw [h, hm], hm⟩

section Hooks

@[simp]
theorem onModify_oldNextId (id : ℕ) (v : V) : (st.onModify id v).oldNextId = st.oldNextId := by
  unfold onModify
  split
  · rfl
  · split <;> rfl

@[simp]
theorem onModify_revision (id : ℕ) (v : V) : (st.onModify id v).revision = st.revision := by
  unfold onModify
  split
  · rfl
  · split <;> rfl

@[simp]
theorem onRemove_oldNextId (id : ℕ) (v : V) : (st.onRemove id v).oldNextId = st.oldNextId := by
  unfold onRemove
  split
  · rfl
  · split
    · rfl
    · split <;> rfl

@[simp]
theorem onRemove_revision (id : ℕ) (v : V) : (st.onRemove id v).revision = st.revision := by
  unfold onRemove
  split
  · rfl
  · split
    · rfl
    · split <;> rfl

variable (id : ℕ) (v : V)

theorem onCreate_mark (hd : st.Disjoint) (hm : st.mark id = .nop) :
    (st.onCreate id).Disjoint ∧
      ∀ a, (st.onCreate id).mark a = if id = a then (st.mark id).created else st.mark a := by
  refine Disjoint.of_entry fun a ↦ ?_
  have he := (disjoint_iff st).mp hd a
  by_cases h : id = a
  · subst h
    rw [hm] at he
    simp_all [onCreate, entry, markEntry, Mark.created]
  · rw [if_neg h, ← he]
    simp [onCreate, entry, h]

theorem onModify_mark (hd : st.Disjoint) (hm : ∀ was, st.mark id ≠ .del was) :
    (st.onModify id v).Disjoint ∧ ∀ a, (st.onModify id v).mark a =
      if id = a then (st.mark id).modified v else st.mark a := by
  refine Disjoint.of_entry fun a ↦ ?_
  have he := (disjoint_iff st).mp hd
  by_cases h : id = a
  · subst h
    rw [if_pos rfl]
    have hi := he id
    cases hk : st.mark id with
    | nop =>
      rw [hk] at hi
      obtain ⟨hn, ho, hr⟩ : id ∉ st.newIds ∧ id ∉ st.oldValues ∧ id ∉ st.removedValues := by
        simpa [entry, markEntry] using hi
      simp [onModify, entry, markEntry, Mark.modified, hn, ho, hr]
    | new =>
      rw [onModify, if_pos (hd.mem_newIds.mpr hk), hi, hk]
      simp [Mark.modified]
    | upd was =>
      have ho := (mem_iff_getElem? _ _).mpr ⟨was, (hd.oldValues_eq was).mpr hk⟩
      rw [onModify, if_pos ho, ite_self, hi, hk]
      simp [Mark.modified]
    | del was => exact absurd hk (hm was)
  · rw [if_neg h, ← he a]
    simp only [onModify]
    split
    · rfl
    · split
      · rfl
      · simp [entry, getElem?_insert, h]

theorem onRemove_mark (hd : st.Disjoint) (hm : ∀ was, st.mark id ≠ .del was) :
    (st.onRemove id v).Disjoint ∧ ∀ a, (st.onRemove id v).mark a =
      if id = a then (st.mark id).removed v else st.mark a := by
  refine Disjoint.of_entry fun a ↦ ?_
  have he := (disjoint_iff st).mp hd
  by_cases h : id = a
  · subst h
    rw [if_pos rfl]
    have hi := he id
    cases hk : st.mark id with
    | nop =>
      rw [hk] at hi
      obtain ⟨hn, ho, hr⟩ : id ∉ st.newIds ∧ id ∉ st.oldValues ∧ id ∉ st.removedValues := by
        simpa [entry, markEntry] using hi
      simp [onRemove, entry, markEntry, Mark.removed, hn, ho, hr]
    | new =>
      rw [hk] at hi
      obtain ⟨hn, ho, hr⟩ : id ∈ st.newIds ∧ id ∉ st.oldValues ∧ id ∉ st.removedValues := by
        simpa [entry, markEntry] using hi
      simp [onRemove, entry, markEntry, Mark.removed, hn, ho, hr]
    | upd was =>
      have hn : id ∉ st.newIds := by simp [hd.mem_newIds, hk]
      have hr : id ∉ st.removedValues := by
        simp [mem_iff_getElem?, hd.removedValues_eq, hk]
      simp only [onRemove, hn, (hd.oldValues_eq was).mpr hk, if_false, entry, markEntry, Mark.removed,
        getElem?_erase, if_true, Std.ExtTreeMap.getElem?_insertIfNew, hr, not_false_eq_true,
        Std.compare_self, and_self, decide_false]
    | del was => exact absurd hk (hm was)
  · rw [if_neg h, ← he a]
    simp only [onRemove]
    split
    · simp [entry, h]
    · split
      · simp [entry, h, getElem?_erase, Std.ExtTreeMap.getElem?_insertIfNew]
      · split
        · rfl
        · simp [entry, h, getElem?_insert]

end Hooks

end UndoState

end Taiyi.Chainbase
