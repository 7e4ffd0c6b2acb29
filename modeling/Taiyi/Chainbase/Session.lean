import Taiyi.Chainbase.Mark
import Taiyi.Library.Outcome

set_option autoImplicit false

namespace Taiyi.Chainbase.GenericIndex

open Taiyi.Library.IdMap Taiyi.Library.MultiIndex Taiyi.Library.Outcome

variable {V K : Type} {keys : List (ℕ → V → K)}

/-- Every assigned id is below the next one. -/
def Fresh (g : GenericIndex keys) : Prop := ∀ a ∈ g.indices.rows, a < g.nextId

/-- The hook a successful call runs on the open session, and the next id and rows it leaves. -/
inductive Effect (g : GenericIndex keys) :
    (UndoState V → UndoState V) → ℕ → Container keys → Prop
  | create (v : V) (c : Container keys) (hid : g.nextId ∉ g.indices.rows)
      (hc : c.rows = g.indices.rows.insert g.nextId v) :
      Effect g (fun head ↦ head.onCreate g.nextId) (g.nextId + 1) c
  | modify (id : ℕ) (v w : V) (c : Container keys) (hv : g.indices.rows[id]? = some v)
      (hc : c.rows = g.indices.rows.insert id w) :
      Effect g (fun head ↦ head.onModify id v) g.nextId c
  | remove (id : ℕ) (v : V) (hv : g.indices.rows[id]? = some v) :
      Effect g (fun head ↦ head.onRemove id v) g.nextId (g.indices.erase id)

def applied (g : GenericIndex keys) (hook : UndoState V → UndoState V) (next : ℕ)
    (c : Container keys) : GenericIndex keys :=
  { g.record hook with nextId := next, indices := c }

theorem Effect.fresh {g : GenericIndex keys} (hg : g.Fresh) {hook : UndoState V → UndoState V}
    {next : ℕ} {c : Container keys} (he : Effect g hook next c) :
    (g.applied hook next c).Fresh := by
  intro a ha
  simp only [applied] at ha ⊢
  cases he with
  | create v c hid hc =>
    rw [hc, mem_insert] at ha
    rcases ha with rfl | ha
    · exact Nat.lt_succ_self _
    · exact Nat.lt_succ_of_lt (hg a ha)
  | modify id v w c hv hc =>
    rw [hc, mem_insert] at ha
    rcases ha with rfl | ha
    · exact hg _ ((mem_iff_getElem? _ _).mpr ⟨v, hv⟩)
    · exact hg a ha
  | remove id v hv => exact hg a (Std.ExtTreeMap.mem_of_mem_erase ha)

/-- `g'` was reached from `g` by opening one session, whose record is `st`. -/
structure InSession (g g' : GenericIndex keys) (st : UndoState V) : Prop where
  stack : g'.stack = st :: g.stack
  revision : g'.revision = g.revision + 1
  recordRevision : st.revision = g.revision + 1
  oldNextId : st.oldNextId = g.nextId
  nextId : g.nextId ≤ g'.nextId
  fresh : g'.Fresh
  disjoint : st.Disjoint
  created : ∀ a, st.mark a = .new → g.nextId ≤ a
  describes : ∀ a : ℕ, (st.mark a).Describes g.indices.rows[a]? g'.indices.rows[a]?

theorem InSession.mark_ne_del {g g' : GenericIndex keys} {st : UndoState V}
    (h : InSession g g' st) {id : ℕ} {v : V} (hv : g'.indices.rows[id]? = some v) (was : V) :
    st.mark id ≠ .del was := by
  intro hm
  have hd := h.describes id
  rw [hm, hv] at hd
  cases hd.2

theorem InSession.mark_next {g g' : GenericIndex keys} {st : UndoState V}
    (h : InSession g g' st) (hg : g.Fresh) : st.mark g'.nextId = .nop := by
  have hd := h.describes g'.nextId
  have hout : g'.indices.rows[g'.nextId]? = none :=
    Std.ExtTreeMap.getElem?_eq_none fun hin ↦ Nat.lt_irrefl _ (h.fresh _ hin)
  have hbefore : g.indices.rows[g'.nextId]? = none :=
    Std.ExtTreeMap.getElem?_eq_none fun hin ↦
      Nat.lt_irrefl _ (Nat.lt_of_lt_of_le (hg _ hin) h.nextId)
  rw [hout, hbefore] at hd
  cases hm : st.mark g'.nextId <;> simp_all [Mark.Describes]

/-- Every successful call keeps the record of the open session accurate. -/
theorem InSession.applied {g g' : GenericIndex keys} {st : UndoState V} (h : InSession g g' st)
    (hg : g.Fresh) {hook : UndoState V → UndoState V} {next : ℕ} {c : Container keys}
    (he : Effect g' hook next c) : InSession g (g'.applied hook next c) (hook st) := by
  have hstack : (g'.applied hook next c).stack = hook st :: g.stack := by
    simp only [GenericIndex.applied, record, h.stack, UndoState.onHead]
  have hd := h.describes
  have hfresh := he.fresh h.fresh
  cases he with
  | create v c hid hc =>
    obtain ⟨hdis, hmark⟩ := UndoState.onCreate_mark _ h.disjoint (h.mark_next hg)
    refine ⟨hstack, h.revision, h.recordRevision, h.oldNextId, ?_, hfresh, hdis, fun a ↦ ?_, fun a ↦ ?_⟩
    · exact Nat.le_succ_of_le h.nextId
    · rw [hmark]
      split
      · next ha => exact fun _ ↦ ha ▸ h.nextId
      · exact h.created a
    · simp only [hmark, GenericIndex.applied, hc, getElem?_insert]
      split
      · next ha =>
        subst ha
        have hm := hd g'.nextId
        rw [h.mark_next hg, Std.ExtTreeMap.getElem?_eq_none hid] at hm
        exact ⟨hm, Option.some_ne_none v⟩
      · exact hd a
  | modify id v w c hv hc =>
    obtain ⟨hdis, hmark⟩ := UndoState.onModify_mark id v h.disjoint (h.mark_ne_del hv)
    refine ⟨hstack, h.revision, ?_, ?_, h.nextId, hfresh, hdis, fun a ↦ ?_, fun a ↦ ?_⟩
    · rw [UndoState.onModify_revision, h.recordRevision]
    · rw [UndoState.onModify_oldNextId, h.oldNextId]
    · rw [hmark]
      split
      · next ha =>
        rw [Mark.modified_eq_new]
        exact ha ▸ h.created id
      · exact h.created a
    · simp only [hmark, GenericIndex.applied, hc, getElem?_insert]
      split
      · next ha =>
        have hm := hd id
        rw [hv] at hm
        exact ha ▸ hm.modified w
      · exact hd a
  | remove id v hv =>
    obtain ⟨hdis, hmark⟩ := UndoState.onRemove_mark id v h.disjoint (h.mark_ne_del hv)
    refine ⟨hstack, h.revision, ?_, ?_, h.nextId, hfresh, hdis, fun a ↦ ?_, fun a ↦ ?_⟩
    · rw [UndoState.onRemove_revision, h.recordRevision]
    · rw [UndoState.onRemove_oldNextId, h.oldNextId]
    · rw [hmark]
      split
      · exact fun hk ↦ absurd hk (Mark.removed_ne_new _ v)
      · exact h.created a
    · simp only [hmark, GenericIndex.applied, Container.erase, getElem?_erase]
      split
      · next ha =>
        have hm := hd id
        rw [hv] at hm
        exact ha ▸ hm.removed
      · exact hd a

theorem inSession_start {g : GenericIndex keys} (hg : g.Fresh) :
    InSession g g.startUndoSession ⟨∅, ∅, ∅, g.nextId, g.revision + 1⟩ where
  stack := rfl
  revision := rfl
  recordRevision := rfl
  oldNextId := rfl
  nextId := Nat.le_refl _
  fresh := hg
  disjoint := by simp [UndoState.Disjoint]
  created a := by simp [UndoState.mark, UndoState.entry, UndoState.entryMark]
  describes a := by
    simp [UndoState.mark, UndoState.entry, UndoState.entryMark, Mark.Describes, startUndoSession]

variable [DecidableEq K]

/-- A call consults only the next id and the rows, never the undo stack. -/
theorem call_ok {g h g' : GenericIndex keys} {op : Operation V}
    (hn : g.nextId = h.nextId) (hi : g.indices = h.indices) (hc : op.call.run g = .ok ⟨⟩ g') :
    ∃ hook next c, Effect g hook next c ∧ g' = g.applied hook next c ∧
      op.call.run h = .ok ⟨⟩ (h.applied hook next c) := by
  cases op with
  | create c =>
    simp only [Operation.call, EStateM.run, emplace, ← hn, ← hi] at hc ⊢
    split at hc
    · cases hc
    · next d hd =>
      obtain ⟨hid, -, hr⟩ := emplace_eq_some_iff.mp hd
      simp only [EStateM.Result.ok.injEq, true_and] at hc
      exact ⟨_, _, d, .create (c g.nextId) d hid hr, hc.symm, rfl⟩
  | modify id m =>
    simp only [Operation.call, EStateM.run, modify, ← hi] at hc ⊢
    split at hc
    · cases hc
    · next v hv =>
      split at hc
      · next d hd =>
        obtain ⟨-, hr⟩ := modify_eq_true_iff.mp hd
        simp only [EStateM.Result.ok.injEq, true_and] at hc
        exact ⟨_, _, d, .modify id v (m v) d hv hr, hc.symm, by rw [hn]; rfl⟩
      · cases hc
  | remove id =>
    simp only [Operation.call, EStateM.run, remove, ← hi] at hc ⊢
    split at hc
    · cases hc
    · next v hv =>
      simp only [EStateM.Result.ok.injEq, true_and] at hc
      exact ⟨_, _, _, .remove id v hv, hc.symm, by rw [hn]; rfl⟩

theorem fresh_call {g g' : GenericIndex keys} (hg : g.Fresh) {op : Operation V}
    (hc : op.call.run g = .ok ⟨⟩ g') : g'.Fresh := by
  obtain ⟨hook, next, c, he, rfl, -⟩ := call_ok rfl rfl hc
  exact he.fresh hg

/-- Ids stay below the next one in every run of successful calls. -/
theorem fresh_run {g g' : GenericIndex keys} (hg : g.Fresh) {ops : List (Operation V)}
    (hr : (run ops).run g = .ok ⟨⟩ g') : g'.Fresh :=
  forM_preserves Fresh (fun _ _ _ hg hc ↦ fresh_call hg hc) hg hr

theorem InSession.call {g g' g'' : GenericIndex keys} {st : UndoState V} (h : InSession g g' st)
    (hg : g.Fresh) {op : Operation V} (hc : op.call.run g' = .ok ⟨⟩ g'') :
    ∃ st', InSession g g'' st' := by
  obtain ⟨hook, next, c, he, rfl, -⟩ := call_ok rfl rfl hc
  exact ⟨hook st, h.applied hg he⟩

theorem InSession.run {g g' g'' : GenericIndex keys} {st : UndoState V} {ops : List (Operation V)}
    (h : InSession g g' st) (hg : g.Fresh) (hr : (GenericIndex.run ops).run g' = .ok ⟨⟩ g'') :
    ∃ st', InSession g g'' st' :=
  forM_preserves (fun h ↦ ∃ st, InSession g h st)
    (fun _ _ _ ⟨_, h⟩ hc ↦ h.call hg hc) ⟨st, h⟩ hr

end Taiyi.Chainbase.GenericIndex
