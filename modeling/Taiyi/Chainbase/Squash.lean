import Taiyi.Chainbase.Undo

set_option autoImplicit false

namespace Taiyi.Chainbase

open Taiyi.Library.IdMap Taiyi.Library.MultiIndex Taiyi.Library.Outcome

variable {V K : Type}

namespace UndoState

open GenericIndex

/-- The first loop of `squash` at an id whose old value the inner session holds. -/
def oldEntry (v : V) : Bool × Option V × Option V → Bool × Option V × Option V
  | (false, none, r) => (false, some v, r)
  | e => e

/-- The last loop of `squash` at an id that the inner session removed. -/
def removedEntry (v : V) : Bool × Option V × Option V → Bool × Option V × Option V
  | (true, o, r) => (false, o, r)
  | (false, o, r) => (false, none, r.or (o.or (some v)))

theorem mergeOld_entry (prev : UndoState V) (a : ℕ) (v : V) :
    (mergeOld prev a v).entry a = oldEntry v (prev.entry a) := by
  unfold mergeOld
  by_cases hn : a ∈ prev.newIds
  · simp [hn, entry, oldEntry]
  · cases ho : prev.oldValues[a]? with
    | none =>
      have hm : a ∉ prev.oldValues := by simpa using ho
      simp only [hn, hm, if_false, entry, oldEntry, ho, decide_false, getElem?_insertIfNew,
        if_true, Option.none_or]
    | some w =>
      have hm : a ∈ prev.oldValues := (mem_iff_getElem? _ _).mpr ⟨w, ho⟩
      simp only [hn, hm, if_true, if_false, entry, oldEntry, ho, decide_false]

theorem mergeOld_entry_of_ne (prev : UndoState V) {a b : ℕ} (v : V) (hab : a ≠ b) :
    (mergeOld prev a v).entry b = prev.entry b := by
  unfold mergeOld
  split
  · rfl
  · split
    · rfl
    · simp [entry, Std.ExtTreeMap.getElem?_insertIfNew, hab]

theorem mergeRemoved_entry (prev : UndoState V) (a : ℕ) (v : V) :
    (mergeRemoved prev a v).entry a = removedEntry v (prev.entry a) := by
  unfold mergeRemoved
  by_cases hn : a ∈ prev.newIds
  · simp [hn, entry, removedEntry]
  · cases ho : prev.oldValues[a]? <;>
      simp only [hn, if_false, entry, removedEntry, ho, decide_false, getElem?_insertIfNew,
        getElem?_erase, if_true, Option.none_or, Option.some_or]

theorem mergeRemoved_entry_of_ne (prev : UndoState V) {a b : ℕ} (v : V) (hab : a ≠ b) :
    (mergeRemoved prev a v).entry b = prev.entry b := by
  unfold mergeRemoved
  split
  · simp [entry, hab]
  · split <;> simp [entry, Std.ExtTreeMap.getElem?_insertIfNew, getElem?_erase, hab]

theorem foldl_mergeNew (news : IdSet) (prev : UndoState V) :
    ∃ ids, news.foldl mergeNew prev = { prev with newIds := ids } := by
  rw [Std.ExtTreeSet.foldl_eq_foldl_toList]
  generalize news.toList = l
  induction l generalizing prev with
  | nil => exact ⟨prev.newIds, rfl⟩
  | cons a l ih => exact ih (mergeNew prev a)

theorem mergeNew_entry (news : IdSet) (prev : UndoState V) (a : ℕ) :
    (news.foldl mergeNew prev).entry a =
      (decide (a ∈ news) || (prev.entry a).1, (prev.entry a).2) := by
  simp only [Std.ExtTreeSet.foldl_eq_foldl_toList, ← Std.ExtTreeSet.mem_toList (t := news)]
  generalize news.toList = l
  induction l generalizing prev with
  | nil => simp
  | cons b l ih =>
    rw [List.foldl_cons, ih]
    by_cases hab : b = a
    · simp [mergeNew, entry, hab]
    · simp [mergeNew, entry, hab, Ne.symm hab]

theorem merge_entry (prev state : UndoState V) (a : ℕ) :
    (merge prev state).entry a =
      let old := match state.oldValues[a]? with
        | some v => oldEntry v (prev.entry a)
        | none => prev.entry a
      let new := (decide (a ∈ state.newIds) || old.1, old.2)
      match state.removedValues[a]? with
      | some v => removedEntry v new
      | none => new := by
  rw [merge, foldl_view (fun a (st : UndoState V) ↦ st.entry a) mergeRemoved
    (fun _ ↦ removedEntry) (fun st a ↦ mergeRemoved_entry st a)
    (fun st _ v _ ↦ mergeRemoved_entry_of_ne st v), mergeNew_entry,
    foldl_view (fun a (st : UndoState V) ↦ st.entry a) mergeOld (fun _ ↦ oldEntry)
    (fun st a ↦ mergeOld_entry st a) (fun st _ v _ ↦ mergeOld_entry_of_ne st v)] <;> rfl

/-- `squash` computes the matrix: every cell that can occur is the composition of the outer
session's mark and the inner one's. -/
theorem merge_mark {prev state : UndoState V} (hp : prev.Disjoint) (hs : state.Disjoint)
    {m : ℕ → Mark V} (hm : ∀ a, (prev.mark a).compose (state.mark a) = some (m a)) :
    (merge prev state).Disjoint ∧ ∀ a, (merge prev state).mark a = m a := by
  refine Disjoint.of_entry fun a ↦ ?_
  have h := hm a
  have hpe := (disjoint_iff prev).mp hp a
  have hse := (disjoint_iff state).mp hs a
  have hn : decide (a ∈ state.newIds) = (markEntry (state.mark a)).1 := congrArg (·.1) hse
  have ho : state.oldValues[a]? = (markEntry (state.mark a)).2.1 := congrArg (·.2.1) hse
  have hr : state.removedValues[a]? = (markEntry (state.mark a)).2.2 := congrArg (·.2.2) hse
  rw [merge_entry, hpe, hn, ho, hr]
  generalize m a = c at h ⊢
  cases hpm : prev.mark a <;> cases hsm : state.mark a <;> rw [hpm, hsm] at h <;>
    cases h <;> rfl

theorem merge_oldNextId (prev state : UndoState V) :
    (merge prev state).oldNextId = prev.oldNextId := by
  rw [merge, foldl_keeps oldNextId]
  obtain ⟨ids, h⟩ := foldl_mergeNew state.newIds (state.oldValues.foldl mergeOld prev)
  rw [h]
  change (state.oldValues.foldl mergeOld prev).oldNextId = _
  rw [foldl_keeps oldNextId]
  · exact fun s a v ↦ by unfold mergeOld; split <;> [rfl; split <;> rfl]
  · exact fun s a v ↦ by unfold mergeRemoved; split <;> [rfl; split <;> rfl]

theorem merge_revision (prev state : UndoState V) :
    (merge prev state).revision = prev.revision := by
  rw [merge, foldl_keeps revision]
  obtain ⟨ids, h⟩ := foldl_mergeNew state.newIds (state.oldValues.foldl mergeOld prev)
  rw [h]
  change (state.oldValues.foldl mergeOld prev).revision = _
  rw [foldl_keeps revision]
  · exact fun s a v ↦ by unfold mergeOld; split <;> [rfl; split <;> rfl]
  · exact fun s a v ↦ by unfold mergeRemoved; split <;> [rfl; split <;> rfl]

end UndoState

namespace GenericIndex

variable {keys : List (ℕ → V → K)} {g g₁ g₂ : GenericIndex keys} {outer inner : UndoState V}

theorem squash_of_cons {state prev : UndoState V} {rest : List (UndoState V)}
    (h : g.stack = state :: prev :: rest) :
    squash g = { g with stack := merge prev state :: rest, revision := g.revision - 1 } := by
  simp only [squash, h]

theorem InSession.stack_inner (h₁ : InSession g g₁ outer) (h₂ : InSession g₁ g₂ inner) :
    g₂.stack = inner :: outer :: g.stack := by
  rw [h₂.stack, h₁.stack]

theorem InSession.compose (hg : g.Fresh) (h₁ : InSession g g₁ outer)
    (h₂ : InSession g₁ g₂ inner) (a : ℕ) :
    ∃ c, (outer.mark a).compose (inner.mark a) = some c ∧
      c.Describes g.indices.rows[a]? g₂.indices.rows[a]? := by
  have hd₁ := h₁.describes a
  have hd₂ := h₂.describes a
  rcases Mark.compose_describes hd₁ hd₂ with h | ⟨was, hdel, hnew⟩
  · exact h
  · have hlt : a < g.nextId := by
      rw [hdel] at hd₁
      exact hg a ((mem_iff_getElem? _ _).mpr ⟨was, hd₁.1⟩)
    have hle := h₂.created a hnew
    have := h₁.nextId
    omega

/-- After `squash` the merged record describes the state before the outer session. -/
theorem InSession.squash (hg : g.Fresh) (h₁ : InSession g g₁ outer)
    (h₂ : InSession g₁ g₂ inner) :
    InSession g (squash g₂) (merge outer inner) ∧
      ∀ a, (outer.mark a).compose (inner.mark a) = some ((merge outer inner).mark a) := by
  choose m hm hdesc using h₁.compose hg h₂
  obtain ⟨hdis, hmark⟩ := UndoState.merge_mark h₁.disjoint h₂.disjoint hm
  refine ⟨?_, fun a ↦ by rw [hm, hmark]⟩
  rw [squash_of_cons (h₁.stack_inner h₂)]
  refine ⟨rfl, ?_, ?_, ?_, ?_, h₂.fresh, hdis, fun a ha ↦ ?_, fun a ↦ ?_⟩
  · change g₂.revision - 1 = g.revision + 1
    rw [h₂.revision, h₁.revision, Int.add_sub_cancel]
  · rw [UndoState.merge_revision, h₁.recordRevision]
  · rw [UndoState.merge_oldNextId, h₁.oldNextId]
  · exact Nat.le_trans h₁.nextId h₂.nextId
  · rw [hmark] at ha
    have hc := hm a
    rw [ha] at hc
    have hle := h₁.nextId
    cases ho : outer.mark a with
    | new => exact h₁.created a ho
    | nop =>
      cases hi : inner.mark a with
      | new => exact Nat.le_trans hle (h₂.created a hi)
      | nop | upd | del => simp [ho, hi, Mark.compose] at hc
    | upd | del => cases hi : inner.mark a <;> simp [ho, hi, Mark.compose] at hc
  · rw [hmark]
    exact hdesc a

theorem Effect.congr {h : GenericIndex keys} {hook : UndoState V → UndoState V} {next : ℕ}
    {c : Container keys} (he : Effect g hook next c) (hn : g.nextId = h.nextId)
    (hi : g.indices = h.indices) : Effect h hook next c := by
  obtain ⟨stack, revision, nextId, indices⟩ := h
  simp only at hn hi
  subst hn hi
  cases he with
  | create v c hid hc => exact .create v c hid hc
  | modify id v w c hv hc => exact .modify id v w c hv hc
  | remove id v hv => exact .remove id v hv

theorem squash_nextId (g : GenericIndex keys) : (GenericIndex.squash g).nextId = g.nextId := by
  unfold GenericIndex.squash
  split <;> rfl

theorem squash_indices (g : GenericIndex keys) : (GenericIndex.squash g).indices = g.indices := by
  unfold GenericIndex.squash
  split <;> rfl

/-- Recording a call in the inner session and merging is merging and recording the call. -/
theorem InSession.merge_hook (hg : g.Fresh) (h₁ : InSession g g₁ outer)
    (h₂ : InSession g₁ g₂ inner) {hook : UndoState V → UndoState V} {next : ℕ}
    {c : Container keys} (he : Effect g₂ hook next c) :
    merge outer (hook inner) = hook (merge outer inner) := by
  have hg₁ : g₁.Fresh := h₁.fresh
  obtain ⟨hm, hc⟩ := h₁.squash hg h₂
  obtain ⟨hl, hcl⟩ := h₁.squash hg (h₂.applied hg₁ he)
  have he' := he.congr (squash_nextId g₂).symm (squash_indices g₂).symm
  have hr := hm.applied hg he'
  refine hl.disjoint.ext hr.disjoint (fun a ↦ ?_) ?_ ?_
  · have hca := hc a
    have hcla := hcl a
    apply Option.some.inj
    rw [← hcla]
    cases he with
    | create v c hid _ =>
      have hn := h₂.mark_next hg₁
      have hmn := squash_nextId g₂ ▸ hm.mark_next hg
      rw [(UndoState.onCreate_mark _ h₂.disjoint hn).2,
        (UndoState.onCreate_mark _ hm.disjoint hmn).2]
      split
      · next ha => rw [hmn, ← ha, Mark.compose_created (by rw [← hmn, ← hc]) hn]
      · exact hca
    | modify id v w c hv _ =>
      have hdel := hm.mark_ne_del (squash_indices g₂ ▸ hv)
      rw [(UndoState.onModify_mark id v h₂.disjoint (h₂.mark_ne_del hv)).2,
        (UndoState.onModify_mark id v hm.disjoint hdel).2]
      split
      · next ha => rw [← ha, Mark.compose_modified v (hc id) (h₂.mark_ne_del hv) hdel]
      · exact hca
    | remove id v hv =>
      have hdel := hm.mark_ne_del (squash_indices g₂ ▸ hv)
      rw [(UndoState.onRemove_mark id v h₂.disjoint (h₂.mark_ne_del hv)).2,
        (UndoState.onRemove_mark id v hm.disjoint hdel).2]
      split
      · next ha => rw [← ha, Mark.compose_removed v (hc id) (h₂.mark_ne_del hv) hdel]
      · exact hca
  · rw [hl.oldNextId, hr.oldNextId]
  · rw [hl.recordRevision, hr.recordRevision]

theorem InSession.squash_applied (hg : g.Fresh) (h₁ : InSession g g₁ outer)
    (h₂ : InSession g₁ g₂ inner) {hook : UndoState V → UndoState V} {next : ℕ}
    {c : Container keys} (he : Effect g₂ hook next c) :
    GenericIndex.squash (g₂.applied hook next c) = (GenericIndex.squash g₂).applied hook next c := by
  have h₂' := h₂.applied h₁.fresh he
  rw [squash_of_cons (h₁.stack_inner h₂), squash_of_cons (h₁.stack_inner h₂'),
    h₁.merge_hook hg h₂ he]
  rfl

theorem squash_start (h₁ : InSession g g₁ outer) :
    GenericIndex.squash g₁.startUndoSession = g₁ := by
  have hs : g₁.startUndoSession.stack = ⟨∅, ∅, ∅, g₁.nextId, g₁.revision + 1⟩ :: outer :: g.stack := by
    simp only [startUndoSession, h₁.stack]
  have hm : merge outer ⟨∅, ∅, ∅, g₁.nextId, g₁.revision + 1⟩ = outer := by
    refine UndoState.ext_entry (fun a ↦ ?_) (UndoState.merge_oldNextId _ _)
      (UndoState.merge_revision _ _)
    simp [UndoState.merge_entry]
  rw [squash_of_cons hs, hm, ← h₁.stack]
  simp only [startUndoSession, Int.add_sub_cancel]

variable [DecidableEq K]

/-- The calls of the inner session, squashed, are those calls made in the outer session. -/
theorem squash_run (hg : g.Fresh) (h₁ : InSession g g₁ outer) (h₂ : InSession g₁ g₂ inner)
    {ops : List (Operation V)} {g' : GenericIndex keys} (hr : (run ops).run g₂ = .ok ⟨⟩ g') :
    (run ops).run (GenericIndex.squash g₂) = .ok ⟨⟩ (GenericIndex.squash g') := by
  induction ops generalizing g₂ inner with
  | nil =>
    rw [run, List.forM_nil, EStateM.run_pure] at hr ⊢
    cases hr
    rfl
  | cons op ops ih =>
    obtain ⟨mid, hc, hr⟩ := forM_cons_ok.mp hr
    obtain ⟨hook, next, c, he, rfl, hc'⟩ :=
      call_ok (squash_nextId g₂).symm (squash_indices g₂).symm hc
    rw [← h₁.squash_applied hg h₂ he] at hc'
    exact forM_cons_ok.mpr ⟨_, hc', ih (h₂.applied h₁.fresh he) hr⟩

/-- Undoing the inner session and then the outer one. -/
def undoBoth : Call keys PUnit := do
  undo
  undo

theorem InSession.undoBoth_iff (h₁ : InSession g g₁ outer) (h₂ : InSession g₁ g₂ inner)
    (r : GenericIndex keys) :
    undoBoth.run g₂ = .ok ⟨⟩ r ↔ r = g ∧ ¬ KeyHandover g₁ g₂ ∧ ¬ KeyHandover g g₁ := by
  rw [undoBoth, bind_ok]
  constructor
  · rintro ⟨_, t, ht, hr⟩
    by_cases hk₂ : KeyHandover g₁ g₂
    · obtain ⟨d, hd⟩ := h₂.undo_spec.1 hk₂
      rw [hd] at ht
      cases ht
    · rw [h₂.undo_spec.2 hk₂] at ht
      cases ht
      by_cases hk₁ : KeyHandover g g₁
      · obtain ⟨d, hd⟩ := h₁.undo_spec.1 hk₁
        rw [hd] at hr
        cases hr
      · rw [h₁.undo_spec.2 hk₁] at hr
        cases hr
        exact ⟨rfl, hk₂, hk₁⟩
  · rintro ⟨rfl, hk₂, hk₁⟩
    exact ⟨⟨⟩, g₁, h₂.undo_spec.2 hk₂, h₁.undo_spec.2 hk₁⟩

theorem InSession.undo_squash_iff (hg : g.Fresh) (h₁ : InSession g g₁ outer)
    (h₂ : InSession g₁ g₂ inner) (r : GenericIndex keys) :
    undo.run (GenericIndex.squash g₂) = .ok ⟨⟩ r ↔ r = g ∧ ¬ KeyHandover g g₂ := by
  have hs := (h₁.squash hg h₂).1.undo_spec
  have hk : KeyHandover g (GenericIndex.squash g₂) ↔ KeyHandover g g₂ := by
    simp only [KeyHandover, squash_indices]
  rw [hk] at hs
  constructor
  · intro hu
    by_cases hk : KeyHandover g g₂
    · obtain ⟨d, hd⟩ := hs.1 hk
      rw [hd] at hu
      cases hu
    · rw [hs.2 hk] at hu
      cases hu
      exact ⟨rfl, hk⟩
  · rintro ⟨rfl, hk⟩
    exact hs.2 hk

/-- The record left by `squash` is, id by id, the composition of the two sessions, and is the
record of one session that makes all the calls. Undoing it restores what undoing both
sessions restores exactly when no handover is visible over both sessions only. -/
theorem squash_spec (hg : g.Fresh) (s₁ s₂ : List (Operation V))
    (hr₁ : (run s₁).run g.startUndoSession = .ok ⟨⟩ g₁)
    (hr₂ : (run s₂).run g₁.startUndoSession = .ok ⟨⟩ g₂) :
    (∃ outer inner merged, g₁.stack = outer :: g.stack ∧ g₂.stack = inner :: g₁.stack ∧
        (GenericIndex.squash g₂).stack = merged :: g.stack ∧ merged.Disjoint ∧
        merged.oldNextId = g.nextId ∧
        ∀ a, (outer.mark a).compose (inner.mark a) = some (merged.mark a) ∧
          (merged.mark a).Describes g.indices.rows[a]? g₂.indices.rows[a]?) ∧
      (run (s₁ ++ s₂)).run g.startUndoSession = .ok ⟨⟩ (GenericIndex.squash g₂) ∧
      (undo.run (GenericIndex.squash g₂) = .ok ⟨⟩ g ↔ ¬ KeyHandover g g₂) ∧
      ((∀ r, undoBoth.run g₂ = .ok ⟨⟩ r → undo.run (GenericIndex.squash g₂) = .ok ⟨⟩ r) ↔
        (KeyHandover g g₂ → KeyHandover g g₁ ∨ KeyHandover g₁ g₂)) := by
  obtain ⟨outer, h₁⟩ := (inSession_start hg).run hg hr₁
  obtain ⟨inner, h₂⟩ := (inSession_start h₁.fresh).run h₁.fresh hr₂
  obtain ⟨hm, hc⟩ := h₁.squash hg h₂
  refine ⟨⟨outer, inner, merge outer inner, h₁.stack, h₂.stack, hm.stack, hm.disjoint,
    hm.oldNextId, fun a ↦ ⟨hc a, ?_⟩⟩, ?_, ?_, ?_⟩
  · rw [← squash_indices g₂]
    exact hm.describes a
  · have hrun := squash_run hg h₁ (inSession_start h₁.fresh) hr₂
    rw [squash_start h₁] at hrun
    exact forM_append_ok.mpr ⟨g₁, hr₁, hrun⟩
  · rw [h₁.undo_squash_iff hg h₂, and_iff_right rfl]
  · simp only [h₁.undoBoth_iff h₂, h₁.undo_squash_iff hg h₂]
    constructor
    · intro h hk
      by_contra hn
      obtain ⟨hn₁, hn₂⟩ := not_or.mp hn
      exact (h g ⟨rfl, hn₂, hn₁⟩).2 hk
    · rintro h r ⟨rfl, hn₂, hn₁⟩
      exact ⟨rfl, fun hk ↦ (h hk).elim hn₁ hn₂⟩

section Handover

private def renamed : GenericIndex byName :=
  match (run [.modify 0 fun _ ↦ 2]).run holder.startUndoSession with
  | .ok _ g => g
  | .error _ g => g

private def taken : GenericIndex byName :=
  match (run [.create fun _ ↦ 1]).run renamed.startUndoSession with
  | .ok _ g => g
  | .error _ g => g

/-- The outer session frees the name and the inner one takes it: undoing both in turn works,
undoing the squashed record throws. -/
theorem squash_loses_handover :
    ∃ g g₁ g₂ : GenericIndex byName, g.Fresh ∧
      (run [.modify 0 fun _ ↦ 2]).run g.startUndoSession = .ok ⟨⟩ g₁ ∧
      (run [.create fun _ ↦ 1]).run g₁.startUndoSession = .ok ⟨⟩ g₂ ∧
      undoBoth.run g₂ = .ok ⟨⟩ g ∧
      ∃ d, undo.run (GenericIndex.squash g₂) = .error couldNotModify d := by
  have hr₁ : (run [.modify 0 fun _ ↦ 2]).run holder.startUndoSession = .ok ⟨⟩ renamed := rfl
  have hr₂ : (run [.create fun _ ↦ 1]).run renamed.startUndoSession = .ok ⟨⟩ taken := rfl
  obtain ⟨outer, h₁⟩ := (inSession_start holder_fresh).run holder_fresh hr₁
  obtain ⟨inner, h₂⟩ := (inSession_start h₁.fresh).run h₁.fresh hr₂
  have hb := (h₁.undoBoth_iff h₂ holder).mpr ⟨rfl, by decide, by decide⟩
  exact ⟨holder, renamed, taken, holder_fresh, hr₁, hr₂, hb, _, rfl⟩

theorem squash_spec_renamed_twice :
    ∃ g g₁ g₂ : GenericIndex byName,
      (run [.modify 0 fun _ ↦ 2]).run g.startUndoSession = .ok ⟨⟩ g₁ ∧
      (run [.modify 0 fun _ ↦ 3]).run g₁.startUndoSession = .ok ⟨⟩ g₂ ∧
      undo.run (GenericIndex.squash g₂) = .ok ⟨⟩ g := by
  have hr₁ : (run [.modify 0 fun _ ↦ 2]).run holder.startUndoSession = .ok ⟨⟩ renamed := rfl
  have hs := squash_spec holder_fresh [.modify 0 fun _ ↦ 2] [.modify 0 fun _ ↦ 3] hr₁ rfl
  exact ⟨holder, renamed, _, hr₁, rfl, hs.2.2.1.mpr (by decide)⟩

end Handover

end GenericIndex

end Taiyi.Chainbase
