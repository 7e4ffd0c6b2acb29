import Mathlib.Data.List.Induction
import Taiyi.Transactions.Pending

set_option autoImplicit false

namespace Taiyi.Transactions

open Library.RowList

variable {Op Sig TrxId Result World Header : Type} [DecidableEq TrxId] [TransactionId Op TrxId]
  [Protocol Op Sig Result World Header]

namespace Mempool

variable {m m' n r : Mempool Op Sig TrxId Result World} {skip : SkipFlags} {late : ℕ → Bool}
  {t : SignedTransaction Op Sig} {pre post queue pending : List (SignedTransaction Op Sig)} {a : Bool}

theorem pushTransaction_ok (h : m.pushTransaction skip t = .ok m') :
    ∃ s, applyTransaction skip t m.current = .ok s ∧
      m' = { m with session := some s, pendingTx := m.pendingTx ++ [t] } := by
  unfold pushTransaction at h
  split at h
  · cases h
  · next s hs => exact ⟨s, hs, (Except.ok.inj h).symm⟩

/-- The four ways of one round. -/
inductive Round (skip : SkipFlags) (m : Mempool Op Sig TrxId Result World)
    (t : SignedTransaction Op Sig) : Bool → Mempool Op Sig TrxId Result World → Prop
  | known : m.current.isKnownTransaction t.id = true → Round skip m t true m
  | failed {e} : m.current.isKnownTransaction t.id = false → m.pushTransaction skip t = .error e →
      Round skip m t true m.opened
  | applied {n : Mempool Op Sig TrxId Result World} :
      m.current.isKnownTransaction t.id = false → m.pushTransaction skip t = .ok n →
      Round skip m t true n
  | postponed : Round skip m t false { m with pendingTx := m.pendingTx ++ [t] }

theorem round (skip : SkipFlags) (m : Mempool Op Sig TrxId Result World)
    (t : SignedTransaction Op Sig) (a : Bool) : Round skip m t a (m.restoreOne skip a t) := by
  cases a with
  | false => exact .postponed
  | true =>
    cases hk : m.current.isKnownTransaction t.id with
    | true =>
      simp only [restoreOne, hk, if_true]
      exact .known hk
    | false =>
      cases hp : m.pushTransaction skip t with
      | error e =>
        simp only [restoreOne, hk, hp, if_true, if_false, Bool.false_eq_true]
        exact .failed hk hp
      | ok m' =>
        simp only [restoreOne, hk, hp, if_true, if_false, Bool.false_eq_true]
        exact .applied hk hp

/-- What holds after the rounds for `pre`, begun in `m`: the queue grows in order, the known
transactions are those of the head and the queue, and while transactions are still applied
under the duplicate check every one in the queue has its record. -/
structure Midway (skip : SkipFlags) (m : Mempool Op Sig TrxId Result World)
    (pre : List (SignedTransaction Op Sig)) (a : Bool) (r : Mempool Op Sig TrxId Result World) :
    Prop where
  ordered : r.pendingTx.Sublist pre
  known : ∀ id, r.current.isKnownTransaction id = true →
    m.head.isKnownTransaction id = true ∨ id ∈ r.ids
  recorded : a = true → skip.transactionDupeCheck = false → ∀ id ∈ r.ids,
    r.current.isKnownTransaction id = true
  unrecorded : skip.transactionDupeCheck = true → r.current.transactions = m.head.transactions

theorem isKnown_applyTransaction {s s' : State Op Sig TrxId Result World} {id : TrxId}
    (h : applyTransaction skip t s = .ok s') :
    s'.isKnownTransaction id = true ↔
      s.isKnownTransaction id = true ∨ skip.transactionDupeCheck = false ∧ t.id = id := by
  obtain ⟨-, -, results, w, rfl⟩ := applyTransaction_ok h
  cases hskip : skip.transactionDupeCheck with
  | true => simp [State.isKnownTransaction]
  | false =>
    simp only [Bool.false_eq_true, if_false, true_and, isKnown_iff]
    change (∃ o ∈ insertBy _ _ _, _) ↔ _
    simp only [mem_insertBy, exists_eq_or_imp]
    rw [or_comm]

theorem transactions_applyTransaction {s s' : State Op Sig TrxId Result World}
    (h : applyTransaction skip t s = .ok s') (hskip : skip.transactionDupeCheck = true) :
    s'.transactions = s.transactions := by
  obtain ⟨-, -, results, w, rfl⟩ := applyTransaction_ok h
  rw [if_pos hskip]

namespace Midway

theorem start (hs : m.session = none) (hp : m.pendingTx = []) : Midway skip m [] a m where
  ordered := hp ▸ List.Sublist.refl _
  known id h := by
    rw [current, hs] at h
    exact .inl h
  recorded _ _ id hid := by
    rw [ids, hp] at hid
    cases hid
  unrecorded _ := by
    rw [current, hs]
    rfl

theorem step {a' : Bool} (h : Midway skip m pre a r) (ha : a' = true → a = true) :
    Midway skip m (pre ++ [t]) a' (r.restoreOne skip a' t) := by
  have hold := h.ordered.trans (List.sublist_append_left pre [t])
  have hnew : (r.pendingTx ++ [t]).Sublist (pre ++ [t]) := h.ordered.append (List.Sublist.refl [t])
  have hr := round skip r t a'
  generalize r.restoreOne skip a' t = r' at hr ⊢
  cases hr with
  | known hk => exact ⟨hold, h.known, fun ha' ↦ h.recorded (ha ha'), h.unrecorded⟩
  | failed hk hp => exact ⟨hold, h.known, fun ha' ↦ h.recorded (ha ha'), h.unrecorded⟩
  | applied hk hp =>
    obtain ⟨s, hs, rfl⟩ := pushTransaction_ok hp
    refine ⟨hnew, fun id hid ↦ ?_, fun ha' hskip id hid ↦ ?_, fun hskip ↦ ?_⟩
    · rw [ids, List.map_append, List.mem_append]
      rcases (isKnown_applyTransaction hs).mp hid with hid | ⟨-, rfl⟩
      · exact (h.known id hid).imp_right .inl
      · exact .inr (.inr (List.mem_singleton.mpr rfl))
    · refine (isKnown_applyTransaction hs).mpr ?_
      rw [ids, List.map_append, List.mem_append] at hid
      rcases hid with hid | hid
      · exact .inl (h.recorded (ha ha') hskip id hid)
      · exact .inr ⟨hskip, (List.mem_singleton.mp hid).symm⟩
    · exact (transactions_applyTransaction hs hskip).trans (h.unrecorded hskip)
  | postponed =>
    refine ⟨hnew, fun id hid ↦ ?_, fun ha' ↦ absurd ha' Bool.false_ne_true, h.unrecorded⟩
    rw [ids, List.map_append, List.mem_append]
    exact (h.known id hid).imp_right .inl

/-- The rounds for a beginning of the queue. -/
theorem run (hs : m.session = none) (hp : m.pendingTx = [])
    (pre : List (SignedTransaction Op Sig)) :
    Midway skip m pre (restoreAll skip late 0 true pre m).1 (restoreAll skip late 0 true pre m).2 := by
  induction pre using List.reverseRecOn with
  | nil => exact start hs hp
  | append_singleton pre t ih =>
    rw [restoreAll_concat]
    exact ih.step fun ha ↦ (Bool.and_eq_true_iff.mp ha).1

theorem turn (hs : m.session = none) (hp : m.pendingTx = [])
    (pre : List (SignedTransaction Op Sig)) :
    Midway skip m pre (turn skip late m pre).1 (turn skip late m pre).2 where
  ordered := (run hs hp pre).ordered
  known := (run hs hp pre).known
  recorded ha := (run hs hp pre).recorded (Bool.and_eq_true_iff.mp ha).1
  unrecorded := (run hs hp pre).unrecorded

end Midway

theorem restoreOne_grows : m.pendingTx <+: (m.restoreOne skip a t).pendingTx := by
  have hr := round skip m t a
  generalize m.restoreOne skip a t = r at hr ⊢
  cases hr with
  | known hk => exact List.prefix_rfl
  | failed hk hp => exact List.prefix_rfl
  | applied hk hp =>
    obtain ⟨s, -, rfl⟩ := pushTransaction_ok hp
    exact List.prefix_append _ _
  | postponed => exact List.prefix_append _ _

theorem restoreAll_grows {k : ℕ} : m.pendingTx <+: (restoreAll skip late k a queue m).2.pendingTx := by
  induction queue generalizing k a m with
  | nil => exact List.prefix_rfl
  | cons t ts ih => exact restoreOne_grows.trans ih

/-- What a transaction adds in its turn stays to the end. -/
theorem grows_after_turn :
    ((turn skip late m pre).2.restoreOne skip (turn skip late m pre).1 t).pendingTx <+:
      (restoreAll skip late 0 true (pre ++ t :: post) m).2.pendingTx := by
  rw [List.append_cons, restoreAll_append, restoreAll_concat]
  exact restoreAll_grows

omit [DecidableEq TrxId] in
theorem mem_ids_of_prefix (h : m.pendingTx <+: r.pendingTx) {id : TrxId} (hid : id ∈ m.ids) :
    id ∈ r.ids :=
  (h.map SignedTransaction.id).subset hid

/-- `t` would be dropped in its turn after `pre` for no other reason than being known. -/
def StillApplies (skip : SkipFlags) (late : ℕ → Bool) (m : Mempool Op Sig TrxId Result World)
    (pre : List (SignedTransaction Op Sig)) (t : SignedTransaction Op Sig) : Prop :=
  (turn skip late m pre).1 = true → ∃ n, (turn skip late m pre).2.pushTransaction skip t = .ok n

/-- Neither lost nor duplicated: the queue `final` against the popped and the formerly pending
transactions it was restored from, on the state that `push_block` left. -/
structure Restored (skip : SkipFlags) (late : ℕ → Bool) (m : Mempool Op Sig TrxId Result World)
    (pending final : List (SignedTransaction Op Sig)) : Prop where
  ordered : ∃ f₁ f₂, final = f₁ ++ f₂ ∧ f₁.Sublist m.poppedTx ∧ f₂.Sublist pending
  kept : ∀ pre t post, m.poppedTx ++ pending = pre ++ t :: post →
    m.head.isKnownTransaction t.id = false → StillApplies skip late m pre t →
    (final.map SignedTransaction.id).count t.id = 1
  dropped : ∀ t ∈ m.poppedTx ++ pending, t.id ∉ final.map SignedTransaction.id →
    m.head.isKnownTransaction t.id = true ∨
      ∃ pre post e, m.poppedTx ++ pending = pre ++ t :: post ∧
        (turn skip late m pre).2.pushTransaction skip t = .error e

/-- No transaction that is put off at the limit is in `_pending_tx` when its turn comes, unless
the chain knows it; under `skip_transaction_dupe_check` neither is one that applies. -/
def Unrepeated (skip : SkipFlags) (late : ℕ → Bool) (m : Mempool Op Sig TrxId Result World)
    (queue : List (SignedTransaction Op Sig)) : Prop :=
  ∀ pre t post, queue = pre ++ t :: post → m.head.isKnownTransaction t.id = false →
    ((turn skip late m pre).1 = false ∨ skip.transactionDupeCheck = true ∧
      ∃ n, (turn skip late m pre).2.pushTransaction skip t = .ok n) →
    t.id ∉ (turn skip late m pre).2.ids

theorem count_concat_le {l : List TrxId} {x id : TrxId} (h : l.count id ≤ 1)
    (hx : x = id → x ∉ l) : (l ++ [x]).count id ≤ 1 := by
  rw [List.count_append]
  by_cases he : x = id
  · have h₀ : l.count id = 0 := List.count_eq_zero_of_not_mem (he ▸ hx he)
    simp [h₀, he]
  · simpa [List.count_singleton, he] using h

section Counting

variable (hs : m.session = none) (hp : m.pendingTx = [])
include hs hp

/-- A transaction the head does not know is known in its turn only through the queue. -/
theorem added_in_turn (hk : m.head.isKnownTransaction t.id = false)
    (ha : StillApplies skip late m pre t) (hid : t.id ∉ (turn skip late m pre).2.ids) :
    ((turn skip late m pre).2.restoreOne skip (turn skip late m pre).1 t).pendingTx =
      (turn skip late m pre).2.pendingTx ++ [t] := by
  have hm : Midway skip m pre (turn skip late m pre).1 _ := Midway.turn hs hp pre
  unfold StillApplies at ha
  have hr := round skip (turn skip late m pre).2 t (turn skip late m pre).1
  generalize (turn skip late m pre).2.restoreOne skip (turn skip late m pre).1 t = r at hr ⊢
  generalize (turn skip late m pre).1 = a at hr ha
  cases hr with
  | known hk' =>
    rcases hm.known t.id hk' with h | h
    · rw [hk] at h
      cases h
    · exact absurd h hid
  | failed _ he =>
    obtain ⟨n, hn⟩ := ha rfl
    rw [he] at hn
    cases hn
  | applied _ hn =>
    obtain ⟨s, -, rfl⟩ := pushTransaction_ok hn
    rfl
  | postponed => rfl

theorem added_of_appended (hk : m.head.isKnownTransaction t.id = false)
    (h : (turn skip late m pre).1 = false ∨ skip.transactionDupeCheck = true ∧
      ∃ n, (turn skip late m pre).2.pushTransaction skip t = .ok n) :
    ((turn skip late m pre).2.restoreOne skip (turn skip late m pre).1 t).pendingTx =
      (turn skip late m pre).2.pendingTx ++ [t] := by
  have hm : Midway skip m pre (turn skip late m pre).1 _ := Midway.turn hs hp pre
  have hr := round skip (turn skip late m pre).2 t (turn skip late m pre).1
  generalize (turn skip late m pre).2.restoreOne skip (turn skip late m pre).1 t = r at hr ⊢
  generalize (turn skip late m pre).1 = a at hr h
  cases hr with
  | known hk' =>
    obtain ⟨hskip, -⟩ := h.resolve_left (by simp)
    rw [State.isKnownTransaction, hm.unrecorded hskip, ← State.isKnownTransaction, hk] at hk'
    cases hk'
  | failed _ he =>
    obtain ⟨-, n, hn⟩ := h.resolve_left (by simp)
    rw [he] at hn
    cases hn
  | applied _ hn =>
    obtain ⟨s, -, rfl⟩ := pushTransaction_ok hn
    rfl
  | postponed => rfl

theorem mem_of_stillApplies (hq : queue = pre ++ t :: post)
    (hk : m.head.isKnownTransaction t.id = false) (ha : StillApplies skip late m pre t) :
    t.id ∈ (restoreAll skip late 0 true queue m).2.ids := by
  rw [hq]
  by_cases hid : t.id ∈ (turn skip late m pre).2.ids
  · exact mem_ids_of_prefix (restoreOne_grows.trans grows_after_turn) hid
  · have hadd := added_in_turn hs hp hk ha hid
    refine mem_ids_of_prefix grows_after_turn ?_
    rw [ids, hadd, List.map_append, List.mem_append]
    exact .inr (List.mem_singleton.mpr rfl)

/-- An id that the head does not know enters the queue once. -/
theorem count_le_one (hu : Unrepeated skip late m queue) {id : TrxId}
    (hk : m.head.isKnownTransaction id = false) (hq : pre <+: queue) :
    (restoreAll skip late 0 true pre m).2.ids.count id ≤ 1 := by
  induction pre using List.reverseRecOn with
  | nil => simp [restoreAll, ids, hp]
  | append_singleton pre t ih =>
    obtain ⟨post, hq⟩ := hq
    rw [List.append_assoc, List.singleton_append] at hq
    have ih : (turn skip late m pre).2.ids.count id ≤ 1 := ih ⟨t :: post, hq⟩
    have hm : Midway skip m pre (turn skip late m pre).1 _ := Midway.turn hs hp pre
    have hu := hu pre t post hq.symm
    rw [restoreAll_concat]
    have hr := round skip (turn skip late m pre).2 t (turn skip late m pre).1
    generalize (turn skip late m pre).2.restoreOne skip (turn skip late m pre).1 t = r at hr ⊢
    generalize (turn skip late m pre).1 = a at hr hu hm
    cases hr with
    | known _ => exact ih
    | failed _ _ => exact ih
    | applied hk' hn =>
      obtain ⟨s, -, rfl⟩ := pushTransaction_ok hn
      rw [ids, List.map_append]
      refine count_concat_le ih fun he ↦ ?_
      cases hskip : skip.transactionDupeCheck with
      | true => exact hu (he ▸ hk) (.inr ⟨hskip, _, hn⟩)
      | false =>
        intro hid
        rw [hm.recorded rfl hskip _ hid] at hk'
        cases hk'
    | postponed =>
      rw [ids, List.map_append]
      exact count_concat_le ih fun he ↦ hu (he ▸ hk) (.inl rfl)

/-- The guard loses and doubles nothing exactly when it meets no repeated transaction. -/
theorem restored_iff : Restored skip late m pending
      (restoreAll skip late 0 true (m.poppedTx ++ pending) m).2.pendingTx ↔
    Unrepeated skip late m (m.poppedTx ++ pending) := by
  constructor
  · intro h pre t post hq hk happ hid
    have ha : StillApplies skip late m pre t := fun hturn ↦ by
      rcases happ with hf | ⟨-, hn⟩
      · rw [hf] at hturn
        cases hturn
      · exact hn
    have hone := h.kept pre t post hq hk ha
    have hgrows : (turn skip late m pre).2.pendingTx ++ [t] <+:
        (restoreAll skip late 0 true (m.poppedTx ++ pending) m).2.pendingTx := by
      rw [← added_of_appended hs hp hk happ, hq]
      exact grows_after_turn
    have hle := (hgrows.map SignedTransaction.id).sublist.count_le t.id
    have hpos : 1 ≤ (turn skip late m pre).2.ids.count t.id := List.count_pos_iff.mpr hid
    rw [List.map_append, List.count_append, hone, List.map_singleton,
      List.count_singleton_self] at hle
    unfold ids at hpos
    omega
  · intro hu
    refine ⟨?_, fun pre t post hq hk ha ↦ ?_, fun t ht hid ↦ ?_⟩
    · obtain ⟨f₁, f₂, he, h₁, h₂⟩ := List.sublist_append_iff.mp (Midway.run hs hp (m.poppedTx ++ pending)).ordered
      exact ⟨f₁, f₂, he, h₁, h₂⟩
    · refine le_antisymm (count_le_one hs hp hu hk List.prefix_rfl) ?_
      exact List.count_pos_iff.mpr (mem_of_stillApplies hs hp hq hk ha)
    · obtain ⟨pre, post, hq⟩ := List.append_of_mem ht
      refine or_iff_not_imp_left.mpr fun hk ↦ ⟨pre, post, ?_⟩
      cases hpush : (turn skip late m pre).2.pushTransaction skip t with
      | error e => exact ⟨e, hq, rfl⟩
      | ok n =>
        have hk := Bool.eq_false_iff.mpr hk
        exact absurd (mem_of_stillApplies hs hp hq hk fun _ ↦ ⟨n, hpush⟩) hid

end Counting

/-- What the destructor starts from when `push_block` has left its outcome. -/
def guardStart (out : Outcome Op Sig TrxId Result World) : Mempool Op Sig TrxId Result World :=
  ⟨out.1, none, [], out.2⟩

theorem withoutPendingTransactions_restored_iff (m : Mempool Op Sig TrxId Result World)
    (skip : SkipFlags) (late : ℕ → Bool)
    (pushBlock : Outcome Op Sig TrxId Result World → Outcome Op Sig TrxId Result World) :
    Restored skip late (guardStart (pushBlock (m.head, m.poppedTx))) m.pendingTx
        (m.withoutPendingTransactions skip late pushBlock).pendingTx ↔
      Unrepeated skip late (guardStart (pushBlock (m.head, m.poppedTx)))
        ((pushBlock (m.head, m.poppedTx)).2 ++ m.pendingTx) := by
  rw [withoutPendingTransactions]
  simp only [restore_eq]
  exact restored_iff rfl rfl

/-- One transaction in both queues, and the limit passes after the first of the two turns: it
is applied from the popped queue and put off from the pending one. -/
theorem restored_twice :
    (withoutPendingTransactions (m := ⟨nopGenesis, none, [nopTransaction 60], []⟩) {} (· == 1)
      fun out ↦ (out.1, [nopTransaction 60])).pendingTx = [nopTransaction 60, nopTransaction 60] ∧
    ¬ Restored {} (· == 1) (guardStart (nopGenesis, [nopTransaction 60])) [nopTransaction 60]
      [nopTransaction 60, nopTransaction 60] := by
  refine ⟨by decide +kernel, fun h ↦ ?_⟩
  have hone := h.kept [] (nopTransaction 60) [nopTransaction 60] rfl (by decide) fun _ ↦ ⟨_, rfl⟩
  revert hone
  decide

end Mempool

end Taiyi.Transactions
