import Mathlib.Data.List.Nodup
import Taiyi.Transactions.Apply

set_option autoImplicit false

namespace Taiyi.Transactions

open Library.RowList

variable {Op Sig TrxId Result World Header : Type} [DecidableEq TrxId] [TransactionId Op TrxId]
  [Protocol Op Sig Result World Header]

/-- The transactions among `ts` that went through the duplicate check. -/
def checkedIn (skip : SkipFlags) (ts : List (SignedTransaction Op Sig)) :
    List (SignedTransaction Op Sig) :=
  if skip.transactionDupeCheck then [] else ts

/-- The transactions of a chain that went through the duplicate check. -/
def checked (bs : List (SkipFlags × SignedBlock Op Sig Header)) : List (SignedTransaction Op Sig) :=
  bs.flatMap fun b ↦ checkedIn b.1 b.2.transactions

section Records

variable {s : State Op Sig TrxId Result World}

omit [TransactionId Op TrxId] in
theorem isKnown_iff {id : TrxId} :
    s.isKnownTransaction id = true ↔ ∃ o ∈ s.transactions, o.trxId = id := by
  simp [State.isKnownTransaction]

end Records

/-- The record of `t` is kept with its expiration, or `t` is out of time. -/
def Spent (s : State Op Sig TrxId Result World) (t : SignedTransaction Op Sig) : Prop :=
  (∃ o ∈ s.transactions, o.trxId = t.id ∧ o.expiration = t.expiration) ∨
    t.expiration < s.head.time ∧ 0 < s.head.blockNumber

theorem throws_of_not_applied {s : State Op Sig TrxId Result World} {skip : SkipFlags}
    {t : SignedTransaction Op Sig} (h : ∀ s', applyTransaction skip t s ≠ .ok s') :
    ∃ e, applyTransaction skip t s = .error e := by
  cases hr : applyTransaction skip t s with
  | error e => exact ⟨e, rfl⟩
  | ok s' => exact absurd hr (h s')

/-- No transaction of the log stands in it twice, and each is spent. -/
structure Guarded (s : State Op Sig TrxId Result World) (log : List (SignedTransaction Op Sig)) :
    Prop where
  once : (log.map SignedTransaction.id).Nodup
  spent : ∀ t ∈ log, Spent s t

section Spent

variable {s s' : State Op Sig TrxId Result World} {skip : SkipFlags} {t u : SignedTransaction Op Sig}

omit [DecidableEq TrxId] [TransactionId Op TrxId] in
theorem checkTime_ok (h : s.checkTime skip u = .ok ()) (hn : 0 < s.head.blockNumber) :
    s.head.time < u.expiration := by
  unfold State.checkTime at h
  rw [if_pos hn] at h
  split at h
  · cases h
  split at h
  · cases h
  split at h
  · assumption
  · cases h

/-- A transaction that is spent does not apply again under the duplicate check. -/
theorem Spent.not_applied (h : Spent s t) (hid : u.id = t.id)
    (hskip : skip.transactionDupeCheck = false) : applyTransaction skip u s ≠ .ok s' := by
  intro hu
  obtain ⟨hd, hc, -⟩ := applyTransaction_ok hu
  rcases h with ⟨o, ho, hot, -⟩ | ⟨hlt, hn⟩
  · have hk : s.isKnownTransaction u.id = true := isKnown_iff.mpr ⟨o, ho, hot.trans hid.symm⟩
    rw [hd hskip] at hk
    cases hk
  · have := checkTime_ok hc hn
    have := expiration_eq hid
    omega

/-- Without a record the duplicate check is not needed. -/
theorem Spent.expired (h : Spent s t) (hk : s.isKnownTransaction t.id = false) :
    t.expiration < s.head.time ∧ 0 < s.head.blockNumber := by
  refine h.resolve_left ?_
  rintro ⟨o, ho, hot, -⟩
  rw [isKnown_iff.mpr ⟨o, ho, hot⟩] at hk
  cases hk

omit [DecidableEq TrxId] in
theorem Spent.mono (h : Spent s t) (hh : s'.head = s.head)
    (hs : ∀ o ∈ s.transactions, o ∈ s'.transactions) : Spent s' t := by
  rcases h with ⟨o, ho, hot⟩ | hlt
  · exact .inl ⟨o, hs o ho, hot⟩
  · exact .inr (hh ▸ hlt)

end Spent

namespace Guarded

variable {s s' : State Op Sig TrxId Result World} {skip : SkipFlags}
  {log ts : List (SignedTransaction Op Sig)} {t : SignedTransaction Op Sig}
  {b : SignedBlock Op Sig Header}

theorem applyTransaction (h : Guarded s log) (ht : applyTransaction skip t s = .ok s') :
    Guarded s' (log ++ checkedIn skip [t]) := by
  obtain ⟨-, -, results, w, rfl⟩ := applyTransaction_ok ht
  by_cases hskip : skip.transactionDupeCheck = true
  · simp only [checkedIn, hskip, if_true, List.append_nil]
    exact ⟨h.once, fun u hu ↦ (h.spent u hu).mono rfl fun o ho ↦ ho⟩
  · have hfresh : ∀ u ∈ log, u.id ≠ t.id := fun u hu hid ↦
      (h.spent u hu).not_applied hid.symm (Bool.eq_false_iff.mpr hskip) ht
    simp only [checkedIn, hskip, if_false, Bool.false_eq_true]
    refine ⟨?_, fun u hu ↦ ?_⟩
    · rw [List.map_append, List.map_singleton, List.nodup_append]
      refine ⟨h.once, List.nodup_singleton _, ?_⟩
      rintro _ hu _ ha
      obtain ⟨v, hv, rfl⟩ := List.mem_map.mp hu
      rw [List.mem_singleton.mp ha]
      exact hfresh v hv
    · rcases List.mem_append.mp hu with hu | hu
      · exact (h.spent u hu).mono rfl fun o ho ↦ mem_insertBy.mpr (.inr ho)
      · rw [List.mem_singleton.mp hu]
        exact .inl ⟨_, mem_insertBy.mpr (.inl rfl), rfl, rfl⟩

theorem checkedIn_cons : checkedIn skip (t :: ts) = checkedIn skip [t] ++ checkedIn skip ts := by
  unfold checkedIn
  split <;> rfl

theorem applyTransactions (h : Guarded s log) (ht : applyTransactions skip ts s = .ok s') :
    Guarded s' (log ++ checkedIn skip ts) := by
  induction ts generalizing s log with
  | nil =>
    obtain rfl := Except.ok.inj ht
    have hnil : checkedIn skip ([] : List (SignedTransaction Op Sig)) = [] := by simp [checkedIn]
    rwa [hnil, List.append_nil]
  | cons t ts ih =>
    obtain ⟨s₁, ht, hts⟩ := applyTransactions_cons_ok ht
    rw [checkedIn_cons, ← List.append_assoc]
    exact ih (h.applyTransaction ht) hts

omit [DecidableEq TrxId] in
theorem startBlock (h : Guarded s log) (hb : startBlock skip b s = .ok s') : Guarded s' log := by
  obtain ⟨-, -, w, -, rfl⟩ := startBlock_ok hb
  exact ⟨h.once, fun t ht ↦ (h.spent t ht).mono rfl fun o ho ↦ ho⟩

theorem head_applyTransactions (ht : Taiyi.Transactions.applyTransactions skip ts s = .ok s') :
    s'.head = s.head := by
  induction ts generalizing s with
  | nil => rw [Except.ok.inj ht]
  | cons t ts ih =>
    obtain ⟨s₁, ht, hts⟩ := applyTransactions_cons_ok ht
    obtain ⟨-, -, results, w, rfl⟩ := applyTransaction_ok ht
    rw [ih hts]
    split <;> rfl

omit [DecidableEq TrxId] in
/-- A record goes only when the new head time has passed its expiration. -/
theorem finishBlock (h : Guarded s log) (hn : b.blockNum = s.head.blockNumber + 1)
    (htime : s.head.time < b.timestamp) (hb : finishBlock skip b s = .ok s') :
    Guarded s' log := by
  obtain ⟨w, -, rfl⟩ := finishBlock_ok hb
  refine ⟨h.once, fun t ht ↦ ?_⟩
  rcases h.spent t ht with ⟨o, ho, hot, hexp⟩ | ⟨hlt, -⟩
  · by_cases hpast : o.expiration < b.timestamp
    · exact .inr ⟨hexp ▸ hpast, by change 0 < b.blockNum; omega⟩
    · refine .inl ⟨o, ?_, hot, hexp⟩
      exact mem_dropWhile ho (decide_eq_false hpast)
  · exact .inr ⟨hlt.trans htime, by change 0 < b.blockNum; omega⟩

theorem applyBlock (h : Guarded s log) (hb : applyBlock skip b s = .ok s') :
    Guarded s' (log ++ checkedIn skip b.transactions) := by
  obtain ⟨s₁, s₂, h₁, h₂, h₃⟩ := applyBlock_ok hb
  obtain ⟨hn, htime, w, -, rfl⟩ := startBlock_ok h₁
  have hh := head_applyTransactions h₂
  exact ((h.startBlock h₁).applyTransactions h₂).finishBlock (hh ▸ hn) (hh ▸ htime) h₃

theorem applyBlocks {bs : List (SkipFlags × SignedBlock Op Sig Header)} (h : Guarded s log)
    (hb : applyBlocks bs s = .ok s') : Guarded s' (log ++ checked bs) := by
  induction bs generalizing s log with
  | nil =>
    obtain rfl := Except.ok.inj hb
    rwa [checked, List.flatMap_nil, List.append_nil]
  | cons b bs ih =>
    obtain ⟨s₁, hb, hbs⟩ := applyBlocks_cons_ok hb
    rw [checked, List.flatMap_cons, ← List.append_assoc]
    exact ih (h.applyBlock hb) hbs

end Guarded

/-- The states in which a chain built from `g` may be offered a transaction, with the
transactions that went through the duplicate check so far: its head, and every point between
two transactions of the block that comes next. -/
inductive Reaches (g : State Op Sig TrxId Result World) :
    State Op Sig TrxId Result World → List (SignedTransaction Op Sig) → Prop
  | head {bs s} : applyBlocks bs g = .ok s → Reaches g s (checked bs)
  | within {bs skip b ts s₀ s₁ s} : applyBlocks bs g = .ok s₀ → startBlock skip b s₀ = .ok s₁ →
      ts <+: b.transactions → applyTransactions skip ts s₁ = .ok s →
      Reaches g s (checked bs ++ checkedIn skip ts)

/-- Replay protection of the transactions in the log: each stands in it once; while its record
is there a second application under the check throws; once the record is gone the head time is
past its expiration, and every application throws. -/
structure ReplayProtected (s : State Op Sig TrxId Result World)
    (log : List (SignedTransaction Op Sig)) : Prop where
  once : (log.map SignedTransaction.id).Nodup
  recorded : ∀ t ∈ log, s.isKnownTransaction t.id = true → ∀ skip u,
    skip.transactionDupeCheck = false → u.id = t.id → ∃ e, applyTransaction skip u s = .error e
  removed : ∀ t ∈ log, s.isKnownTransaction t.id = false → t.expiration < s.head.time ∧
    ∀ skip u, u.id = t.id → ∃ e, applyTransaction skip u s = .error e

theorem guarded_of_reaches {g s : State Op Sig TrxId Result World}
    {log : List (SignedTransaction Op Sig)} (h : Reaches g s log) : Guarded s log := by
  have hg : Guarded g ([] : List (SignedTransaction Op Sig)) :=
    ⟨List.nodup_nil, fun t ht ↦ absurd ht List.not_mem_nil⟩
  cases h with
  | head h => exact hg.applyBlocks h
  | within hs hb _ ht => exact ((hg.applyBlocks hs).startBlock hb).applyTransactions ht

theorem replay_protection {g s : State Op Sig TrxId Result World}
    {log : List (SignedTransaction Op Sig)} (h : Reaches g s log) : ReplayProtected s log := by
  have hg := guarded_of_reaches h
  refine ⟨hg.once, fun t ht _ skip u hskip hid ↦ ?_, fun t ht hk ↦ ?_⟩
  · exact throws_of_not_applied fun s' ↦ (hg.spent t ht).not_applied hid hskip
  · obtain ⟨hlt, hn⟩ := (hg.spent t ht).expired hk
    refine ⟨hlt, fun skip u hid ↦ throws_of_not_applied fun s' hu ↦ ?_⟩
    have hlate := checkTime_ok (applyTransaction_ok hu).2.1 hn
    have := expiration_eq hid
    omega

/-- The one operation of a protocol in which everything passes. -/
inductive Nop
  | nop
  deriving DecidableEq

instance : TransactionId Nop (Transaction Nop) where
  id t := t
  expiration_eq h := congrArg Transaction.expiration h

instance : Protocol Nop Unit Unit Unit Unit where
  validateOperation _ := true
  verifyAuthority _ _ := true
  applyOperation _ _ _ := .ok ((), ())
  openBlock _ _ _ _ := .ok ()
  closeBlock _ _ _ _ := .ok ()

def nopGenesis : State Nop Unit (Transaction Nop) Unit Unit := ⟨⟨0, 0⟩, fun _ ↦ 0, [], ()⟩

def nopTransaction (expiration : ℕ) : SignedTransaction Nop Unit := ⟨⟨0, 0, expiration, [.nop]⟩, []⟩

/-- A block of three seconds after the one before it. -/
def nopBlock (n : ℕ) (ts : List (SignedTransaction Nop Unit)) : SignedBlock Nop Unit Unit :=
  ⟨n, 3 * n, 0, (), ts⟩

/-- The head time has reached the expiration, and the record is still there. -/
theorem replay_protection_nop :
    ReplayProtected
      ((applyBlocks [({}, nopBlock 1 [nopTransaction 3])] nopGenesis).toOption.getD nopGenesis)
      [nopTransaction 3] :=
  have h : applyBlocks [({}, nopBlock 1 [nopTransaction 3])] nopGenesis = .ok
      ((applyBlocks [({}, nopBlock 1 [nopTransaction 3])] nopGenesis).toOption.getD nopGenesis) := rfl
  replay_protection (.head h)

/-- Under the flags of reindexing the first application leaves no record. -/
theorem replayed_after_reindex :
    (applyBlocks [({ transactionDupeCheck := true }, nopBlock 1 [nopTransaction 60]),
      ({}, nopBlock 2 [nopTransaction 60])] nopGenesis).isOk = true ∧
    ¬ (([({ transactionDupeCheck := true }, nopBlock 1 [nopTransaction 60]),
      ({}, nopBlock 2 [nopTransaction 60])] : List (SkipFlags × SignedBlock Nop Unit Unit)).flatMap
        fun b ↦ b.2.transactions.map SignedTransaction.id).Nodup := by
  decide +kernel

end Taiyi.Transactions
