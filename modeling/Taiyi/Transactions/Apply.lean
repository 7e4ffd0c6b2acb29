import Taiyi.Library.RowList

set_option autoImplicit false

namespace Taiyi.Transactions

open Library.RowList

/-- The steps of validation that a caller may skip. -/
structure SkipFlags where
  simingSignature : Bool := false
  transactionSignatures : Bool := false
  transactionDupeCheck : Bool := false
  taposCheck : Bool := false
  authorityCheck : Bool := false
  merkleCheck : Bool := false
  simingScheduleCheck : Bool := false
  validate : Bool := false
  deriving DecidableEq

structure Transaction (Op : Type) where
  refBlockNum : ℕ
  refBlockPrefix : ℕ
  expiration : ℕ
  operations : List Op
  deriving DecidableEq

structure SignedTransaction (Op Sig : Type) extends Transaction Op where
  signatures : List Sig
  deriving DecidableEq

/-- `transaction::id` hashes the transaction without its signatures. Its collisions never
join transactions that expire at different times. -/
class TransactionId (Op : Type) (TrxId : outParam Type) where
  id : Transaction Op → TrxId
  expiration_eq : ∀ {t u}, id t = id u → t.expiration = u.expiration

export TransactionId (expiration_eq)

def SignedTransaction.id {Op Sig TrxId : Type} [TransactionId Op TrxId]
    (t : SignedTransaction Op Sig) : TrxId :=
  TransactionId.id t.toTransaction

/-- The fields of the global properties that `_apply_transaction` reads. -/
structure Head where
  blockNumber : ℕ
  time : ℕ
  deriving DecidableEq

structure TransactionObject (Op Sig TrxId Result : Type) where
  trxId : TrxId
  expiration : ℕ
  packedTrx : SignedTransaction Op Sig
  operationResults : List Result
  deriving DecidableEq

/-- The state between two calls. `transactions` is the `by_expiration` index; `world` is
everything else that evaluators see. -/
structure State (Op Sig TrxId Result World : Type) where
  head : Head
  blockSummary : ℕ → ℕ
  transactions : List (TransactionObject Op Sig TrxId Result)
  world : World

inductive ApplyError
  | invalid
  | duplicate
  | missingAuthority
  | tapos
  | expiration
  | operation (e : String)
  | block (e : String)
  deriving DecidableEq

/-- `blockNum` is one more than the number in `previous`, so a block that continues the head
has the next number. -/
structure SignedBlock (Op Sig Header : Type) where
  blockNum : ℕ
  timestamp : ℕ
  idPrefix : ℕ
  header : Header
  transactions : List (SignedTransaction Op Sig)
  deriving DecidableEq

/-- What the operations, the authorities and the rest of block application do to the world.
None of it reaches the head or the transaction index. -/
class Protocol (Op Sig : Type) (Result World Header : outParam Type) where
  validateOperation : Op → Bool
  verifyAuthority : SignedTransaction Op Sig → World → Bool
  applyOperation : Head → Op → World → Except String (Result × World)
  openBlock : SkipFlags → Head → SignedBlock Op Sig Header → World → Except String World
  closeBlock : SkipFlags → Head → SignedBlock Op Sig Header → World → Except String World

def taiyiMaxTimeUntilExpiration : ℕ := 60 * 60

variable {Op Sig TrxId Result World Header : Type} [DecidableEq TrxId] [TransactionId Op TrxId]
  [Protocol Op Sig Result World Header]

namespace Transaction

def validate (Sig : Type) {Result World Header : Type} [Protocol Op Sig Result World Header]
    (t : Transaction Op) : Bool :=
  0 < t.operations.length && t.operations.all (Protocol.validateOperation Sig)

end Transaction

namespace State

variable (s : State Op Sig TrxId Result World)

def isKnownTransaction (id : TrxId) : Bool := s.transactions.any fun o ↦ o.trxId = id

/-- `create` of the object, with the results that are stored after the operations. A new object
has the greatest object id. -/
def record (t : SignedTransaction Op Sig) (results : List Result) :
    State Op Sig TrxId Result World :=
  { s with
    transactions := insertBy TransactionObject.expiration ⟨t.id, t.expiration, t, results⟩
      s.transactions }

/-- The reference to a recent block and the expiration; block 1 has neither check. -/
def checkTime (skip : SkipFlags) (t : SignedTransaction Op Sig) : Except ApplyError Unit :=
  if 0 < s.head.blockNumber then
    if !skip.taposCheck && t.refBlockPrefix ≠ s.blockSummary t.refBlockNum then .error .tapos
    else if s.head.time + taiyiMaxTimeUntilExpiration < t.expiration then .error .expiration
    else if s.head.time < t.expiration then .ok ()
    else .error .expiration
  else .ok ()

/-- `clear_expired_transactions`. -/
def clearExpiredTransactions : State Op Sig TrxId Result World :=
  { s with transactions := s.transactions.dropWhile fun o ↦ o.expiration < s.head.time }

end State

/-- The loop over the operations. -/
def applyOperations (Sig : Type) {Result World Header : Type} [Protocol Op Sig Result World Header]
    (now : Head) : List Op → World → Except String (List Result × World)
  | [], w => .ok ([], w)
  | op :: ops, w =>
    match Protocol.applyOperation Sig now op w with
    | .error e => .error e
    | .ok (r, w) =>
      match applyOperations Sig now ops w with
      | .error e => .error e
      | .ok (rs, w) => .ok (r :: rs, w)

/-- `database::_apply_transaction`; a throw leaves nothing behind because every caller undoes it. -/
def applyTransaction (skip : SkipFlags) (t : SignedTransaction Op Sig)
    (s : State Op Sig TrxId Result World) : Except ApplyError (State Op Sig TrxId Result World) :=
  if !skip.validate && !t.validate Sig then .error .invalid
  else if !skip.transactionDupeCheck && s.isKnownTransaction t.id then .error .duplicate
  else if !(skip.transactionSignatures || skip.authorityCheck)
      && !Protocol.verifyAuthority t s.world then .error .missingAuthority
  else
    match s.checkTime skip t with
    | .error e => .error e
    | .ok _ =>
      match applyOperations Sig s.head t.operations s.world with
      | .error e => .error (.operation e)
      | .ok (results, w) =>
        if skip.transactionDupeCheck then .ok { s with world := w }
        else .ok { s.record t results with world := w }

def applyTransactions (skip : SkipFlags) : List (SignedTransaction Op Sig) →
    State Op Sig TrxId Result World → Except ApplyError (State Op Sig TrxId Result World)
  | [], s => .ok s
  | t :: ts, s =>
    match applyTransaction skip t s with
    | .error e => .error e
    | .ok s => applyTransactions skip ts s

/-- `_apply_block` up to the transactions: the link to the head, the time, and the checks of
the rest of the block. -/
def startBlock (skip : SkipFlags) (b : SignedBlock Op Sig Header)
    (s : State Op Sig TrxId Result World) : Except ApplyError (State Op Sig TrxId Result World) :=
  if b.blockNum ≠ s.head.blockNumber + 1 then .error (.block "previous")
  else if b.timestamp ≤ s.head.time then .error (.block "head_block_time")
  else
    match Protocol.openBlock skip s.head b s.world with
    | .error e => .error (.block e)
    | .ok w => .ok { s with world := w }

/-- `create_block_summary` keeps the ids of the last 65536 blocks. -/
def State.createBlockSummary (s : State Op Sig TrxId Result World)
    (b : SignedBlock Op Sig Header) : State Op Sig TrxId Result World :=
  { s with blockSummary := fun n ↦ if n = b.blockNum % 65536 then b.idPrefix else s.blockSummary n }

/-- `_apply_block` after the transactions: the head moves to the block, and the records of
expired transactions go. -/
def finishBlock (skip : SkipFlags) (b : SignedBlock Op Sig Header)
    (s : State Op Sig TrxId Result World) : Except ApplyError (State Op Sig TrxId Result World) :=
  match Protocol.closeBlock skip ⟨b.blockNum, b.timestamp⟩ b s.world with
  | .error e => .error (.block e)
  | .ok w =>
    .ok (State.createBlockSummary
      { s with head := ⟨b.blockNum, b.timestamp⟩, world := w } b).clearExpiredTransactions

/-- `database::_apply_block`. -/
def applyBlock (skip : SkipFlags) (b : SignedBlock Op Sig Header)
    (s : State Op Sig TrxId Result World) : Except ApplyError (State Op Sig TrxId Result World) :=
  match startBlock skip b s with
  | .error e => .error e
  | .ok s =>
    match applyTransactions skip b.transactions s with
    | .error e => .error e
    | .ok s => finishBlock skip b s

/-- A chain of blocks, each under its own flags. -/
def applyBlocks : List (SkipFlags × SignedBlock Op Sig Header) →
    State Op Sig TrxId Result World → Except ApplyError (State Op Sig TrxId Result World)
  | [], s => .ok s
  | (skip, b) :: bs, s =>
    match applyBlock skip b s with
    | .error e => .error e
    | .ok s => applyBlocks bs s

section Inversion

variable {s s' : State Op Sig TrxId Result World} {skip : SkipFlags}

/-- Everything an applied transaction passed and did. -/
theorem applyTransaction_ok {t : SignedTransaction Op Sig} (h : applyTransaction skip t s = .ok s') :
    (skip.transactionDupeCheck = false → s.isKnownTransaction t.id = false) ∧
      s.checkTime skip t = .ok () ∧
      ∃ results w, s' = if skip.transactionDupeCheck then { s with world := w }
        else { s.record t results with world := w } := by
  unfold applyTransaction at h
  split at h
  · cases h
  split at h
  · cases h
  next hdupe =>
  split at h
  · cases h
  split at h
  · cases h
  next hc =>
  split at h
  · cases h
  next results w ho =>
  refine ⟨fun hskip ↦ by simpa [hskip] using hdupe, hc, results, w, ?_⟩
  split at h
  · next hskip => rw [if_pos hskip]; exact (Except.ok.inj h).symm
  · next hskip => rw [if_neg hskip]; exact (Except.ok.inj h).symm

theorem applyTransactions_cons_ok {t : SignedTransaction Op Sig} {ts : List (SignedTransaction Op Sig)}
    (h : applyTransactions skip (t :: ts) s = .ok s') :
    ∃ s₁, applyTransaction skip t s = .ok s₁ ∧ applyTransactions skip ts s₁ = .ok s' := by
  rw [applyTransactions] at h
  split at h
  · cases h
  · next s₁ ht => exact ⟨s₁, ht, h⟩

omit [DecidableEq TrxId] [TransactionId Op TrxId] in
theorem startBlock_ok {b : SignedBlock Op Sig Header} (h : startBlock skip b s = .ok s') :
    b.blockNum = s.head.blockNumber + 1 ∧ s.head.time < b.timestamp ∧
      ∃ w, Protocol.openBlock skip s.head b s.world = .ok w ∧ s' = { s with world := w } := by
  unfold startBlock at h
  split at h
  · cases h
  next hn =>
  split at h
  · cases h
  next ht =>
  split at h
  · cases h
  next w hw => exact ⟨not_not.mp hn, Nat.lt_of_not_le ht, w, hw, (Except.ok.inj h).symm⟩

omit [DecidableEq TrxId] [TransactionId Op TrxId] in
theorem finishBlock_ok {b : SignedBlock Op Sig Header} (h : finishBlock skip b s = .ok s') :
    ∃ w, Protocol.closeBlock skip ⟨b.blockNum, b.timestamp⟩ b s.world = .ok w ∧
      s' = (State.createBlockSummary
        { s with head := ⟨b.blockNum, b.timestamp⟩, world := w } b).clearExpiredTransactions := by
  unfold finishBlock at h
  split at h
  · cases h
  · next w hw => exact ⟨w, hw, (Except.ok.inj h).symm⟩

theorem applyBlock_ok {b : SignedBlock Op Sig Header} (h : applyBlock skip b s = .ok s') :
    ∃ s₁ s₂, startBlock skip b s = .ok s₁ ∧ applyTransactions skip b.transactions s₁ = .ok s₂ ∧
      finishBlock skip b s₂ = .ok s' := by
  unfold applyBlock at h
  split at h
  · cases h
  next s₁ h₁ =>
  split at h
  · cases h
  · next s₂ h₂ => exact ⟨s₁, s₂, h₁, h₂, h⟩

theorem applyBlocks_cons_ok {b : SignedBlock Op Sig Header}
    {bs : List (SkipFlags × SignedBlock Op Sig Header)} (h : applyBlocks ((skip, b) :: bs) s = .ok s') :
    ∃ s₁, applyBlock skip b s = .ok s₁ ∧ applyBlocks bs s₁ = .ok s' := by
  rw [applyBlocks] at h
  split at h
  · cases h
  · next s₁ hb => exact ⟨s₁, hb, h⟩

end Inversion

end Taiyi.Transactions
