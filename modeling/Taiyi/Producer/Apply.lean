import Taiyi.Producer.Script
import Taiyi.Transactions.Apply

set_option autoImplicit false

namespace Taiyi.Producer

open Transactions

/-- What a siming reported in the headers of its blocks. -/
structure Report where
  runningVersion : ℕ := 0
  hardforkVersionVote : ℕ := 0
  hardforkTimeVote : ℕ := 0
  deriving DecidableEq

structure HardforkProperty where
  lastHardfork : ℕ := 0
  currentHardforkVersion : ℕ := 0
  deriving DecidableEq

/-- The database besides the head and the transactions: what evaluators change, the siming of
the block, what only the rest of block application changes, and the table of the siming plugin. -/
structure Content (World Global Plugin : Type) where
  world : World
  currentSiming : ℕ
  global : Global
  hardfork : HardforkProperty
  report : ℕ → Report
  customOps : Plugin

/-- At most one report of a version and one vote for a hardfork. -/
structure Extensions where
  version : Option ℕ := none
  vote : Option (ℕ × ℕ) := none
  deriving DecidableEq

/-- The signature is the key that `signee` recovers from it. -/
structure Header (Key Digest : Type) where
  siming : ℕ
  transactionMerkleRoot : Digest
  extensions : Extensions
  signee : Option Key
  deriving DecidableEq

def taiyiBlockInterval : ℕ := 3

/-- `TAIYI_BLOCKCHAIN_VERSION` of the main net. -/
def taiyiBlockchainVersion : ℕ := 0

/-- `_hardfork_versions`, which has the genesis alone. -/
def hardforkVersions : ℕ → ℕ := fun _ ↦ 0

def hardforkTimes : ℕ → ℕ := fun _ ↦ 1762840800

/-- The evaluators, the handlers of the siming plugin before an operation, the sizes and hashes of the wire format,
and the routines that follow the transactions of a block. -/
class Engine (Op Sig : Type) (Result World Global Plugin Key Digest : outParam Type) where
  validateOperation : Op → Bool
  verifyAuthority : SignedTransaction Op Sig → World → Bool
  evaluator : Op → Head → Global → ℕ → Evaluator World Result
  onApplyOperation : Op → World → Plugin → Except String Plugin
  packSize : SignedTransaction Op Sig → ℕ
  packName : ℕ → ℕ
  packName_le : ∀ a, packName a ≤ 17
  merkleRoot : List (SignedTransaction Op Sig) → Digest
  idPrefix : ℕ → ℕ → Header Key Digest → ℕ
  maximumBlockSize : Global → ℕ
  getScheduledSiming : Head → Global → ℕ → ℕ
  signingKey : World → ℕ → Option Key
  closeBlock : SkipFlags → Head → SignedBlock Op Sig (Header Key Digest) →
    Content World Global Plugin → Except String (Content World Global Plugin)

def getSlotTime (head : Head) (slot : ℕ) : ℕ :=
  if slot = 0 then 0
  else if head.blockNumber = 0 then head.time + slot * taiyiBlockInterval
  else head.time / taiyiBlockInterval * taiyiBlockInterval + slot * taiyiBlockInterval

def getSlotAtTime (head : Head) (t : ℕ) : ℕ :=
  if t < getSlotTime head 1 then 0 else (t - getSlotTime head 1) / taiyiBlockInterval + 1

theorem time_lt_getSlotTime (head : Head) : head.time < getSlotTime head 1 := by
  rw [getSlotTime, if_neg Nat.one_ne_zero]
  simp only [taiyiBlockInterval]
  split <;> omega

theorem lt_of_slot {head : Head} {t : ℕ} (h : 0 < getSlotAtTime head t) : head.time < t := by
  unfold getSlotAtTime at h
  split at h
  · cases h
  · next hle => exact (time_lt_getSlotTime head).trans_le (Nat.le_of_not_lt hle)

/-- The bytes of a length in front of its elements. -/
def packLength (n : ℕ) : ℕ :=
  if n < 2 ^ 7 then 1 else if n < 2 ^ 14 then 2 else if n < 2 ^ 21 then 3
  else if n < 2 ^ 28 then 4 else 5

def Extensions.packSize (e : Extensions) : ℕ :=
  1 + (if e.version.isSome then 5 else 0) + if e.vote.isSome then 9 else 0

variable {Op Sig TrxId Result World Global Plugin Key Digest : Type} [DecidableEq TrxId]
  [TransactionId Op TrxId] [DecidableEq Key] [DecidableEq Digest]
  [Engine Op Sig Result World Global Plugin Key Digest]

/-- The previous id, the timestamp, the siming, the Merkle root, the extensions and the
signature. -/
def packHeader (Op Sig : Type) {Result World Global Plugin Key Digest : Type}
    [Engine Op Sig Result World Global Plugin Key Digest] (siming : ℕ) (e : Extensions) : ℕ :=
  20 + 4 + Engine.packName Op Sig siming + 20 + e.packSize + 65

def packBlock (b : SignedBlock Op Sig (Header Key Digest)) : ℕ :=
  packHeader Op Sig b.header.siming b.header.extensions + packLength b.transactions.length +
    (b.transactions.map Engine.packSize).sum

/-- `process_header_extensions`. -/
def Content.processHeaderExtensions (c : Content World Global Plugin) (siming : ℕ) (e : Extensions) :
    Content World Global Plugin :=
  let r := c.report siming
  let r := match e.version with
    | some version => { r with runningVersion := version }
    | none => r
  let r := match e.vote with
    | some (version, time) => { r with hardforkVersionVote := version, hardforkTimeVote := time }
    | none => r
  { c with report := fun x ↦ if x = siming then r else c.report x }

/-- `_apply_block` between the link to the head and the transactions. -/
def openBlock (skip : SkipFlags) (head : Head) (b : SignedBlock Op Sig (Header Key Digest))
    (c : Content World Global Plugin) : Except String (Content World Global Plugin) :=
  if !skip.merkleCheck && b.header.transactionMerkleRoot ≠ Engine.merkleRoot b.transactions then
    .error "Merkle check failed"
  else
    match Engine.signingKey Op Sig c.world b.header.siming with
    | none => .error "unknown siming"
    | some signingKey =>
      if !skip.simingSignature && b.header.signee ≠ some signingKey then .error "validate_signee"
      else if !skip.simingScheduleCheck && (getSlotAtTime head b.timestamp = 0 ||
          Engine.getScheduledSiming Op Sig head c.global (getSlotAtTime head b.timestamp) ≠
            b.header.siming) then
        .error "Siming produced block at wrong time"
      else if Engine.maximumBlockSize Op Sig c.global < packBlock b then
        .error "Block Size is too Big"
      else
        let c := Content.processHeaderExtensions { c with currentSiming := b.header.siming }
          b.header.siming b.header.extensions
        if (c.report b.header.siming).runningVersion < c.hardfork.currentHardforkVersion then
          .error "Block produced by siming that is not running current hardfork"
        else .ok c

/-- `apply_operation`. The siming plugin hears of an operation before it is applied, also in its
`on_post_apply_operation`, and acts during production only. -/
def applyOperation (Sig : Type) {Result World Global Plugin Key Digest : Type}
    [Engine Op Sig Result World Global Plugin Key Digest] (producing : Bool) (now : Head) (op : Op)
    (c : Content World Global Plugin) (p : Process) :
    Except String (Result × Content World Global Plugin) × Process :=
  match if producing then Engine.onApplyOperation Sig op c.world c.customOps
    else .ok c.customOps with
  | .error e => (.error e, p)
  | .ok customOps =>
    andThen ((Engine.evaluator Sig op now c.global c.currentSiming).apply producing c.world p)
      fun r p ↦ (.ok (r.1, { c with world := r.2, customOps := customOps }), p)

instance : Protocol Op Sig Result (Content World Global Plugin) (Header Key Digest) where
  validateOperation := Engine.validateOperation Sig
  verifyAuthority t c := Engine.verifyAuthority t c.world
  applyOperation now op c := (applyOperation Sig false now op c {}).1
  openBlock := openBlock
  closeBlock := Engine.closeBlock

def applyOperations (Sig : Type) {Result World Global Plugin Key Digest : Type}
    [Engine Op Sig Result World Global Plugin Key Digest] (producing : Bool) (now : Head) :
    List Op → Content World Global Plugin → Process →
      Except String (List Result × Content World Global Plugin) × Process
  | [], c, p => (.ok ([], c), p)
  | op :: ops, c, p =>
    andThen (applyOperation Sig producing now op c p) fun r p ↦
      andThen (applyOperations Sig producing now ops r.2 p) fun rs p ↦
        (.ok (r.1 :: rs.1, rs.2), p)

/-- `database::_apply_transaction` in a process. -/
def applyTransaction (producing : Bool) (skip : SkipFlags) (t : SignedTransaction Op Sig)
    (s : State Op Sig TrxId Result (Content World Global Plugin)) (p : Process) :
    Except ApplyError (State Op Sig TrxId Result (Content World Global Plugin)) × Process :=
  if !skip.validate && !t.validate Sig then (.error .invalid, p)
  else if !skip.transactionDupeCheck && s.isKnownTransaction t.id then (.error .duplicate, p)
  else if !(skip.transactionSignatures || skip.authorityCheck)
      && !Protocol.verifyAuthority t s.world then (.error .missingAuthority, p)
  else
    match s.checkTime skip t with
    | .error e => (.error e, p)
    | .ok _ =>
      match applyOperations Sig producing s.head t.operations s.world p with
      | (.error e, p) => (.error (.operation e), p)
      | (.ok (results, c), p) =>
        if skip.transactionDupeCheck then (.ok { s with world := c }, p)
        else (.ok { s.record t results with world := c }, p)

def applyTransactions (producing : Bool) (skip : SkipFlags) : List (SignedTransaction Op Sig) →
    State Op Sig TrxId Result (Content World Global Plugin) → Process →
      Except ApplyError (State Op Sig TrxId Result (Content World Global Plugin)) × Process
  | [], s, p => (.ok s, p)
  | t :: ts, s, p =>
    andThen (applyTransaction producing skip t s p) (applyTransactions producing skip ts)

/-- `database::_apply_block` in a process. -/
def applyBlock (producing : Bool) (skip : SkipFlags) (b : SignedBlock Op Sig (Header Key Digest))
    (s : State Op Sig TrxId Result (Content World Global Plugin)) (p : Process) :
    Except ApplyError (State Op Sig TrxId Result (Content World Global Plugin)) × Process :=
  match startBlock skip b s with
  | .error e => (.error e, p)
  | .ok s =>
    andThen (applyTransactions producing skip b.transactions s p) fun s p ↦
      (finishBlock skip b s, p)

end Taiyi.Producer
