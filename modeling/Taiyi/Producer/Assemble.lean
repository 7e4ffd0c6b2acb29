import Taiyi.Producer.Effects

set_option autoImplicit false

namespace Taiyi.Producer

open Transactions

def taiyiBlockGenerationPostponedTxLimit : ℕ := 5

def taiyiMaxBlockSize : ℕ := 1024 * 64 * taiyiBlockInterval * 2000

def taiyiMinBlockSizeLimit : ℕ := 1024 * 64

/-- The flags of a call of `generate_block`. -/
structure GenerateFlags extends SkipFlags where
  blockSizeCheck : Bool := false

/-- `session` is the state in `_pending_tx_session`, when one is open. -/
structure Node (Op Sig TrxId Result World Global Plugin : Type) where
  head : State Op Sig TrxId Result (Content World Global Plugin)
  session : Option (State Op Sig TrxId Result (Content World Global Plugin))
  pendingTx : List (SignedTransaction Op Sig)
  producing : Bool
  process : Process

/-- The state in the session that `apply_pending_transactions` has opened, and its counters. -/
structure Assembly (Op Sig TrxId Result World Global Plugin : Type) where
  session : State Op Sig TrxId Result (Content World Global Plugin)
  producing : Bool
  process : Process
  totalBlockSize : ℕ
  postponed : ℕ
  included : List (SignedTransaction Op Sig)

variable {Op Sig TrxId Result World Global Plugin Key Digest : Type} [DecidableEq TrxId]
  [TransactionId Op TrxId] [DecidableEq Key] [DecidableEq Digest]
  [Engine Op Sig Result World Global Plugin Key Digest]

namespace Assembly

variable (skip : SkipFlags) (maximumBlockSize timestamp : ℕ)
  (a : Assembly Op Sig TrxId Result World Global Plugin)

/-- One transaction under a session of its own, which a failure undoes. -/
def tryTransaction (t : SignedTransaction Op Sig) (newTotalSize : ℕ) :
    Assembly Op Sig TrxId Result World Global Plugin :=
  let a := { a with producing := true }
  match applyTransaction a.producing skip t a.session a.process with
  | (.error _, p) => { a with producing := false, process := p }
  | (.ok s, p) =>
    { a with session := s, producing := false, process := p, totalBlockSize := newTotalSize
             included := a.included ++ [t] }

def round (t : SignedTransaction Op Sig) : Assembly Op Sig TrxId Result World Global Plugin :=
  if t.expiration < timestamp then a
  else
    let newTotalSize := a.totalBlockSize + Engine.packSize t
    if maximumBlockSize ≤ newTotalSize then { a with postponed := a.postponed + 1 }
    else a.tryTransaction skip t newTotalSize

/-- The loop over the pending transactions. -/
def applyPending (skip : SkipFlags) (maximumBlockSize timestamp : ℕ) :
    List (SignedTransaction Op Sig) → Assembly Op Sig TrxId Result World Global Plugin →
      Assembly Op Sig TrxId Result World Global Plugin
  | [], a => a
  | t :: ts, a =>
    if taiyiBlockGenerationPostponedTxLimit < a.postponed then a
    else applyPending skip maximumBlockSize timestamp ts (a.round skip maximumBlockSize timestamp t)

/-- The loop does not pass over the transaction. -/
def Considers (t : SignedTransaction Op Sig) : Prop :=
  a.postponed ≤ taiyiBlockGenerationPostponedTxLimit ∧ timestamp ≤ t.expiration ∧
    a.totalBlockSize + Engine.packSize t < maximumBlockSize

/-- The transaction applies when it has its turn. -/
def Applies (t : SignedTransaction Op Sig) : Prop :=
  ((applyTransaction true skip t a.session a.process).1).isOk = true

instance (t : SignedTransaction Op Sig) : Decidable (a.Considers maximumBlockSize timestamp t) :=
  inferInstanceAs (Decidable (_ ∧ _ ∧ _))

instance (t : SignedTransaction Op Sig) : Decidable (a.Applies skip t) :=
  inferInstanceAs (Decidable (_ = _))

end Assembly

/-- `adjust_hardfork_version_vote`. -/
def adjustHardforkVersionVote (c : Content World Global Plugin) (siming : ℕ) : Extensions :=
  let r := c.report siming
  let hfp := c.hardfork
  { version := if r.runningVersion ≠ taiyiBlockchainVersion then some taiyiBlockchainVersion else none
    vote :=
      if hfp.currentHardforkVersion < taiyiBlockchainVersion ∧
          (r.hardforkVersionVote ≠ hardforkVersions (hfp.lastHardfork + 1) ∨
            r.hardforkTimeVote ≠ hardforkTimes (hfp.lastHardfork + 1)) then
        some (hardforkVersions (hfp.lastHardfork + 1), hardforkTimes (hfp.lastHardfork + 1))
      -- the vote for a hardfork that the binary does not know is taken back
      else if hfp.currentHardforkVersion = taiyiBlockchainVersion ∧
          taiyiBlockchainVersion < r.hardforkVersionVote then
        some (hardforkVersions hfp.lastHardfork, hardforkTimes hfp.lastHardfork)
      else none }

namespace Node

variable (n : Node Op Sig TrxId Result World Global Plugin) (skip : GenerateFlags)
  (timestamp siming : ℕ) (key : Key)

/-- What the database answers, the pending transactions included. -/
def current : State Op Sig TrxId Result (Content World Global Plugin) := n.session.getD n.head

/-- `database::_push_transaction`. The session stays open also when the transaction fails. -/
def pushTransaction (skip : SkipFlags) (t : SignedTransaction Op Sig) :
    Except ApplyError Unit × Node Op Sig TrxId Result World Global Plugin :=
  match applyTransaction n.producing skip t n.current n.process with
  | (.error e, p) => (.error e, { n with session := some n.current, process := p })
  | (.ok s, p) =>
    (.ok (), { n with session := some s, pendingTx := n.pendingTx ++ [t], process := p })

/-- The session is opened again on the head, with the siming of the block. -/
def opened (e : Extensions) : Assembly Op Sig TrxId Result World Global Plugin where
  session := { n.head with world := { n.head.world with currentSiming := siming } }
  producing := n.producing
  process := n.process
  totalBlockSize := packHeader Op Sig siming e + packLength 0 + 4
  postponed := 0
  included := []

/-- `apply_pending_transactions`. -/
def applyPendingTransactions (skip : SkipFlags) :
    Assembly Op Sig TrxId Result World Global Plugin :=
  Assembly.applyPending skip (Engine.maximumBlockSize Op Sig n.current.world.global) timestamp
    n.pendingTx (n.opened siming (adjustHardforkVersionVote n.current.world siming))

def header (a : Assembly Op Sig TrxId Result World Global Plugin) : Header Key Digest where
  siming := siming
  transactionMerkleRoot := Engine.merkleRoot a.included
  extensions := adjustHardforkVersionVote n.current.world siming
  signee := if skip.simingSignature then none else some key

/-- The block with its Merkle root and its signature. -/
def pendingBlock : SignedBlock Op Sig (Header Key Digest) :=
  let a := n.applyPendingTransactions timestamp siming skip.toSkipFlags
  let h := n.header skip siming key a
  { blockNum := n.current.head.blockNumber + 1
    timestamp := timestamp
    idPrefix := Engine.idPrefix Op Sig (n.current.head.blockNumber + 1) timestamp h
    header := h
    transactions := a.included }

/-- The session is gone, and with it everything that the transactions did to the database. -/
def assembled : Node Op Sig TrxId Result World Global Plugin :=
  let a := n.applyPendingTransactions timestamp siming skip.toSkipFlags
  { n with session := none, producing := a.producing, process := a.process }

/-- `push_block` of a block on top of the head. The pending transactions go to the restorer. -/
def pushBlock (skip : SkipFlags) (b : SignedBlock Op Sig (Header Key Digest)) :
    Except ApplyError Unit × Node Op Sig TrxId Result World Global Plugin :=
  let n := { n with session := none, pendingTx := [] }
  match applyBlock n.producing skip b n.head n.process with
  | (.error e, p) => (.error e, { n with process := p })
  | (.ok s, p) => (.ok (), { n with head := s, process := p })

/-- `block_producer::_generate_block`. -/
def generateBlock : Except ApplyError (SignedBlock Op Sig (Header Key Digest)) ×
    Node Op Sig TrxId Result World Global Plugin :=
  let c := n.current
  let slotNum := getSlotAtTime c.head timestamp
  if slotNum = 0 then (.error (.block "slot_num > 0"), n)
  else if Engine.getScheduledSiming Op Sig c.head c.world.global slotNum ≠ siming then
    (.error (.block "scheduled_siming == siming_owner"), n)
  else
    match Engine.signingKey Op Sig c.world.world siming with
    | none => (.error (.block "unknown siming"), n)
    | some signingKey =>
      if !skip.simingSignature && signingKey ≠ key then
        (.error (.block "signing_key == get_public_key()"), n)
      else
        let b := n.pendingBlock skip timestamp siming key
        let n := n.assembled skip timestamp siming
        if !skip.blockSizeCheck && taiyiMaxBlockSize < packBlock b then
          (.error (.block "pack_size(pending_block) <= TAIYI_MAX_BLOCK_SIZE"), n)
        else
          match n.pushBlock skip.toSkipFlags b with
          | (.error e, n) => (.error e, n)
          | (.ok _, n) => (.ok b, n)

end Node

end Taiyi.Producer
