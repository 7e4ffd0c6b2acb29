import Taiyi.Ledger.Run
import Taiyi.Library.RowList

set_option autoImplicit false

namespace Taiyi.Ledger

open Library.IdMap Library.Outcome Library.RowList

structure QiDelegation where
  delegator : ℕ
  delegatee : ℕ
  qi : ℤ
  minDelegationTime : ℕ
  deriving DecidableEq

structure QiDelegationExpiration where
  delegator : ℕ
  qi : ℤ
  expiration : ℕ
  deriving DecidableEq

/-- The ledger with the `received_qi` of every account, the delegations, and the ended ones in
the order of `by_expiration`. -/
structure Delegating where
  ledger : State
  receivedQi : ℕ → ℤ := fun _ ↦ 0
  delegations : List QiDelegation := []
  expirations : List QiDelegationExpiration := []

/-- A call into the database with the delegations. -/
abbrev Deed := EStateM String Delegating

def onLedger {α : Type} (x : Call α) : Deed α := fun d ↦
  match x.run d.ledger with
  | .ok a s => .ok a { d with ledger := s }
  | .error e s => .error e { d with ledger := s }

namespace Account

/-- The part of a running withdrawal that is still to come. -/
def pendingWithdrawal (a : Account) : ℤ :=
  if a.nextQiWithdrawalTime ≠ maximum then a.toWithdraw - a.withdrawn else 0

def getEffectiveQi (a : Account) (receivedQi : ℤ) : ℤ :=
  a.assets.qi + receivedQi - a.delegatedQi -
    if a.nextQiWithdrawalTime ≠ maximum then min a.qiWithdrawRate (a.toWithdraw - a.withdrawn)
    else 0

/-- What `delegate_qi` lets the account delegate: QI that is neither received nor delegated nor
on its way out. -/
def availableShares (a : Account) (receivedQi : ℤ) : ℤ :=
  let shares := min a.assets.qi (a.getEffectiveQi receivedQi - receivedQi)
  if a.nextQiWithdrawalTime < maximum ∧ a.qiWithdrawRate < a.toWithdraw - a.withdrawn then
    shares + (min a.qiWithdrawRate (a.toWithdraw - a.withdrawn) - (a.toWithdraw - a.withdrawn))
  else shares

end Account

/-- The least delegation and the least change of one, for the median fee of an account. -/
def minDelegation (creationFee : ℕ) : ℤ := (creationFee / 3 * 1000 : ℕ)

def minUpdate (creationFee : ℕ) : ℤ := (creationFee / 30 * 1000 : ℕ)

def delegationReturnPeriod : ℕ := 5 * 60 * 60 * 24

def QiDelegation.between (delegator delegatee : ℕ) (x : QiDelegation) : Bool :=
  x.delegator = delegator ∧ x.delegatee = delegatee

def modifyReceived (a : ℕ) (delta : ℤ) : Deed Unit :=
  modify fun d ↦ { d with receivedQi := Function.update d.receivedQi a (d.receivedQi a + delta) }

def modifyDelegated (a : ℕ) (delta : ℤ) : Deed Unit :=
  onLedger (modifyAccount a fun acc ↦ { acc with delegatedQi := acc.delegatedQi + delta })

/-- The evaluator of `delegate_qi`. -/
def delegateQi (creationFee delegator delegatee : ℕ) (qi : ℤ) : Deed Unit := do
  onLedger (require (delegator ≠ delegatee) "You cannot delegate QI to yourself")
  onLedger (require (0 ≤ qi) "Delegation cannot be negative")
  let acc ← onLedger (getAccount delegator)
  let _ ← onLedger (getAccount delegatee)
  let d ← get
  let available := acc.availableShares (d.receivedQi delegator)
  match d.delegations.find? (QiDelegation.between delegator delegatee) with
  | none =>
    onLedger (require (qi ≤ available) "Account does not have enough mana to delegate.")
    onLedger (require (minDelegation creationFee ≤ qi) "Account must delegate a minimum")
    modify fun d ↦
      { d with
        delegations := d.delegations ++ [⟨delegator, delegatee, qi, d.ledger.props.time⟩] }
    modifyDelegated delegator qi
    modifyReceived delegatee qi
  | some x =>
    if x.qi ≤ qi then
      onLedger (require (minUpdate creationFee ≤ qi - x.qi)
        "Taiyi Qi increase is not enough of a difference.")
      onLedger (require (qi - x.qi ≤ available) "Account does not have enough mana to delegate.")
      modifyDelegated delegator (qi - x.qi)
      modifyReceived delegatee (qi - x.qi)
      modify fun d ↦
        { d with
          delegations :=
            modifyFirst (QiDelegation.between delegator delegatee) (fun y ↦ { y with qi := qi })
              d.delegations }
    else
      onLedger (require (0 < qi → minUpdate creationFee ≤ x.qi - qi)
        "Taiyi Qi decrease is not enough of a difference.")
      onLedger (require (0 < qi → minDelegation creationFee ≤ qi)
        "Delegation must be removed or leave minimum delegation amount")
      onLedger (require (¬0 < qi → 0 < x.qi)
        "Delegation would set qi to zero, but it is already zero")
      modify fun d ↦
        { d with
          expirations :=
            insertBy QiDelegationExpiration.expiration
              ⟨delegator, x.qi - qi,
                max (d.ledger.props.time + delegationReturnPeriod) x.minDelegationTime⟩
              d.expirations }
      modifyReceived delegatee (-(x.qi - qi))
      modify fun d ↦
        { d with
          delegations :=
            if 0 < qi then
              modifyFirst (QiDelegation.between delegator delegatee) (fun y ↦ { y with qi := qi })
                d.delegations
            else d.delegations.eraseP (QiDelegation.between delegator delegatee) }

/-- The loop of `clear_expired_delegations` over the index; what is left of it. -/
def returnExpired (now : ℕ) :
    List QiDelegationExpiration → Call (List QiDelegationExpiration)
  | [] => pure []
  | e :: es => do
    if e.expiration < now then
      modifyAccount e.delegator fun acc ↦ { acc with delegatedQi := acc.delegatedQi - e.qi }
      returnExpired now es
    else pure (e :: es)

def clearExpiredDelegations : Deed Unit := do
  let d ← get
  let left ← onLedger (returnExpired d.ledger.props.time d.expirations)
  modify fun d ↦ { d with expirations := left }

/-- Everything that happens to the ledger and the delegations. -/
inductive Step
  | action (act : Action)
  | delegateQi (creationFee delegator delegatee : ℕ) (qi : ℤ)
  | clearExpiredDelegations

/-- The actions of the ledger other than the one that stands there for the delegations. -/
def Action.plain : Action → Prop
  | .outside (.delegateQi _ _) => False
  | _ => True

/-- An operation or a routine that throws is undone as a whole. -/
def Delegating.step (hash : ℕ → ℕ) (d : Delegating) : Step → Option Delegating
  | .action act => (act.step hash d.ledger).map fun s ↦ { d with ledger := s }
  | .delegateQi fee a b qi =>
    match (Ledger.delegateQi fee a b qi).run d with
    | .ok _ d' => some d'
    | .error _ _ => none
  | .clearExpiredDelegations =>
    match Ledger.clearExpiredDelegations.run d with
    | .ok _ d' => some d'
    | .error _ _ => none

/-- The states of the runs from `d₀` whose steps all meet a condition on the state before. -/
inductive Delegating.Reaches (hash : ℕ → ℕ) (P : Delegating → Step → Prop) (d₀ : Delegating) :
    Delegating → Prop
  | start : Reaches hash P d₀ d₀
  | step {d d' : Delegating} (st : Step) : Reaches hash P d₀ d →
      (∀ act, st = .action act → act.plain) → P d st → d.step hash st = some d' →
      Reaches hash P d₀ d'

end Taiyi.Ledger
