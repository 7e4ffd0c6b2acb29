import Taiyi.Library.SparseRows
import Taiyi.Protocol.AccountName
import Taiyi.Signing.SignState

set_option autoImplicit false

namespace Taiyi.Recovery

open Library.RowList Library.SparseRows Signing

abbrev Name := String

variable {Key : Type}

def taiyiOwnerAuthRecoveryPeriod : ℕ := 30 * 86400

def taiyiAccountRecoveryRequestExpirationPeriod : ℕ := 86400

def taiyiOwnerUpdateLimit : ℕ := 60 * 60

def taiyiOwnerAuthHistoryTrackingStartBlockNum : ℕ := 1

def taiyiMaxAuthorityMembership : ℕ := 40

def taiyiTempAccount : Name := "temp"

/-- The fields of an `account_object` that recovery reads. -/
structure AccountObject where
  name : Name
  recoveryAccount : Name := ""
  lastAccountRecovery : ℕ := 0

structure AccountAuthority (Key : Type) where
  account : Name
  owner : Authority Key Name
  active : Authority Key Name
  posting : Authority Key Name
  lastOwnerUpdate : ℕ := 0

structure OwnerAuthorityHistory (Key : Type) where
  account : Name
  previousOwnerAuthority : Authority Key Name
  lastValidTime : ℕ

structure AccountRecoveryRequest (Key : Type) where
  accountToRecover : Name
  newOwnerAuthority : Authority Key Name
  expires : ℕ

structure ChangeRecoveryAccountRequest where
  accountToRecover : Name
  recoveryAccount : Name
  effectiveOn : ℕ

/-- The history is in the order of its ids, the requests are in the orders of `by_expiration` and
`by_effective_date`. -/
structure State (Key : Type) where
  headBlockNum : ℕ
  headBlockTime : ℕ
  topSiming : Name
  accounts : List AccountObject
  authorities : List (AccountAuthority Key)
  history : List (OwnerAuthorityHistory Key) := []
  requests : List (AccountRecoveryRequest Key) := []
  changes : List ChangeRecoveryAccountRequest := []

def require (c : Prop) [Decidable c] (msg : String) : Except String Unit :=
  if c then .ok ⟨⟩ else .error msg

def isImpossible (a : Authority Key Name) : Bool :=
  (a.accountAuths.map fun e ↦ e.2.toNat).sum + (a.keyAuths.map fun e ↦ e.2.toNat).sum <
    a.weightThreshold.toNat

def validateAuthSize (a : Authority Key Name) : Except String Unit :=
  require (a.accountAuths.length + a.keyAuths.length ≤ taiyiMaxAuthorityMembership)
    "Authority membership exceeded."

def validateNames (a : Authority Key Name) : Except String Unit :=
  require (∀ e ∈ a.accountAuths, Protocol.AccountName.isValidAccountName e.1.toUTF8.data.toList = true)
    "is_valid_account_name( item.first )"

namespace State

def getAccount (s : State Key) (name : Name) : Except String AccountObject :=
  match find AccountObject.name s.accounts name with
  | some a => .ok a
  | none => .error "unknown account"

def getAuthority (s : State Key) (name : Name) : Except String (AccountAuthority Key) :=
  match find AccountAuthority.account s.authorities name with
  | some a => .ok a
  | none => .error "unknown key"

def verifyAuthorityAccountsExist (s : State Key) (a : Authority Key Name) : Except String Unit :=
  require (∀ e ∈ a.accountAuths, (find AccountObject.name s.accounts e.1).isSome = true)
    "New authority on account references non-existing account"

/-- The owner authority is kept in the history, once the blocks are tracked. -/
def updateOwnerAuthority (s : State Key) (account : Name) (ownerAuthority : Authority Key Name) :
    Except String (State Key) := do
  let auth ← s.getAuthority account
  let s := if taiyiOwnerAuthHistoryTrackingStartBlockNum ≤ s.headBlockNum then
    { s with history := s.history ++ [⟨account, auth.owner, s.headBlockTime⟩] } else s
  pure { s with
    authorities := update AccountAuthority.account s.authorities account fun auth ↦
      { auth with owner := ownerAuthority, lastOwnerUpdate := s.headBlockTime } }

/-- The account that a recovery is to be requested by. -/
def recoveryAgent (s : State Key) (a : AccountObject) : Name :=
  if a.recoveryAccount ≠ "" then a.recoveryAccount else s.topSiming

end State

/-- Of the fee only whether it is the exact one and can be paid. -/
structure AccountCreate (Key : Type) where
  creator : Name
  newAccountName : Name
  owner : Authority Key Name
  active : Authority Key Name
  posting : Authority Key Name
  feePaid : Bool

structure AccountUpdate (Key : Type) where
  account : Name
  owner : Option (Authority Key Name)
  active : Option (Authority Key Name)
  posting : Option (Authority Key Name)

structure RequestAccountRecovery (Key : Type) where
  recoveryAccount : Name
  accountToRecover : Name
  newOwnerAuthority : Authority Key Name

structure RecoverAccount (Key : Type) where
  accountToRecover : Name
  newOwnerAuthority : Authority Key Name
  recentOwnerAuthority : Authority Key Name

structure ChangeRecoveryAccount where
  accountToRecover : Name
  newRecoveryAccount : Name

namespace State

def accountCreate (s : State Key) (o : AccountCreate Key) : Except String (State Key) := do
  let _ ← s.getAccount o.creator
  require (o.feePaid = true) "Must pay the exact account creation fee."
  validateAuthSize o.owner
  validateAuthSize o.active
  validateAuthSize o.posting
  s.verifyAuthorityAccountsExist o.owner
  s.verifyAuthorityAccountsExist o.active
  s.verifyAuthorityAccountsExist o.posting
  require ((find AccountObject.name s.accounts o.newAccountName).isNone ∧
      (find AccountAuthority.account s.authorities o.newAccountName).isNone)
    "Could not create object, most likely a uniqueness constraint was violated"
  pure { s with
    accounts := s.accounts ++ [{
      name := o.newAccountName
      recoveryAccount := if o.creator ≠ taiyiTempAccount then o.creator else "" }]
    authorities := s.authorities ++ [⟨o.newAccountName, o.owner, o.active, o.posting, 0⟩] }

/-- A part of an operation that may be left out. -/
def whenGiven {α : Type} (x : Option α) (check : α → Except String Unit) : Except String Unit :=
  match x with
  | some a => check a
  | none => .ok ⟨⟩

/-- The part of an account update that is about the owner authority. -/
def updateOwner (s : State Key) (account : Name) (accountAuth : AccountAuthority Key) :
    Option (Authority Key Name) → Except String (State Key)
  | some owner => do
    require (accountAuth.lastOwnerUpdate + taiyiOwnerUpdateLimit < s.headBlockTime)
      "Owner authority can only be updated once an hour."
    s.verifyAuthorityAccountsExist owner
    s.updateOwnerAuthority account owner
  | none => .ok s

def accountUpdate (s : State Key) (o : AccountUpdate Key) : Except String (State Key) := do
  require (o.account ≠ taiyiTempAccount) "Cannot update temp account."
  whenGiven o.posting validateNames
  let _ ← s.getAccount o.account
  let accountAuth ← s.getAuthority o.account
  whenGiven o.owner validateAuthSize
  whenGiven o.active validateAuthSize
  whenGiven o.posting validateAuthSize
  let s ← s.updateOwner o.account accountAuth o.owner
  whenGiven o.active s.verifyAuthorityAccountsExist
  whenGiven o.posting s.verifyAuthorityAccountsExist
  pure { s with
    authorities := update AccountAuthority.account s.authorities o.account fun auth ↦
      { auth with active := o.active.getD auth.active, posting := o.posting.getD auth.posting } }

/-- Who requests a recovery is the recovery account, or the top siming for an account without one. -/
def checkAgent (s : State Key) (accountToRecover : AccountObject) (recoveryAccount : Name) :
    Except String Unit :=
  if accountToRecover.recoveryAccount ≠ "" then
    require (accountToRecover.recoveryAccount = recoveryAccount)
      "Cannot recover an account that does not have you as there recovery partner."
  else
    require (s.topSiming = recoveryAccount) "Top siming must recover an account with no recovery partner."

def requestAccountRecovery (s : State Key) (o : RequestAccountRecovery Key) :
    Except String (State Key) := do
  let accountToRecover ← s.getAccount o.accountToRecover
  s.checkAgent accountToRecover o.recoveryAccount
  let request : AccountRecoveryRequest Key := ⟨o.accountToRecover, o.newOwnerAuthority,
    s.headBlockTime + taiyiAccountRecoveryRequestExpirationPeriod⟩
  match find AccountRecoveryRequest.accountToRecover s.requests o.accountToRecover with
  | none =>
    require (isImpossible o.newOwnerAuthority = false) "Cannot recover using an impossible authority."
    require (o.newOwnerAuthority.weightThreshold ≠ 0) "Cannot recover using an open authority."
    validateAuthSize o.newOwnerAuthority
    s.verifyAuthorityAccountsExist o.newOwnerAuthority
    pure { s with requests := insertBy AccountRecoveryRequest.expires request s.requests }
  | some _ =>
    let others := remove AccountRecoveryRequest.accountToRecover s.requests o.accountToRecover
    if o.newOwnerAuthority.weightThreshold = 0 then
      pure { s with requests := others }
    else
      require (isImpossible o.newOwnerAuthority = false) "Cannot recover using an impossible authority."
      s.verifyAuthorityAccountsExist o.newOwnerAuthority
      pure { s with requests := insertBy AccountRecoveryRequest.expires request others }

variable [DecidableEq Key]

def recoverAccount (s : State Key) (o : RecoverAccount Key) : Except String (State Key) := do
  let account ← s.getAccount o.accountToRecover
  require (account.lastAccountRecovery + taiyiOwnerUpdateLimit < s.headBlockTime)
    "Owner authority can only be updated once an hour."
  match find AccountRecoveryRequest.accountToRecover s.requests o.accountToRecover with
  | none => .error "There are no active recovery requests for this account."
  | some request =>
    require (request.newOwnerAuthority = o.newOwnerAuthority)
      "New owner authority does not match recovery request."
    require (∃ h ∈ s.history, h.account = o.accountToRecover ∧
        h.previousOwnerAuthority = o.recentOwnerAuthority)
      "Recent authority not found in authority history."
    let s := { s with
      requests := remove AccountRecoveryRequest.accountToRecover s.requests o.accountToRecover }
    let s ← s.updateOwnerAuthority o.accountToRecover o.newOwnerAuthority
    pure { s with
      accounts := update AccountObject.name s.accounts o.accountToRecover fun a ↦
        { a with lastAccountRecovery := s.headBlockTime } }

omit [DecidableEq Key] in
def changeRecoveryAccount (s : State Key) (o : ChangeRecoveryAccount) : Except String (State Key) := do
  let _ ← s.getAccount o.newRecoveryAccount
  let accountToRecover ← s.getAccount o.accountToRecover
  let request : ChangeRecoveryAccountRequest :=
    ⟨o.accountToRecover, o.newRecoveryAccount, s.headBlockTime + taiyiOwnerAuthRecoveryPeriod⟩
  match find ChangeRecoveryAccountRequest.accountToRecover s.changes o.accountToRecover with
  | none => pure { s with changes := insertBy ChangeRecoveryAccountRequest.effectiveOn request s.changes }
  | some _ =>
    let others := remove ChangeRecoveryAccountRequest.accountToRecover s.changes o.accountToRecover
    if accountToRecover.recoveryAccount ≠ o.newRecoveryAccount then
      pure { s with changes := insertBy ChangeRecoveryAccountRequest.effectiveOn request others }
    else
      pure { s with changes := others }

end State

/-- The loop over the changes of recovery accounts that are effective. -/
def applyChanges (headBlockTime : ℕ) : List ChangeRecoveryAccountRequest → List AccountObject →
    Except String (List ChangeRecoveryAccountRequest × List AccountObject)
  | [], accounts => .ok ([], accounts)
  | req :: changes, accounts =>
    if req.effectiveOn ≤ headBlockTime then
      match find AccountObject.name accounts req.accountToRecover with
      | none => .error "unknown account"
      | some _ => applyChanges headBlockTime changes
          (update AccountObject.name accounts req.accountToRecover fun a ↦
            { a with recoveryAccount := req.recoveryAccount })
    else .ok (req :: changes, accounts)

namespace State

/-- Each loop takes from the front of its index what is due. -/
def accountRecoveryProcessing (s : State Key) : Except String (State Key) := do
  let (changes, accounts) ← applyChanges s.headBlockTime s.changes s.accounts
  pure { s with
    requests := s.requests.dropWhile fun req ↦ req.expires ≤ s.headBlockTime
    history := s.history.dropWhile fun hist ↦
      hist.lastValidTime + taiyiOwnerAuthRecoveryPeriod < s.headBlockTime
    changes := changes
    accounts := accounts }

/-- The end of a block: its number and time are the new head, before recoveries are processed. -/
def applyBlock (s : State Key) (timestamp : ℕ) : Except String (State Key) := do
  require (s.headBlockTime < timestamp) "head_block_time() < next_block.timestamp"
  accountRecoveryProcessing { s with headBlockNum := s.headBlockNum + 1, headBlockTime := timestamp }

end State

/-- The operations that recovery is about, a change of the votes for the simings, and the end of a
block. -/
inductive Event (Key : Type)
  | accountCreate (o : AccountCreate Key)
  | accountUpdate (o : AccountUpdate Key)
  | requestAccountRecovery (o : RequestAccountRecovery Key)
  | recoverAccount (o : RecoverAccount Key)
  | changeRecoveryAccount (o : ChangeRecoveryAccount)
  | vote (topSiming : Name)
  | block (timestamp : ℕ)

namespace State

variable [DecidableEq Key]

def apply (s : State Key) : Event Key → Except String (State Key)
  | .accountCreate o => s.accountCreate o
  | .accountUpdate o => s.accountUpdate o
  | .requestAccountRecovery o => s.requestAccountRecovery o
  | .recoverAccount o => s.recoverAccount o
  | .changeRecoveryAccount o => s.changeRecoveryAccount o
  | .vote topSiming => .ok { s with topSiming := topSiming }
  | .block timestamp => s.applyBlock timestamp

/-- What throws is undone. -/
def next (s : State Key) (e : Event Key) : State Key :=
  match s.apply e with
  | .ok t => t
  | .error _ => s

end State

def threshold (n : UInt32) : Authority Key Name := ⟨n, [], []⟩

/-- The accounts of `init_genesis`, of which the last has the key of the chain's start. -/
def genesis (initPublicKey : Key) : State Key where
  headBlockNum := 0
  headBlockTime := 1762840800
  topSiming := "danuo"
  accounts := [{ name := "null" }, { name := "zuowang.dao", recoveryAccount := "zuowang.dao" },
    { name := "taiyi.danuo", recoveryAccount := "taiyi.danuo" }, { name := "temp" }, { name := "danuo" }]
  authorities := [⟨"null", threshold 1, threshold 1, threshold 1, 0⟩,
    ⟨"zuowang.dao", threshold 1, threshold 1, threshold 1, 0⟩,
    ⟨"taiyi.danuo", threshold 1, threshold 1, threshold 1, 0⟩,
    ⟨"temp", threshold 0, threshold 0, threshold 1, 0⟩,
    ⟨"danuo", ⟨1, [], [(initPublicKey, 1)]⟩, ⟨1, [], [(initPublicKey, 1)]⟩, ⟨1, [], [(initPublicKey, 1)]⟩, 0⟩]

end Taiyi.Recovery
