import Taiyi.Contract.Code

set_option autoImplicit false

namespace Taiyi.Contract

open Library.IdMap Library.Frame

section Sessions

/-- The objects that an undo session puts back. -/
def undo (before : Machine) : Run Unit := do
  note .undone
  modify fun m ↦ { m with objects := before.objects, contracts := before.contracts }

def endSession (before : Machine) : Except Err Unit → Run Unit
  | .ok _ => note .squashed
  | .error err => do
    undo before
    throw err

/-- An undo session of its own, which is squashed when the run succeeds. -/
def inSession (x : Run Unit) : Run Unit := do
  let before ← get
  note .startedSession
  let r ← attempt x
  endSession before r

end Sessions

section Ticks

variable (cond : Conditions) (body : Frame → ℕ → Run Unit)

def heartBeat (nfa k : ℕ) (drops : ℤ) : Run (Except Err Unit × ℤ) :=
  inContext (inSession do
    setExePoint 0
    let owner := (← onLedger (Ledger.getNfa nfa)).ownerAccount
    doNfaContractFunction owner k .onHeartBeat 0 drops cond body nfa false)

/-- The debt of an NFA is paid first, or its tick is turned off. -/
def settleDebt (nfa : ℕ) (n : Ledger.Nfa) : Run Bool :=
  if n.debtValue ≤ 0 then pure true
  else if n.assets.qi < n.debtValue then do
    onLedger (Ledger.modifyNfa nfa fun n ↦ { n with nextTickBlock := Ledger.maximum })
    pure false
  else do
    let owner := (← getContract n.debtContract).owner
    onLedger (Ledger.payDebt nfa owner)
    pure true

def isError : Except Err Unit → Bool
  | .ok _ => false
  | .error _ => true

/-- The number of blocks after which every NFA has had its turn. -/
def tickPeriod : ℕ := 100

def beatAndCharge (nfa k : ℕ) : Run Unit := do
  let number := (← get).objects.ledger.props.headBlockNumber
  onLedger (Ledger.modifyNfa nfa fun n ↦ { n with nextTickBlock := number + tickPeriod })
  let oldDrops ← onLedger (Ledger.getNfaBalance nfa .qi)
  let r ← heartBeat cond body nfa k oldDrops
  let owner := (← getContract k).owner
  onLedger (Ledger.chargeTick nfa k owner (oldDrops - r.2) (← get).exePoint (isError r.1))

/-- One turn of the loop of `process_nfa_tick`. -/
def tickNfa (nfa : ℕ) : Run Unit := do
  let n ← onLedger (Ledger.getNfa nfa)
  if ← settleDebt nfa n then
    let c ← getMainContract nfa
    match c.2.abi.lookup .onHeartBeat with
    | none => onLedger (Ledger.modifyNfa nfa fun n ↦ { n with nextTickBlock := Ledger.maximum })
    | some _ => beatAndCharge cond body nfa c.1

end Ticks

section Proposals

variable (cond : Conditions) (body : Frame → ℕ → Run Unit)

/-- What `execute_proposals` does with one proposal: whether it counts as executed. -/
def processProposal (k : ℕ) (function : FunctionName) (n : ℕ) : Run Bool := do
  let oldDrops ← onLedger (Ledger.getBalance Ledger.taiyiDaoAccount .qi)
  if oldDrops < 100 then pure false
  else
    match (← get).contracts[k]? with
    | none => pure true
    | some _ => do
      setExePoint 0
      let r ← inContext
        (inSession (doContractFunction none Ledger.taiyiDaoAccount k function n oldDrops cond body))
      let owner := (← getContract k).owner
      onLedger (Ledger.chargeProposal owner (oldDrops - r.2) (← get).exePoint)
      pure true

end Proposals

/-- What a node executes contracts for. -/
inductive Execution
  | callContractFunction (caller k : ℕ) (function : FunctionName) (n : ℕ)
  | actionNfa (caller nfa action n seed : ℕ)
  | evalNfaAction (nfa action n : ℕ)
  | tickNfa (nfa : ℕ)
  | processProposal (k : ℕ) (function : FunctionName) (n : ℕ)

section Run

-- `hasher::hash` of a seed
variable (hash : ℕ → ℕ) (cond : Conditions) (body : Frame → ℕ → Run Unit)

def Execution.perform : Execution → Run Unit
  | .callContractFunction caller k function n =>
    Contract.callContractFunction none caller k function n cond body
  | .actionNfa caller nfa action n seed =>
    Contract.actionNfa caller n cond body hash nfa action seed
  | .evalNfaAction nfa action n => do
    let _ ← inNewContext (evalNfaContractAction n cond body nfa action 100000000)
  | .tickNfa nfa => Contract.tickNfa cond body nfa
  | .processProposal k function n => do
    let _ ← Contract.processProposal cond body k function n

/-- The execution of a piece of code as the function that is called first. -/
def Execution.run (code : Code) (e : Execution) : Run Unit :=
  e.perform hash cond fun frame env ↦ exec hash frame env code

end Run

end Taiyi.Contract
