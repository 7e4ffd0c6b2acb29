import Taiyi.Contract.Action

set_option autoImplicit false

namespace Taiyi.Contract

open Library.IdMap Library.Frame

def enableDrops (enable : Bool) : Run Unit := modifyVm fun vm ↦ { vm with enableDrops := enable }

def setDrops (drops : ℤ) : Run Unit := modifyVm fun vm ↦ { vm with drops := drops }

section Worker

variable (outer : Option (Option ℕ)) (caller k : ℕ) (function : FunctionName) (n : ℕ) (drops : ℤ)
  (cond : Conditions) (body : Frame → ℕ → Run Unit)

/-- `do_contract_function`. What is left of the drops is in the machine. -/
def doContractFunction : Run Unit := do
  let preDropsEnable := (← get).vm.enableDrops
  enableDrops true
  setDrops drops
  onAssertion
    (do
      let c ← getContract k
      requireArguments n (c.abi.lookup function)
      let current := (← get).vm.currentContract
      let frame : Frame := { caller := caller, nfa := none, contract := k, outer := outer }
      onAssertion
        (callFunction current
          { caller := caller, contract := k, nfa := none, infoCaller := caller, invoker := k,
            isInEval := false, asksForFunction := true }
          frame cond body)
        (restoreCurrent current))
    (enableDrops preDropsEnable)
  enableDrops preDropsEnable

variable (nfa : ℕ) (isInEval : Bool)

/-- `do_nfa_contract_function`, which never closes its sandbox. -/
def doNfaContractFunction : Run Unit := do
  let preDropsEnable := (← get).vm.enableDrops
  enableDrops true
  setDrops drops
  let before := (← get).runZone
  onAssertion
    (do
      let location := findLocation (← get).objects 3 nfa
      enterZone before location
      let frame : Frame :=
        { caller := caller, nfa := some nfa, contract := k, outer := some location }
      admitAction { frame with outer := none } location before k true
      let c ← getContract k
      requireArguments n (c.abi.lookup function)
      let current := (← get).vm.currentContract
      onAssertion
        (callFunction current
          { caller := caller, contract := k, nfa := some nfa, infoCaller := caller, invoker := k,
            isInEval := isInEval, closes := false }
          frame cond body)
        (restoreCurrent current))
    (do
      enableDrops preDropsEnable
      setRunZone before)
  enableDrops preDropsEnable
  setRunZone before

end Worker

/-- A run in a `LuaContext` of its own: how it ends, and the drops that are left of it. -/
def inContext (x : Run Unit) : Run (Except Err Unit × ℤ) := do
  let vm := (← get).vm
  modifyVm fun _ ↦ {}
  let r ← attempt x
  let left := (← get).vm.drops
  modifyVm fun _ ↦ vm
  pure (r, left)

def rethrow : Except Err Unit × ℤ → Run ℤ
  | (.ok _, left) => pure left
  | (.error err, _) => throw err

def inNewContext (x : Run Unit) : Run ℤ := do rethrow (← inContext x)

section Operations

variable (outer : Option (Option ℕ)) (caller k : ℕ) (function : FunctionName) (n : ℕ)
  (cond : Conditions) (body : Frame → ℕ → Run Unit)

def setExePoint (points : ℤ) : Run Unit := modify fun m ↦ { m with exePoint := points }

/-- `call_contract_function_evaluator`. -/
def callContractFunction : Run Unit := do
  let oldDrops ← onLedger (Ledger.getBalance caller .qi)
  let c ← getContract k
  let backupApiExePoint := (← get).exePoint
  setExePoint 0
  let left ← inNewContext (doContractFunction outer caller k function n oldDrops cond body)
  let apiExePoint := (← get).exePoint
  setExePoint backupApiExePoint
  onLedger (Ledger.chargeCaller c.owner caller (oldDrops - left) apiExePoint)

/-- `eval_nfa_contract_action`. -/
def evalNfaContractAction (nfa action : ℕ) (drops : ℤ) : Run Unit := do
  let owner := (← onLedger (Ledger.getNfa nfa)).ownerAccount
  let c ← getMainContract nfa
  match c.2.actionDef action with
  | none => pure ()
  | some consequence => do
    require (consequence ≠ some true) "Can not eval action in nfa with consequence history."
    doNfaContractFunction owner c.1 (.evaluating action) n drops cond body nfa true

-- `hasher::hash` of a seed
variable (hash : ℕ → ℕ)

/-- `do_nfa_contract_action`. -/
def doNfaContractAction (nfa action seed : ℕ) (drops : ℤ) : Run Unit := do
  onLedger (requireMaterial nfa)
  onLedger (Ledger.consumeNfaMaterialRandom hash nfa seed)
  let c ← getMainContract nfa
  require (c.2.actionDef action = some (some true))
    "Can not perform action in nfa without consequence history."
  doNfaContractFunction caller c.1 (.doing action) n drops cond body nfa false

/-- `action_nfa_evaluator`. -/
def actionNfa (nfa action seed : ℕ) : Run Unit := do
  requireOperator caller nfa
  let oldDrops ← onLedger (Ledger.getBalance caller .qi)
  setExePoint 0
  let left ← inNewContext (doNfaContractAction caller n cond body hash nfa action seed oldDrops)
  let apiExePoint := (← get).exePoint
  let c ← getMainContract nfa
  onLedger (Ledger.chargeCaller c.2.owner caller (oldDrops - left) apiExePoint)

end Operations

end Taiyi.Contract
