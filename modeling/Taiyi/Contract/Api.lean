import Taiyi.Contract.Worker

set_option autoImplicit false

namespace Taiyi.Contract

open Library.IdMap Library.Frame

/-- The helpers that a piece of code finds in its table, with the handler they name. -/
structure Self where
  env : Env
  handler : Handler

def readSelf (env : ℕ) : Run Self := do
  let e ← lookup (← get).envs env
  let h ← lookup (← get).handlers e.contractHelper
  pure { env := e, handler := h }

def noteUse (frame : Frame) (env : ℕ) : Run Unit := do
  let m ← get
  note (.used frame ((m.envs[env]?).map (viewOf m)))

section Nfas

def changeOwner (owner nfa : ℕ) : Access Unit :=
  ofLedger (Ledger.modifyNfa nfa fun n ↦ { n with ownerAccount := owner })

def children (o : Objects) (nfa : ℕ) : List ℕ :=
  (o.parent.toList.filter fun r ↦ r.2 = nfa).map Prod.fst

/-- The recursion of `modify_nfa_children_owner` over the NFAs that are still to do. -/
def modifyChildrenOwner (owner : ℕ) : ℕ → List ℕ → List ℕ → Access Unit
  | 0, _, _ => pure ()
  | _, [], _ => pure ()
  | turns + 1, n :: rest, seen => do
    if n ∈ seen then modifyChildrenOwner owner turns rest seen
    else
      changeOwner owner n
      modifyChildrenOwner owner turns (children (← get) n ++ rest) (n :: seen)

def assert (c : Prop) [Decidable c] (msg : String) : Access Unit :=
  if c then pure () else throw msg

/-- `transfer_nfa_by_contract`. -/
def transferNfa (fromAccount toAccount nfa : ℕ) : Access Unit := do
  assert (fromAccount ≠ toAccount) "It's no use transferring nfa to yourself"
  let _ ← ofLedger (Ledger.getAccount toAccount)
  let n ← ofLedger (Ledger.getNfa nfa)
  let o ← get
  assert (nfa ∉ o.soulBound) "SBT NFA can not be transfered between accounts"
  assert (o.parent[nfa]? = none) "Can not transfer child NFA, only can transfer root NFA"
  assert (fromAccount = n.ownerAccount) "Can not transfer NFA not ownd by the account"
  changeOwner toAccount nfa
  modifyChildrenOwner toAccount (o.parent.size + 1) (children o nfa) []

/-- `approve_nfa_active_by_contract`. -/
def approveNfaActive (fromAccount newActiveAccount nfa : ℕ) : Access Unit := do
  let _ ← ofLedger (Ledger.getAccount newActiveAccount)
  let n ← ofLedger (Ledger.getNfa nfa)
  assert (fromAccount = n.ownerAccount) "Can not change active operator of NFA not ownd"
  ofLedger (Ledger.modifyNfa nfa fun n ↦ { n with activeAccount := newActiveAccount })

/-- The four functions that put one NFA under another ask each for the authority of an account. -/
def adopt (parentAuthority childAuthority parent child : ℕ) : Access Unit := do
  ofLedger (Ledger.requireOperator parentAuthority parent)
  ofLedger (Ledger.requireOperator childAuthority child)
  assert ((← get).parent[child]? = none) "nfa already have parent"
  modify fun o ↦ { o with parent := o.parent.insert child parent }

def removeFromParent (caller nfa : ℕ) : Access Unit := do
  ofLedger (Ledger.requireOperator caller nfa)
  match (← get).parent[nfa]? with
  | none => throw "caller have no parent"
  | some p => do
    let n ← ofLedger (Ledger.getNfa p)
    assert (n.ownerAccount = caller) "caller account not the parent nfa's owner"
    modify fun o ↦ { o with parent := o.parent.erase nfa }

def enableTick (caller nfa : ℕ) : Access Unit := do
  ofLedger (Ledger.requireOperator caller nfa)
  ofLedger (Ledger.modifyNfa nfa fun n ↦
    { n with nextTickBlock := if n.nextTickBlock = Ledger.maximum then 0 else n.nextTickBlock })

def disableTick (caller nfa : ℕ) : Access Unit := do
  ofLedger (Ledger.requireOperator caller nfa)
  ofLedger (Ledger.modifyNfa nfa fun n ↦ { n with nextTickBlock := Ledger.maximum })

/-- Destroyed NFAs belong to the null account. -/
def destroy (caller nfa : ℕ) : Access Unit := do
  let n ← ofLedger (Ledger.getNfa nfa)
  assert (n.ownerAccount = caller) "caller account not the owner"
  let o ← get
  assert (o.parent[nfa]? = none) "caller with parent can not be destroyed"
  assert (children o nfa = []) "caller with child can not be destroyed"
  ofLedger (Ledger.modifyNfa nfa fun n ↦
    { n with ownerAccount := 3, activeAccount := 3, nextTickBlock := Ledger.maximum })

end Nfas

/-- The functions of `contract_helper` that work on chain objects at once. -/
inductive ContractApi
  | log
  | narrate
  | transferFromOwner (toAccount : ℕ) (amount : ℤ) (symbol : Ledger.Symbol)
  | transferFromCaller (toAccount : ℕ) (amount : ℤ) (symbol : Ledger.Symbol)
  | transferNfaFromOwner (toAccount nfa : ℕ)
  | transferNfaFromCaller (toAccount nfa : ℕ)
  | approveNfaActiveFromOwner (account nfa : ℕ)
  | approveNfaActiveFromCaller (account nfa : ℕ)
  | changeNfaActiveOperator (nfa account : ℕ)
  | takeQi (nfa : ℕ) (qi : ℤ)
  | createCultivation (cult managerNfa : ℕ) (entries : List (ℕ × ℤ)) (prepareTime : ℕ)
  | participateCultivation (cult nfa value : ℕ)
  | startCultivation (cult : ℕ)
  | stopAndCloseCultivation (cult seed : ℕ)
  | updateCultivation (cult seed : ℕ)

/-- The functions of `nfa_helper` that work on chain objects at once. -/
inductive NfaApi
  | transferTo (nfa : ℕ) (amount : ℤ) (symbol : Ledger.Symbol)
  | injectMaterialTo (nfa : ℕ) (amount : ℤ) (r : Ledger.Resource)
  | separateMaterialOut (nfa : ℕ) (amount : ℤ) (r : Ledger.Resource)
  | depositFrom (account : ℕ) (amount : ℤ) (symbol : Ledger.Symbol)
  | depositFromOwner (amount : ℤ) (symbol : Ledger.Symbol)
  | withdrawTo (account : ℕ) (amount : ℤ) (symbol : Ledger.Symbol)
  | convertQiToResource (amount : ℤ) (r : Ledger.Resource)
  | convertResourceToQi (amount : ℤ) (r : Ledger.Resource)
  | addChild (nfa : ℕ)
  | addToParent (nfa : ℕ)
  | addChildFromContractOwner (nfa : ℕ)
  | addToParentFromContractOwner (nfa : ℕ)
  | removeFromParent
  | enableTick
  | disableTick
  | destroy

section Apply

-- `hasher::hash` of a seed
variable (hash : ℕ → ℕ)

def ContractApi.access (caller owner : ℕ) : ContractApi → Access Unit
  | .log => pure ()
  | .narrate => pure ()
  | .transferFromOwner a amount symbol => ofLedger (Ledger.transferByContract owner a amount symbol)
  | .transferFromCaller a amount symbol =>
    ofLedger (Ledger.transferByContract caller a amount symbol)
  | .transferNfaFromOwner a n => transferNfa owner a n
  | .transferNfaFromCaller a n => transferNfa caller a n
  | .approveNfaActiveFromOwner a n => approveNfaActive owner a n
  | .approveNfaActiveFromCaller a n => approveNfaActive caller a n
  | .changeNfaActiveOperator n a => approveNfaActive caller a n
  | .takeQi n qi => ofLedger (Ledger.takeQi caller n qi)
  | .createCultivation cult manager entries time =>
    ofLedger (Ledger.createCultivation caller cult manager entries time)
  | .participateCultivation cult n value =>
    ofLedger (Ledger.participateCultivation caller cult n value)
  | .startCultivation cult => ofLedger (Ledger.startCultivation caller cult)
  | .stopAndCloseCultivation cult seed =>
    ofLedger (Ledger.stopAndCloseCultivation hash caller cult seed)
  | .updateCultivation cult seed => ofLedger (Ledger.updateCultivationByContract hash caller cult seed)

def ContractApi.points : ContractApi → ℤ
  | .log => 1
  | .narrate | .takeQi .. | .participateCultivation .. | .startCultivation .. => 2
  | .transferFromOwner .. | .transferFromCaller .. => 2
  | .transferNfaFromOwner .. | .transferNfaFromCaller .. | .updateCultivation .. => 3
  | .approveNfaActiveFromOwner .. | .approveNfaActiveFromCaller .. => 3
  | .changeNfaActiveOperator .. | .createCultivation .. | .stopAndCloseCultivation .. => 5

def NfaApi.access (callerAccount owner nfa : ℕ) : NfaApi → Access Unit
  | .transferTo n amount symbol =>
    ofLedger (Ledger.transferNfaByContract callerAccount nfa n amount symbol)
  | .injectMaterialTo n amount r =>
    ofLedger (Ledger.injectMaterialByContract callerAccount nfa n amount r)
  | .separateMaterialOut n amount r =>
    ofLedger (Ledger.separateMaterialByContract callerAccount nfa n amount r)
  | .depositFrom a amount symbol =>
    ofLedger (Ledger.depositByContract callerAccount a nfa amount symbol)
  | .depositFromOwner amount symbol =>
    ofLedger (Ledger.depositByContract callerAccount owner nfa amount symbol)
  | .withdrawTo a amount symbol =>
    ofLedger (Ledger.withdrawByContract callerAccount nfa a amount symbol)
  | .convertQiToResource amount r => ofLedger (Ledger.convertQiToResource callerAccount nfa amount r)
  | .convertResourceToQi amount r => ofLedger (Ledger.convertResourceToQi callerAccount nfa amount r)
  | .addChild n => adopt callerAccount callerAccount nfa n
  | .addToParent n => adopt callerAccount callerAccount n nfa
  | .addChildFromContractOwner n => adopt callerAccount owner nfa n
  | .addToParentFromContractOwner n => adopt owner callerAccount n nfa
  | .removeFromParent => Contract.removeFromParent callerAccount nfa
  | .enableTick => Contract.enableTick callerAccount nfa
  | .disableTick => Contract.disableTick callerAccount nfa
  | .destroy => Contract.destroy callerAccount nfa

def NfaApi.points : NfaApi → ℤ
  | .enableTick | .disableTick => 0
  | .injectMaterialTo .. | .separateMaterialOut .. => 6
  | .transferTo .. | .depositFrom .. | .depositFromOwner .. | .withdrawTo .. => 3
  | .convertQiToResource .. | .convertResourceToQi .. => 2
  | _ => 1

end Apply

end Taiyi.Contract
