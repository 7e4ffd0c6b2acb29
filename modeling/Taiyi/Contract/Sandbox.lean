import Taiyi.Contract.Machine
import Taiyi.Library.Frame

set_option autoImplicit false

namespace Taiyi.Contract

open Library.IdMap Library.Frame

def note (e : Event) : Run Unit := modify fun m ↦ { m with events := e :: m.events }

/-- `FC_ASSERT`. -/
def require (c : Prop) [Decidable c] (msg : String) : Run Unit :=
  if c then pure () else throw (.assertion msg)

def lookup {V : Type} (t : Table V) (id : ℕ) : Run V :=
  match t[id]? with
  | some v => pure v
  | none => throw (.assertion "unknown key")

/-- A call into the database about the objects that contracts work on. -/
abbrev Access := EStateM String Objects

def onObjects {α : Type} (x : Access α) : Run α := fun m ↦
  match x.run m.objects with
  | .ok a o => .ok a { m with objects := o }
  | .error msg o => .error (.assertion msg) { m with objects := o }

def ofLedger {α : Type} (x : Ledger.Call α) : Access α := fun o ↦
  match x.run o.ledger with
  | .ok a l => .ok a { o with ledger := l }
  | .error msg l => .error msg { o with ledger := l }

def onLedger {α : Type} (x : Ledger.Call α) : Run α := onObjects (ofLedger x)

def modifyVm (f : Vm → Vm) : Run Unit := modify fun m ↦ { m with vm := f m.vm }

def addExePoint (points : ℤ) : Run Unit := modify fun m ↦ { m with exePoint := m.exePoint + points }

def setRunZone (zone : Option ℕ) : Run Unit := modify fun m ↦ { m with runZone := zone }

def setCurrent (contract : Option ℕ) : Run Unit :=
  modifyVm fun vm ↦ { vm with currentContract := contract }

def getContract (k : ℕ) : Run ContractObject := do lookup (← get).contracts k

def modifyContract (k : ℕ) (f : ContractObject → ContractObject) : Run Unit := do
  let c ← getContract k
  modify fun m ↦ { m with contracts := m.contracts.insert k (f c) }

def Vm.outOfBudget (vm : Vm) : Prop := vm.enableDrops = true ∧ vm.drops < 0

instance (vm : Vm) : Decidable vm.outOfBudget := inferInstanceAs (Decidable (_ ∧ _))

/-- `luaD_throw` of `LUA_ERRMEM`: a jump to the last `lua_pcall`, or a panic that C++ catches. -/
def memoryError : Run Unit := do
  if (← get).vm.protectedCalls = 0 then throw (.assertion "VM collapse")
  else
    note .jumped
    throw .jump

def spend (cost : ℕ) : Run Unit :=
  modifyVm fun vm ↦ { vm with drops := if vm.enableDrops then vm.drops - cost else vm.drops }

/-- `luaM_realloc_`, which pays for memory before it allocates or frees it. -/
def allocate (cost : ℕ) : Run Unit := do
  spend cost
  if (← get).vm.outOfBudget then memoryError

/-- Whether a call was successful to `lua_pcall`: a run that was cut off is. -/
def message : Except Err Unit → Option String
  | .ok _ => none
  | .error .truncated => none
  | .error (.assertion msg) => some msg
  | .error .jump => some "not enough memory"

def setProtected (n : ℕ) : Run Unit := modifyVm fun vm ↦ { vm with protectedCalls := n }

def luaPcall (x : Run Unit) : Run (Option String) := do
  let previous := (← get).vm.protectedCalls
  setProtected (previous + 1)
  let r ← attempt x
  setProtected previous
  pure (message r)

def raise : Option String → Run Unit
  | some msg => throw (.assertion msg)
  | none => pure ()

/-- What a `catch` of `fc::exception` that throws again makes of an end. -/
def cleanUp (cleanup : Run Unit) : Except Err Unit → Run Unit
  | .ok _ => pure ()
  | .error (.assertion msg) => do
    cleanup
    throw (.assertion msg)
  | .error err => throw err

def onAssertion (x cleanup : Run Unit) : Run Unit := do
  let r ← attempt x
  cleanUp cleanup r

section Handlers

/-- The constructor of `contract_handler` copies the data of the contract and of the account. -/
def newHandler (caller : ℕ) (nfaCaller : Option ℕ) (contract : ℕ) (isInEval : Bool)
    (keptBy : Option ℕ) : Run ℕ := do
  modifyContract contract fun c ↦ { c with accountData := c.accountData.insertIfNew caller ∅ }
  let c ← getContract contract
  let accountData ← lookup c.accountData caller
  let id := (← get).fresh
  modify fun m ↦
    { m with
      handlers := m.handlers.insert id
        { caller := caller, nfaCaller := nfaCaller, contract := contract, isInEval := isInEval,
          contractData := c.contractData, accountData := accountData, keptBy := keptBy }
      fresh := id + 1 }
  pure id

/-- What the destructor writes back. -/
def ContractObject.save (c : ContractObject) (h : Handler) : ContractObject :=
  { c with
    accountData := c.accountData.insert h.caller h.accountData, contractData := h.contractData }

def Machine.saveHandler (m : Machine) (id : ℕ) : Machine :=
  match m.handlers[id]? with
  | none => m
  | some h =>
    { m with
      contracts := m.contracts.modify h.contract fun c ↦ c.save h
      handlers := m.handlers.erase id }

/-- The `_sub_chs` of a handler, in the order in which they were made. -/
def subHandlers (m : Machine) (id : ℕ) : List ℕ :=
  (m.handlers.toList.filter fun r ↦ r.2.keptBy = some id).map Prod.fst

/-- The destructor. -/
def deleteHandler (id : ℕ) : Run Unit :=
  modify fun m ↦ (subHandlers m id).foldl Machine.saveHandler (m.saveHandler id)

/-- A jump leaves the destructor out. -/
def unwind (id : ℕ) : Except Err Unit → Run Unit
  | .ok _ => deleteHandler id
  | .error .jump => do
    note (.abandoned id)
    throw .jump
  | .error err => do
    deleteHandler id
    throw err

def withHandler (caller : ℕ) (nfaCaller : Option ℕ) (contract : ℕ) (isInEval : Bool)
    (x : ℕ → Run Unit) : Run Unit := do
  let id ← newHandler caller nfaCaller contract isInEval none
  let r ← attempt (x id)
  unwind id r

end Handlers

section Sandboxes

/-- What loading the code of a contract into a new table comes to. -/
structure Setup where
  cost : ℕ := 0
  loads : Bool := true
  deriving DecidableEq

def Setup.run (setup : Setup) : Run Unit := do
  allocate setup.cost
  require (setup.loads = true) "Contract loading infrastructure failure"

def newEnv (env : Env) : Run ℕ := do
  let id := (← get).fresh
  modify fun m ↦ { m with envs := m.envs.insert id env, fresh := id + 1 }
  pure id

/-- The sandbox of a contract, made of the helpers unless there is one. -/
def ensureSandbox (contract : ℕ) (env : Env) (setup : Setup) : Run Bool := do
  match (← get).vm.sandboxes[contract]? with
  | some _ => pure false
  | none => do
    setup.run
    let id ← newEnv env
    modifyVm fun vm ↦ { vm with sandboxes := vm.sandboxes.insert contract id }
    pure true

/-- The part before the call: whether a new sandbox was made. -/
def enterSandbox (current : Option ℕ) (contract : ℕ) (env : Env) (setup : Setup) : Run Bool :=
  if current = some contract then pure false
  else do
    let isNew ← ensureSandbox contract env setup
    setCurrent (some contract)
    pure isNew

/-- The sandbox is given up and garbage is collected. -/
def closeSandbox (contract : ℕ) : Run Unit := do
  modifyVm fun vm ↦ { vm with sandboxes := vm.sandboxes.erase contract }
  allocate 0

def closeIf (close : Bool) (contract : ℕ) : Run Unit :=
  if close then closeSandbox contract else pure ()

def leaveSandbox (current : Option ℕ) (contract : ℕ) (close : Bool) : Run Unit :=
  if current = some contract then pure ()
  else do
    closeIf close contract
    setCurrent current

def viewOf (m : Machine) (env : Env) : View where
  handler := (m.handlers[env.contractHelper]?).map fun h ↦ (h.caller, h.contract)
  info := (env.baseInfo.caller, env.baseInfo.contract)
  nfa := env.nfaHelper.map fun n ↦ (n.callerAccount, n.nfa)

/-- What the code of a contract would see in the sandbox that there is. -/
def boundView (m : Machine) (contract : ℕ) : Option View := do
  let id ← m.vm.sandboxes[contract]?
  let env ← m.envs[id]?
  pure (viewOf m env)

end Sandboxes

/-- Whether there is a handler of a contract whose destructor has not run. -/
def hasHandler (m : Machine) (contract : ℕ) : Bool :=
  m.handlers.toList.any fun r ↦ r.2.contract = contract

/-- Whether a new handler for the contract is handed to its code. -/
def showsHandler (m : Machine) (current : Option ℕ) (contract : ℕ) : Bool :=
  decide (current ≠ some contract) && (m.vm.sandboxes[contract]?).isNone

/-- What the virtual machine makes of a call: how its sandbox loads, whether the function is in
it, what its arguments cost, and whether the data are too large in the end. -/
structure Conditions where
  setup : Setup := {}
  found : Bool := true
  pushCost : ℕ := 0
  oversized : Bool := false
  deriving DecidableEq

/-- The objects that a call makes, and how it is left. -/
structure Call where
  caller : ℕ
  nfaCaller : Option ℕ := none
  contract : ℕ
  nfa : Option ℕ
  infoCaller : ℕ
  invoker : ℕ
  isInEval : Bool
  closes : Bool := true
  asksForFunction : Bool := false

section Call

variable (current : Option ℕ) (c : Call) (frame : Frame) (cond : Conditions)
  (body : Frame → ℕ → Run Unit)

/-- The helpers of a call that is made with a handler. -/
def Call.env (ch : ℕ) : Env where
  contractHelper := ch
  baseInfo := { contract := c.contract, caller := c.infoCaller, invoker := c.invoker }
  nfaHelper := c.nfa.map fun n ↦ { callerAccount := c.caller, nfa := n, handler := ch }

def runFunction : Run Unit := do body frame (← lookup (← get).vm.sandboxes c.contract)

/-- What a call does while its handler lives. -/
def callInSandbox (ch : ℕ) : Run Unit := do
  let isNew ← enterSandbox current c.contract (c.env ch) cond.setup
  require (c.asksForFunction = true → cond.found = true) "bOK"
  allocate cond.pushCost
  let err ← luaPcall (runFunction c frame body)
  leaveSandbox current c.contract (isNew && c.closes)
  raise err
  require (cond.oversized = false) "the contract data size is too large."

/-- The part that all calls of a function of a contract have in common. The frame is the one the
call is meant to run in. -/
def callFunction : Run Unit := do
  let m ← get
  note (.built c.contract (showsHandler m current c.contract) (hasHandler m c.contract))
  note (.entered frame (boundView m c.contract))
  withHandler c.caller c.nfaCaller c.contract c.isInEval (callInSandbox current c frame cond body)

end Call

end Taiyi.Contract
