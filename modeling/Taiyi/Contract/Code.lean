import Taiyi.Contract.Api

set_option autoImplicit false

namespace Taiyi.Contract

open Library.IdMap Library.Frame

inductive DataRead
  | contractData
  | accountData
  | contractDataOf (contract : ℕ)
  | accountDataOf (account contract : ℕ)

inductive DataWrite
  | contractData (entries : List (ℕ × ℤ))
  | accountData (entries : List (ℕ × ℤ))

/-- The calls of a function of another NFA's contract. -/
inductive Request
  | evalNfaAction (nfa action n : ℕ)
  | doNfaAction (nfa action n seed : ℕ)
  | evalAction (action n : ℕ)
  | doAction (action n seed : ℕ)
  | callBack (callback : Callback) (nfa n : ℕ)

/-- The calls of a function for no NFA, in the same context or in one of its own. -/
inductive Construction
  | createNfa (nfa contract minEquivalentQi : ℕ)
  | changeNfaContract (nfa contract : ℕ)
  | invoke (contract : ℕ) (function : FunctionName) (n : ℕ)

/-- What a piece of contract code does, step by step. What it does next may depend on anything it
can find out. The code of the functions that are called stands where they are called. -/
inductive Code
  | done
  | error (msg : String)
  | tick (cost : ℕ) (next : Code)
  | allocate (cost : ℕ) (next : Code)
  | look (next : Machine → Code)
  | protect (body : Code) (next : Option String → Code)
  | contractApi (api : ContractApi) (next : Code)
  | nfaApi (api : NfaApi) (next : Code)
  | read (r : DataRead) (next : Data → Code)
  | write (w : DataWrite) (next : Code)
  | importContract (contract : ℕ) (setup : Setup) (next : Code)
  | inImport (contract : ℕ) (body next : Code)
  | call (r : Request) (cond : Conditions) (body next : Code)
  | construct (c : Construction) (cond : Conditions) (body next : Code)

/-- The check of the interpreter before it executes an instruction: it leaves the loop. -/
def checkBudget : Run Unit := do
  if (← get).vm.outOfBudget then throw .truncated

section Data

def writeEntries (d : Data) (entries : List (ℕ × ℤ)) : Data :=
  entries.foldl (fun d e ↦ d.insert e.1 e.2) d

def modifyHandler (id : ℕ) (f : Handler → Handler) : Run Unit := do
  let h ← lookup (← get).handlers id
  modify fun m ↦ { m with handlers := m.handlers.insert id (f h) }

/-- `prepare_account_contract_data`. -/
def prepareAccountData (account k : ℕ) : Run Data := do
  modifyContract k fun c ↦ { c with accountData := c.accountData.insertIfNew account ∅ }
  let c ← getContract k
  lookup c.accountData account

/-- The handler answers out of its copies, the database for other contracts and accounts. -/
def readData (self : Self) : DataRead → Run Data
  | .contractData => do
    addExePoint 2
    note (.readContract self.handler.contract self.handler.contractData)
    pure self.handler.contractData
  | .accountData => do
    addExePoint 2
    note (.readAccount self.handler.caller self.handler.contract self.handler.accountData)
    pure self.handler.accountData
  | .contractDataOf k => do
    let c ← getContract k
    note (.fetched k (hasHandler (← get) k))
    note (.readContract k c.contractData)
    addExePoint 1
    pure c.contractData
  | .accountDataOf a k => do
    let _ ← onLedger (Ledger.getAccount a)
    let d ← prepareAccountData a k
    note (.fetched k (hasHandler (← get) k))
    note (.readAccount a k d)
    addExePoint 2
    pure d

def writeData (self : Self) : DataWrite → Run Unit
  | .contractData entries => do
    addExePoint 2
    modifyHandler self.env.contractHelper fun h ↦
      { h with contractData := writeEntries h.contractData entries }
    note (.wroteContract self.handler.contract entries)
  | .accountData entries => do
    modifyHandler self.env.contractHelper fun h ↦
      { h with accountData := writeEntries h.accountData entries }
    note (.wroteAccount self.handler.caller self.handler.contract entries)
    addExePoint 2

end Data

section Import

def modifyEnv (id : ℕ) (f : Env → Env) : Run Unit := do
  let e ← lookup (← get).envs id
  modify fun m ↦ { m with envs := m.envs.insert id (f e) }

def clearGlobal (k : ℕ) : Run Unit :=
  modifyVm fun vm ↦ { vm with sandboxes := vm.sandboxes.erase k }

/-- The table of an imported contract has a handler of its own, which lives as long as the handler
of the contract that runs. -/
def newImport (current : Current) (envId k : ℕ) : Run Unit := do
  let ch ← newHandler current.env.baseInfo.caller current.handler.nfaCaller k
    current.handler.isInEval (some current.env.contractHelper)
  let id ← newEnv
    { contractHelper := ch
      baseInfo :=
        { contract := k, caller := current.env.baseInfo.caller
          invoker := current.env.baseInfo.invoker }
      nfaHelper := current.env.nfaHelper }
  modifyEnv envId fun e ↦ { e with imported := e.imported.insert k id }
  -- the global variable was only there to make the table
  clearGlobal k

def makeImport (current : Current) (envId k : ℕ) (setup : Setup) : Run Unit := do
  addExePoint 3
  setup.run
  note (.built k true (hasHandler (← get) k))
  newImport current envId k

def importContract (k : ℕ) (setup : Setup) : Run Unit := do
  let current ← readCurrent
  if current.name ≠ k ∧ current.env.imported[k]? = none then
    let _ ← getContract k
    let envId ← lookup (← get).vm.sandboxes current.name
    onAssertion (makeImport current envId k setup) (clearGlobal k)

/-- The table that the code of an imported contract runs in. -/
def importedEnv (k : ℕ) : Run ℕ := do
  let current ← readCurrent
  if current.name = k then lookup (← get).vm.sandboxes k
  else lookup current.env.imported k

end Import

section Request

-- `hasher::hash` of a seed
variable (hash : ℕ → ℕ)

def selfNfa (self : Self) : Run NfaHandler :=
  match self.env.nfaHelper with
  | some n => pure n
  | none => throw (.assertion "attempt to index a nil value")

/-- On whose behalf a function is called back. -/
def Callback.caller (self : Self) : Callback → Run (Option ℕ)
  | .entering => pure none
  | .exploiting => pure (some Ledger.danuo)
  | .talking => do
    let n ← selfNfa self
    pure (some n.callerAccount)
  | .listening => pure (some Ledger.taiyiDaoAccount)

def Request.run (frame : Frame) (self : Self) (cond : Conditions) (body : Frame → ℕ → Run Unit) :
    Request → Run Unit
  | .evalNfaAction nfa action n => Contract.evalAction frame none 5 nfa action n cond body
  | .doNfaAction nfa action n seed =>
    Contract.doAction hash frame self.handler.caller none 5 nfa action n seed cond body
  | .evalAction action n => do
    let nfa ← selfNfa self
    Contract.evalAction frame (some nfa.nfa) 2 nfa.nfa action n cond body
  | .doAction action n seed => do
    let nfa ← selfNfa self
    Contract.doAction hash frame nfa.callerAccount (some nfa.nfa) 2 nfa.nfa action n seed cond body
  | .callBack callback nfa n => do
    let caller ← callback.caller self
    callNfaFunction frame caller nfa callback.function n (callback = .entering) cond body

/-- The new NFA before its init function is run. -/
def insertNfa (nfa creator k minEquivalentQi : ℕ) : Access Unit := do
  assert ((← get).ledger.nfas[nfa]? = none) "could not insert object"
  modify fun o ↦
    { o with
      ledger :=
        { o.ledger with
          nfas := o.ledger.nfas.insert nfa
            { ownerAccount := creator, activeAccount := creator,
              minEquivalentQi := minEquivalentQi, hasMaterial := false } }
      mainContract := o.mainContract.insert nfa k }

def createMaterial (nfa : ℕ) : Access Unit :=
  ofLedger (Ledger.modifyNfa nfa fun n ↦ { n with hasMaterial := true })

def setMainContract (nfa k : ℕ) : Access Unit :=
  modify fun o ↦ { o with mainContract := o.mainContract.insert nfa k }

/-- Whether an ABI has a function that takes so many arguments. -/
def AbiEntry.takes (n : ℕ) : Option AbiEntry → Bool
  | some (.function isVarArg parameters) => (isVarArg || n = parameters) && n ≤ 20
  | _ => false

def Machine.offers (m : Machine) (k : ℕ) (function : FunctionName) (n : ℕ) : Bool :=
  (m.contracts[k]?).any fun c ↦ AbiEntry.takes n (c.abi.lookup function)

/-- Whether a contract may be invoked, whatever the function. -/
def Machine.admits (m : Machine) (self : Self) (k : ℕ) : Bool :=
  (m.contracts[k]?).isSome && k ∉ m.invokingPath && k ≠ self.handler.contract &&
    (m.objects.ledger.accounts[self.handler.caller]?).isSome

/-- Notes whether the function that is named can be run, and whether one of the contract that
names it is. -/
def noteInvocation (self : Self) (k : ℕ) (function : FunctionName) (n : ℕ) : Run Unit := do
  let m ← get
  note (.invoked (m.admits self k && m.offers k function n)
    (m.admits self k && m.offers self.handler.contract function n))

def clearInvoking : Run Unit := modify fun m ↦ { m with invokingPath := [] }

/-- `pop_back`. -/
def popInvoking : Run Unit :=
  modify fun m ↦
    { m with
      invokingPath := m.invokingPath.dropLast
      overrun := m.overrun || m.invokingPath.isEmpty }

def startInvoking (k : ℕ) : Run Unit := do
  let _ ← getContract k
  require (k ∉ (← get).invokingPath) "Contract cicular references are prohibitted in invoking"
  modify fun m ↦ { m with invokingPath := m.invokingPath ++ [k] }

def Construction.run (outer : Option (Option ℕ)) (self : Self) (cond : Conditions)
    (body : Frame → ℕ → Run Unit) : Construction → Run Unit
  | .createNfa nfa k minEquivalentQi => do
    let creator := self.handler.caller
    onObjects (insertNfa nfa creator k minEquivalentQi)
    doContractFunction outer creator k .initData 0 (← get).vm.drops cond body
    onObjects (createMaterial nfa)
    addExePoint 100
  | .changeNfaContract nfa k => do
    let caller := self.handler.caller
    requireOperator caller nfa
    let c ← getContract k
    require ((c.abi.lookup .initData).isSome = true) "contract has not init function"
    addExePoint 5
    let oldDrops ← onLedger (Ledger.getBalance caller .qi)
    doContractFunction outer caller k .initData 0 oldDrops cond body
    let usedDrops := oldDrops - (← get).vm.drops
    onLedger (Ledger.chargeInCall c.owner caller (usedDrops + 100))
    addExePoint 5
    onObjects (setMainContract nfa k)
  | .invoke k function n => do
    noteInvocation self k function n
    onAssertion
      (do
        startInvoking k
        require (k ≠ self.handler.contract) "You can't use it to make recursive calls"
        -- the contract that is named is not the one that is called
        callContractFunction outer self.handler.caller self.handler.contract function n cond body
        addExePoint 5
        popInvoking)
      clearInvoking

end Request

section Exec

-- `hasher::hash` of a seed
variable (hash : ℕ → ℕ)

/-- Runs code in a table, for the frame that it is meant to run in. -/
def exec (frame : Frame) (env : ℕ) : Code → Run Unit
  | .done => checkBudget
  | .error msg => do
    checkBudget
    throw (.assertion msg)
  | .tick cost next => do
    spend cost
    checkBudget
    exec frame env next
  | .allocate cost next => do
    checkBudget
    Contract.allocate cost
    exec frame env next
  | .look next => do
    checkBudget
    let m ← get
    exec frame env (next m)
  | .protect body next => do
    checkBudget
    let msg ← luaPcall (exec frame env body)
    exec frame env (next msg)
  | .contractApi api next => do
    checkBudget
    noteUse frame env
    let self ← readSelf env
    let c ← getContract self.handler.contract
    addExePoint api.points
    onObjects (api.access hash self.handler.caller c.owner)
    exec frame env next
  | .nfaApi api next => do
    checkBudget
    noteUse frame env
    let self ← readSelf env
    let nfa ← selfNfa self
    let c ← getContract self.handler.contract
    addExePoint api.points
    onObjects (api.access nfa.callerAccount c.owner nfa.nfa)
    exec frame env next
  | .read r next => do
    checkBudget
    noteUse frame env
    let self ← readSelf env
    let d ← readData self r
    exec frame env (next d)
  | .write w next => do
    checkBudget
    noteUse frame env
    let self ← readSelf env
    writeData self w
    exec frame env next
  | .importContract k setup next => do
    checkBudget
    importContract k setup
    exec frame env next
  | .inImport k body next => do
    checkBudget
    let imported ← importedEnv k
    exec { frame with contract := k } imported body
    exec frame env next
  | .call r cond body next => do
    checkBudget
    noteUse frame env
    let self ← readSelf env
    r.run hash frame self cond fun callee env' ↦ exec callee env' body
    exec frame env next
  | .construct c cond body next => do
    checkBudget
    noteUse frame env
    let self ← readSelf env
    c.run frame.outer self cond fun callee env' ↦ exec callee env' body
    exec frame env next

end Exec

end Taiyi.Contract
