import Taiyi.Contract.Sandbox

set_option autoImplicit false

namespace Taiyi.Contract

open Library.IdMap Library.Frame

def zoneByNfa (o : Objects) (nfa : ℕ) : Option ℕ :=
  (o.ledger.zones.toList.find? fun r ↦ r.2.nfaId = nfa).map Prod.fst

/-- `find_location_with_parents`. -/
def findLocation (o : Objects) : ℕ → ℕ → Option ℕ
  | depth, nfa =>
    match zoneByNfa o nfa, o.ledger.actors[nfa]? with
    | some z, _ => some z
    | none, some actor => actor.location
    | none, none =>
      match depth, o.parent[nfa]? with
      | depth + 1, some p => findLocation o depth p
      | _, _ => none

def permission (o : Objects) (zone k : ℕ) : Option Bool := do (← o.permissions[zone]?)[k]?

/-- `is_contract_allowed_by_zone`. -/
def allowedByZone (o : Objects) (k : ℕ) : Option ℕ → Bool
  | none => true
  | some zone =>
    match permission o zone k, o.refProhibitedZone[zone]? with
    | some allowed, _ => allowed
    | none, some ref => (permission o ref k).getD true
    | none, none => true

/-- The definition of an action in an ABI, if there is a table for it. -/
def ContractObject.actionDef (c : ContractObject) (action : ℕ) : Option (Option Bool) :=
  match c.abi.lookup (.plain action) with
  | some (.action consequence) => some consequence
  | _ => none

def requireArguments (n : ℕ) : Option AbiEntry → Run Unit
  | some (.function isVarArg parameters) => do
    require (isVarArg = true ∨ n = parameters) "input values count"
    require (n ≤ 20) "value list is greater than 20 limit"
  | some _ => throw (.assertion "bad cast")
  | none => throw (.assertion "not found, maybe a internal function")

/-- The contract that runs, with its helpers. -/
structure Current where
  name : ℕ
  env : Env
  handler : Handler

def readCurrent : Run Current := do
  let m ← get
  match m.vm.currentContract with
  | none => throw (.assertion "unknown key")
  | some k => do
    let env ← lookup m.envs (← lookup m.vm.sandboxes k)
    let h ← lookup m.handlers env.contractHelper
    pure { name := k, env := env, handler := h }

def getMainContract (nfa : ℕ) : Run (ℕ × ContractObject) := do
  let k ← lookup (← get).objects.mainContract nfa
  let c ← getContract k
  pure (k, c)

def requireOperator (caller nfa : ℕ) : Run Unit := onLedger (Ledger.requireOperator caller nfa)

/-- Writes the name of the contract that ran before back, if there was one. -/
def restoreCurrent : Option ℕ → Run Unit
  | some k => setCurrent (some k)
  | none => pure ()

/-- The call of a function for an NFA in a zone out of the contract that runs; a call with another
caller names it. -/
def callForNfa (frame : Frame) (location caller nfaCaller : Option ℕ) (k nfa : ℕ)
    (isInEval : Bool) (cond : Conditions) (body : Frame → ℕ → Run Unit) : Run Unit := do
  let current ← readCurrent
  let callee : Frame :=
    { caller := caller.getD frame.caller, nfa := some nfa, contract := k,
      outer := some (frame.outer.getD location) }
  onAssertion
    (callFunction (some current.name)
      { caller := caller.getD current.handler.caller
        nfaCaller := nfaCaller.or (current.env.nfaHelper.map NfaHandler.nfa)
        contract := k
        nfa := some nfa
        infoCaller := caller.getD current.env.baseInfo.caller
        invoker := current.env.baseInfo.invoker
        isInEval := isInEval }
      callee cond body)
    (restoreCurrent (some current.name))

section Eval

variable (frame : Frame) (nfaCaller : Option ℕ) (points : ℤ) (nfa action n : ℕ)
  (cond : Conditions) (body : Frame → ℕ → Run Unit)

/-- `eval_nfa_action` and `eval_action`, which count different points. -/
def evalAction : Run Unit := do
  addExePoint 2
  let _ ← onLedger (Ledger.getNfa nfa)
  let c ← getMainContract nfa
  match c.2.actionDef action with
  | none => pure ()
  | some consequence => do
    require (consequence ≠ some true) "Can not eval action with consequence history."
    requireArguments n (c.2.abi.lookup (.evaluating action))
    addExePoint points
    let isInEval := (← readCurrent).handler.isInEval
    let location := findLocation (← get).objects 3 nfa
    callForNfa frame location none nfaCaller c.1 nfa isInEval cond body

end Eval

section Do

-- `hasher::hash` of a seed
variable (hash : ℕ → ℕ) (frame : Frame) (caller : ℕ) (nfaCaller : Option ℕ) (points : ℤ)
  (nfa action n seed : ℕ) (cond : Conditions) (body : Frame → ℕ → Run Unit)

/-- The rest of an action, once its definition was looked up: whether it is known. -/
def performAction (location : Option ℕ) (k : ℕ) (c : ContractObject) :
    Option (Option Bool) → Run Bool
  | none => pure false
  | some consequence => do
    require (consequence ≠ some false) "Can not perform action without consequence history."
    requireArguments n (c.abi.lookup (.doing action))
    addExePoint points
    callForNfa frame location none nfaCaller k nfa false cond body
    pure true

def enterZone (before zone : Option ℕ) : Run Unit :=
  match before, zone with
  | none, some z => setRunZone (some z)
  | _, _ => pure ()

def requireMaterial : Ledger.Call Unit := do
  let n ← Ledger.getNfa nfa
  let m ← Ledger.getMaterial nfa
  Ledger.require (n.minEquivalentQi ≤ Ledger.materialQi m) "material equivalent qi is insufficient"

/-- The zone is set back behind a known action and by the `catch`. An action that is not known is
left early, and a jump passes all of it by. -/
def leaveAction (before : Option ℕ) : Except Err Bool → Run Unit
  | .ok true => setRunZone before
  | .ok false => pure ()
  | .error (.assertion msg) => do
    setRunZone before
    throw (.assertion msg)
  | .error .jump => do
    note (.jumpedOut (← get).runZone before)
    throw .jump
  | .error .truncated => throw .truncated

def admitAction (location before : Option ℕ) (k : ℕ) (known : Bool) : Run Unit := do
  let m ← get
  require (allowedByZone m.objects k m.runZone = true) "contract is not allowed by zone"
  note (.acted frame.outer location m.runZone before known)

def actInZone (location before : Option ℕ) : Run Bool := do
  onLedger (requireMaterial nfa)
  onLedger (Ledger.consumeNfaMaterialRandom hash nfa seed)
  let c ← getMainContract nfa
  admitAction frame location before c.1 (c.2.actionDef action).isSome
  performAction frame nfaCaller points nfa action n cond body location c.1 c.2
    (c.2.actionDef action)

def enterAction (before : Option ℕ) : Run Bool := do
  addExePoint 2
  requireOperator caller nfa
  let location := findLocation (← get).objects 3 nfa
  enterZone before location
  actInZone hash frame nfaCaller points nfa action n seed cond body location before

/-- `do_nfa_action` and `do_action`. -/
def doAction : Run Unit := do
  let before := (← get).runZone
  let r ← attempt
    (enterAction hash frame caller nfaCaller points nfa action n seed cond body before)
  leaveAction before r

end Do

section Callbacks

/-- The functions that the program calls back. -/
inductive Callback
  | entering
  | exploiting
  | talking
  | listening
  deriving DecidableEq

def Callback.function : Callback → FunctionName
  | .entering => .onActorEnter
  | .exploiting => .onActorExploit
  | .talking => .onActorTalking
  | .listening => .onActorListening

variable (frame : Frame) (caller : Option ℕ) (nfa : ℕ) (function : FunctionName) (n : ℕ)
  (assertExists : Bool) (cond : Conditions) (body : Frame → ℕ → Run Unit)

/-- `call_nfa_function_with_caller`. -/
def callNfaFunction : Run Unit := do
  addExePoint 2
  let _ ← onLedger (Ledger.getNfa nfa)
  let c ← getMainContract nfa
  match c.2.abi.lookup function with
  | none => require (assertExists = false) "function not found"
  | some entry => do
    requireArguments n (some entry)
    addExePoint 3
    let isInEval := (← readCurrent).handler.isInEval
    let location := findLocation (← get).objects 3 nfa
    callForNfa frame location caller none c.1 nfa isInEval cond body

end Callbacks

end Taiyi.Contract
