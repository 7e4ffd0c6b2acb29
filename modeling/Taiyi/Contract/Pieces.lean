import Taiyi.Contract.Execution

set_option autoImplicit false

namespace Taiyi.Contract

open Library.IdMap Library.Frame Library.Outcome

def Handler.who (h : Handler) : ℕ × ℕ × Option ℕ := (h.caller, h.contract, h.keptBy)

/-- A relation that is not about what lies outside of the virtual machine and its objects. -/
structure Loose (R : Machine → Machine → Prop) : Prop where
  objects : ∀ m o, R m { m with objects := o }
  exePoint : ∀ m p, R m { m with exePoint := p }

/-- A relation that is not about the invoking path. -/
structure Pathless (R : Machine → Machine → Prop) : Prop where
  path : ∀ m l o, R m { m with invokingPath := l, overrun := o }
  invoked : ∀ m named ran, R m { m with events := .invoked named ran :: m.events }

section Reads

variable {R : Machine → Machine → Prop} [IsPreorder Machine R] {V : Type}

theorem moves_lookup {t : Table V} {id : ℕ} : Moves R (lookup t id) := by
  unfold lookup
  split
  · exact .pure _
  · exact .throw _

theorem lookup_ok {t : Table V} {id : ℕ} {m m' : Machine} {v : V}
    (h : (lookup t id).run m = .ok v m') : t[id]? = some v ∧ m' = m := by
  unfold lookup at h
  split at h
  · next hv =>
    cases h
    exact ⟨hv, rfl⟩
  · cases h

theorem run_lookup {t : Table V} {id : ℕ} {v : V} (h : t[id]? = some v) (m : Machine) :
    (lookup t id).run m = .ok v m := by
  rw [lookup, h]
  rfl

theorem moves_require {c : Prop} [Decidable c] {msg : String} : Moves R (require c msg) :=
  .ite (fun _ ↦ .pure _) fun _ ↦ .throw _

theorem moves_getContract {k : ℕ} : Moves R (getContract k) := .bind .get fun _ ↦ moves_lookup

theorem moves_requireArguments {n : ℕ} {entry : Option AbiEntry} :
    Moves R (requireArguments n entry) := by
  unfold requireArguments
  split
  · exact .bind moves_require fun _ ↦ moves_require
  · exact .throw _
  · exact .throw _

theorem moves_getMainContract {nfa : ℕ} : Moves R (getMainContract nfa) :=
  .bind .get fun _ ↦ .bind moves_lookup fun _ ↦ .bind moves_getContract fun _ ↦ .pure _

theorem moves_readCurrent : Moves R readCurrent := by
  refine .bind .get fun m ↦ ?_
  split
  · exact .throw _
  · exact .bind moves_lookup fun _ ↦ .bind moves_lookup fun _ ↦ .bind moves_lookup fun _ ↦ .pure _

theorem moves_readSelf {env : ℕ} : Moves R (readSelf env) :=
  .bind .get fun _ ↦ .bind moves_lookup fun _ ↦ .bind .get fun _ ↦ .bind moves_lookup fun _ ↦
    .pure _

theorem moves_selfNfa {self : Self} : Moves R (selfNfa self) := by
  unfold selfNfa
  split
  · exact .pure _
  · exact .throw _

theorem moves_callbackCaller {self : Self} {callback : Callback} :
    Moves R (callback.caller self) := by
  cases callback with
  | entering | exploiting | listening => exact .pure _
  | talking => exact .bind moves_selfNfa fun _ ↦ .pure _

theorem moves_importedEnv {k : ℕ} : Moves R (importedEnv k) := by
  refine .bind moves_readCurrent fun _ ↦ .ite (fun _ ↦ ?_) fun _ ↦ moves_lookup
  exact .bind .get fun _ ↦ moves_lookup

theorem moves_checkBudget : Moves R checkBudget :=
  .bind .get fun _ ↦ .ite (fun _ ↦ .throw _) fun _ ↦ .pure _

theorem moves_raise {err : Option String} : Moves R (raise err) := by
  cases err with
  | some => exact .throw _
  | none => exact .pure _

theorem moves_rethrow {r : Except Err Unit × ℤ} : Moves R (rethrow r) := by
  obtain ⟨_ | _, _⟩ := r
  · exact .throw _
  · exact .pure _

end Reads

section Results

variable {m m' : Machine} {k : ℕ}

theorem getContract_ok {c : ContractObject} (h : (getContract k).run m = .ok c m') :
    m.contracts[k]? = some c ∧ m' = m := by
  obtain ⟨_, _, hg, hl⟩ := bind_ok.mp h
  cases hg
  exact lookup_ok hl

theorem modifyContract_ok {f : ContractObject → ContractObject}
    (h : (modifyContract k f).run m = .ok ⟨⟩ m') :
    ∃ c, m.contracts[k]? = some c ∧ m' = { m with contracts := m.contracts.insert k (f c) } := by
  obtain ⟨c, t, hg, hu⟩ := bind_ok.mp h
  obtain ⟨hc, rfl⟩ := getContract_ok hg
  cases hu
  exact ⟨c, hc, rfl⟩

theorem run_modifyEnv {id : ℕ} {f : Env → Env} {e : Env} (h : m.envs[id]? = some e) :
    (modifyEnv id f).run m = .ok ⟨⟩ { m with envs := m.envs.insert id (f e) } :=
  bind_ok.mpr ⟨m, m, rfl, bind_ok.mpr ⟨e, m, run_lookup h m, rfl⟩⟩

theorem after_modifyEnv {id : ℕ} {f : Env → Env} {e : Env} (h : m.envs[id]? = some e) :
    after (modifyEnv id f) m = { m with envs := m.envs.insert id (f e) } :=
  after_ok (run_modifyEnv h)

/-- A contract that has data for an account, if only empty ones. -/
def ContractObject.withAccount (c : ContractObject) (a : ℕ) : ContractObject :=
  { c with accountData := c.accountData.insertIfNew a ∅ }

theorem newHandler_ok {a id : ℕ} {n p : Option ℕ} {eval : Bool}
    (h : (newHandler a n k eval p).run m = .ok id m') :
    ∃ c d, m.contracts[k]? = some c ∧ (c.withAccount a).accountData[a]? = some d ∧ id = m.fresh ∧
      m' =
        { m with
          contracts := m.contracts.insert k (c.withAccount a)
          handlers := m.handlers.insert m.fresh
            { caller := a, nfaCaller := n, contract := k, isInEval := eval,
              contractData := c.contractData, accountData := d, keptBy := p }
          fresh := m.fresh + 1 } := by
  obtain ⟨_, t, hm, h₁⟩ := bind_ok.mp h
  obtain ⟨c, hc, rfl⟩ := modifyContract_ok hm
  obtain ⟨c', t, hg, h₂⟩ := bind_ok.mp h₁
  obtain ⟨hc', rfl⟩ := getContract_ok hg
  rw [getElem?_insert, if_pos rfl] at hc'
  cases hc'
  obtain ⟨d, t, hl, h₃⟩ := bind_ok.mp h₂
  obtain ⟨hd, rfl⟩ := lookup_ok hl
  cases h₃
  exact ⟨c, d, hc, hd, rfl, rfl⟩

end Results

section Updates

variable {R : Machine → Machine → Prop} {α : Type}

theorem moves_onObjects (h : Loose R) {x : Access α} : Moves R (onObjects x) := by
  intro m
  unfold after onObjects EStateM.run
  dsimp only
  cases x m.objects with
  | ok | error => exact h.objects m _

theorem moves_onLedger (h : Loose R) {x : Ledger.Call α} : Moves R (onLedger x) :=
  moves_onObjects h

theorem moves_popInvoking (h : Pathless R) : Moves R popInvoking := .update fun m ↦ h.path m _ _

theorem moves_clearInvoking (h : Pathless R) : Moves R clearInvoking :=
  .update fun m ↦ h.path m _ _

theorem moves_addExePoint (h : Loose R) {points : ℤ} : Moves R (addExePoint points) :=
  .update fun m ↦ h.exePoint m _

theorem moves_setExePoint (h : Loose R) {points : ℤ} : Moves R (setExePoint points) :=
  .update fun m ↦ h.exePoint m _

theorem moves_admitAction {frame : Frame} {location before : Option ℕ} {k : ℕ} {known : Bool}
    [IsPreorder Machine R]
    (h : ∀ m, R m
      { m with events := .acted frame.outer location m.runZone before known :: m.events }) :
    Moves R (admitAction frame location before k known) := by
  intro m
  refine Moves.bind_at (Moves.get m) fun _ _ hg ↦ ?_
  cases hg
  refine Moves.bind_at (moves_require m) fun _ t ht ↦ ?_
  obtain rfl : t = m := (after_ok ht).symm.trans ((moves_require : Moves (Same id) _) m)
  exact h t

theorem moves_note (h : ∀ m e, R m { m with events := e :: m.events }) {e : Event} :
    Moves R (note e) :=
  .update fun m ↦ h m e

variable [IsPreorder Machine R]

theorem moves_startInvoking (h : Pathless R) {k : ℕ} : Moves R (startInvoking k) :=
  .bind moves_getContract fun _ ↦ .bind .get fun _ ↦ .bind moves_require fun _ ↦
    .update fun m ↦ h.path m _ _

theorem moves_noteInvocation (h : Pathless R) {self : Self} {k n : ℕ} {function : FunctionName} :
    Moves R (noteInvocation self k function n) :=
  .bind .get fun _ ↦ .update fun m ↦ h.invoked m _ _

theorem moves_enterZone (h : ∀ m z, R m { m with runZone := z }) {before zone : Option ℕ} :
    Moves R (enterZone before zone) := by
  unfold enterZone
  split
  · exact .update fun m ↦ h m _
  · exact .pure _

theorem moves_modifyContract (h : ∀ m c, R m { m with contracts := c }) {k : ℕ}
    {f : ContractObject → ContractObject} : Moves R (modifyContract k f) :=
  .bind moves_getContract fun _ ↦ .update fun m ↦ h m _

theorem moves_newHandler {a k : ℕ} {n p : Option ℕ} {eval : Bool}
    (hc : ∀ m c, R m { m with contracts := c })
    (hn : ∀ m h, h.who = (a, k, p) →
      R m { m with handlers := m.handlers.insert m.fresh h, fresh := m.fresh + 1 }) :
    Moves R (newHandler a n k eval p) := by
  refine .bind (moves_modifyContract hc) fun _ ↦ .bind moves_getContract fun c ↦
    .bind moves_lookup fun d m ↦ ?_
  exact hn m _ rfl

theorem moves_modifyHandler {id : ℕ} {f : Handler → Handler}
    (h : ∀ m g, m.handlers[id]? = some g → R m { m with handlers := m.handlers.insert id (f g) }) :
    Moves R (modifyHandler id f) := by
  intro m
  refine Moves.bind_at (Moves.get m) fun _ _ hm ↦ ?_
  cases hm
  refine Moves.bind_at (moves_lookup m) fun g t hg ↦ ?_
  obtain ⟨hg, rfl⟩ := lookup_ok hg
  exact h t g hg

theorem moves_modifyEnv {id : ℕ} {f : Env → Env}
    (h : ∀ m e, m.envs[id]? = some e → R m { m with envs := m.envs.insert id (f e) }) :
    Moves R (modifyEnv id f) := by
  intro m
  refine Moves.bind_at (Moves.get m) fun _ _ hm ↦ ?_
  cases hm
  refine Moves.bind_at (moves_lookup m) fun e t he ↦ ?_
  obtain ⟨he, rfl⟩ := lookup_ok he
  exact h t e he

theorem moves_prepareAccountData (h : ∀ m c, R m { m with contracts := c }) {a k : ℕ} :
    Moves R (prepareAccountData a k) :=
  .bind (moves_modifyContract h) fun _ ↦ .bind moves_getContract fun _ ↦ moves_lookup

end Updates

/-- A relation that is not about the virtual machine and its tables, unless it is about where
errors are caught. -/
structure Above (R : Machine → Machine → Prop) : Prop where
  vm : ∀ m vm, vm.protectedCalls = m.vm.protectedCalls → R m { m with vm := vm }
  newEnv : ∀ m e, R m { m with envs := m.envs.insert m.fresh e, fresh := m.fresh + 1 }
  jumped : ∀ m, R m { m with events := .jumped :: m.events }

section VirtualMachine

variable {R : Machine → Machine → Prop} (h : Above R)
include h

theorem moves_modifyVm {f : Vm → Vm} (hf : ∀ vm, (f vm).protectedCalls = vm.protectedCalls) :
    Moves R (modifyVm f) := .update fun m ↦ h.vm m _ (hf _)

theorem moves_spend {cost : ℕ} : Moves R (spend cost) := .update fun m ↦ h.vm m _ rfl

theorem moves_setCurrent {current : Option ℕ} : Moves R (setCurrent current) :=
  .update fun m ↦ h.vm m _ rfl

theorem moves_clearGlobal {k : ℕ} : Moves R (clearGlobal k) := .update fun m ↦ h.vm m _ rfl

theorem moves_enableDrops {enable : Bool} : Moves R (enableDrops enable) :=
  .update fun m ↦ h.vm m _ rfl

theorem moves_setDrops {drops : ℤ} : Moves R (setDrops drops) := .update fun m ↦ h.vm m _ rfl

theorem moves_newEnv {e : Env} : Moves R (newEnv e) := fun m ↦ h.newEnv m e

variable [IsPreorder Machine R]

theorem moves_memoryError : Moves R memoryError :=
  .bind .get fun _ ↦ .ite (fun _ ↦ .throw _) fun _ ↦ .bind (.update h.jumped) fun _ ↦ .throw _

theorem moves_allocate {cost : ℕ} : Moves R (allocate cost) :=
  .bind (moves_spend h) fun _ ↦ .bind .get fun _ ↦
    .ite (fun _ ↦ moves_memoryError h) fun _ ↦ .pure _

theorem moves_setup {setup : Setup} : Moves R setup.run :=
  .bind (moves_allocate h) fun _ ↦ moves_require

theorem moves_enterSandbox {current : Option ℕ} {k : ℕ} {e : Env} {setup : Setup} :
    Moves R (enterSandbox current k e setup) := by
  refine .ite (fun _ ↦ .pure _) fun _ ↦ .bind (.bind .get fun m ↦ ?_) fun _ ↦
    .bind (moves_setCurrent h) fun _ ↦ .pure _
  split
  · exact .pure _
  · exact .bind (moves_setup h) fun _ ↦ .bind (moves_newEnv h) fun _ ↦
      .bind (moves_modifyVm h fun _ ↦ rfl) fun _ ↦ .pure _

theorem moves_leaveSandbox {current : Option ℕ} {k : ℕ} {close : Bool} :
    Moves R (leaveSandbox current k close) :=
  .ite (fun _ ↦ .pure _) fun _ ↦
    .bind (.ite (fun _ ↦ .bind (moves_clearGlobal h) fun _ ↦ moves_allocate h) fun _ ↦ .pure _)
      fun _ ↦ moves_setCurrent h

theorem moves_restoreCurrent {current : Option ℕ} : Moves R (restoreCurrent current) := by
  cases current with
  | some => exact moves_setCurrent h
  | none => exact .pure _

end VirtualMachine

section Free

variable {R : Machine → Machine → Prop} [IsPreorder Machine R]
  (h : ∀ m vm, R m { m with vm := vm }) {x : Run Unit} (hx : Moves R x)
include h hx

theorem moves_luaPcall : Moves R (luaPcall x) :=
  .bind .get fun _ ↦ .bind (.update fun m ↦ h m _) fun _ ↦ .bind hx.attempt fun _ ↦
    .bind (.update fun m ↦ h m _) fun _ ↦ .pure _

theorem moves_inContext : Moves R (inContext x) :=
  .bind .get fun _ ↦ .bind (.update fun m ↦ h m _) fun _ ↦ .bind hx.attempt fun _ ↦
    .bind .get fun _ ↦ .bind (.update fun m ↦ h m _) fun _ ↦ .pure _

theorem moves_inNewContext : Moves R (inNewContext x) :=
  .bind (moves_inContext h hx) fun _ ↦ moves_rethrow

end Free

section Guards

variable {R : Machine → Machine → Prop} [IsPreorder Machine R] {x cleanup : Run Unit}

theorem moves_cleanUp (h : Moves R cleanup) {r : Except Err Unit} : Moves R (cleanUp cleanup r) := by
  match r with
  | .ok _ => exact .pure _
  | .error (.assertion _) => exact .bind h fun _ ↦ .throw _
  | .error .jump => exact .throw _
  | .error .truncated => exact .throw _

theorem moves_leaveAction {before : Option ℕ} (hz : ∀ m z, R m { m with runZone := z })
    (hj : ∀ m before,
      R m { m with events := .jumpedOut m.runZone before :: m.events }) {r : Except Err Bool} :
    Moves R (leaveAction before r) := by
  match r with
  | .ok true => exact .update fun m ↦ hz m _
  | .ok false => exact .pure _
  | .error (.assertion _) => exact .bind (.update fun m ↦ hz m _) fun _ ↦ .throw _
  | .error .jump =>
    intro m
    exact hj m before
  | .error .truncated => exact .throw _

theorem moves_onAssertion (hx : Moves R x) (h : Moves R cleanup) :
    Moves R (onAssertion x cleanup) :=
  .bind hx.attempt fun _ ↦ moves_cleanUp h

theorem moves_invoke (hl : Loose R) (hp : Pathless R) {outer : Option (Option ℕ)} {self : Self}
    {cond : Conditions} {body : Frame → ℕ → Run Unit} {k n : ℕ} {function : FunctionName}
    (h : Moves R (callContractFunction outer self.handler.caller self.handler.contract function n
      cond body)) : Moves R ((Construction.invoke k function n).run outer self cond body) :=
  .bind (moves_noteInvocation hp) fun _ ↦ moves_onAssertion
    (.bind (moves_startInvoking hp) fun _ ↦ .bind moves_require fun _ ↦ .bind h fun _ ↦
      .bind (moves_addExePoint hl) fun _ ↦ moves_popInvoking hp) (moves_clearInvoking hp)

end Guards

section Calls

variable {R : Machine → Machine → Prop} [IsPreorder Machine R]

theorem moves_unwind (hd : ∀ m id, R m (after (deleteHandler id) m))
    (ha : ∀ m id, R m { m with events := .abandoned id :: m.events }) {id : ℕ}
    {r : Except Err Unit} : Moves R (unwind id r) := by
  match r with
  | .ok _ => exact fun m ↦ hd m id
  | .error (.assertion _) => exact .bind (fun m ↦ hd m id) fun _ ↦ .throw _
  | .error .truncated => exact .bind (fun m ↦ hd m id) fun _ ↦ .throw _
  | .error .jump => exact .bind (.update fun m ↦ ha m id) fun _ ↦ .throw _

theorem moves_withHandler (hc : ∀ m c, R m { m with contracts := c })
    (hn : ∀ m h, R m { m with handlers := m.handlers.insert m.fresh h, fresh := m.fresh + 1 })
    (hd : ∀ m id, R m (after (deleteHandler id) m))
    (ha : ∀ m id, R m { m with events := .abandoned id :: m.events }) {a k : ℕ} {n : Option ℕ}
    {eval : Bool} {x : ℕ → Run Unit} (hx : ∀ id, Moves R (x id)) : Moves R (withHandler a n k eval x) :=
  .bind (moves_newHandler hc fun m h _ ↦ hn m h) fun id ↦ .bind (hx id).attempt fun _ ↦
    moves_unwind hd ha

theorem moves_callInSandbox (h : Above R) {current : Option ℕ} {c : Call} {frame : Frame}
    {cond : Conditions} {body : Frame → ℕ → Run Unit}
    (hrun : Moves R (luaPcall (runFunction c frame body))) {ch : ℕ} :
    Moves R (callInSandbox current c frame cond body ch) :=
  .bind (moves_enterSandbox h) fun _ ↦ .bind moves_require fun _ ↦ .bind (moves_allocate h) fun _ ↦
    .bind hrun fun _ ↦ .bind (moves_leaveSandbox h) fun _ ↦ .bind moves_raise fun _ ↦ moves_require

theorem moves_runFunction {c : Call} {frame : Frame} {body : Frame → ℕ → Run Unit}
    (hbody : ∀ e, Moves R (body frame e)) : Moves R (runFunction c frame body) :=
  .bind .get fun _ ↦ .bind moves_lookup fun _ ↦ hbody _

end Calls

/-- A relation that is kept by every call of a function of a contract, and not about run zones. -/
structure Calls (R : Machine → Machine → Prop) (cond : Conditions) (body : Frame → ℕ → Run Unit) :
    Prop where
  loose : Loose R
  runZone : ∀ m z, R m { m with runZone := z }
  acted : ∀ m outer location before known, R m
    { m with events := .acted outer location m.runZone before known :: m.events }
  jumpedOut : ∀ m before, R m { m with events := .jumpedOut m.runZone before :: m.events }
  call : ∀ {current c frame}, Moves R
    (onAssertion (callFunction current c frame cond body) (restoreCurrent current))

section Requests

variable {R : Machine → Machine → Prop} [IsPreorder Machine R] {cond : Conditions}
  {body : Frame → ℕ → Run Unit} {f : Frame} {location caller nfaCaller : Option ℕ}
  {k nfa action n : ℕ} {points : ℤ} (h : Calls R cond body)
include h

theorem moves_callForNfa {isInEval : Bool} :
    Moves R (callForNfa f location caller nfaCaller k nfa isInEval cond body) :=
  .bind moves_readCurrent fun _ ↦ h.call

theorem moves_evalAction : Moves R (evalAction f nfaCaller points nfa action n cond body) := by
  refine .bind (moves_addExePoint h.loose) fun _ ↦ .bind (moves_onLedger h.loose) fun _ ↦
    .bind moves_getMainContract fun c ↦ ?_
  split
  · exact .pure _
  · exact .bind moves_require fun _ ↦ .bind moves_requireArguments fun _ ↦
      .bind (moves_addExePoint h.loose) fun _ ↦ .bind moves_readCurrent fun _ ↦ .bind .get fun _ ↦
      moves_callForNfa h

theorem moves_callNfaFunction {function : FunctionName} {assertExists : Bool} :
    Moves R (callNfaFunction f caller nfa function n assertExists cond body) := by
  refine .bind (moves_addExePoint h.loose) fun _ ↦ .bind (moves_onLedger h.loose) fun _ ↦
    .bind moves_getMainContract fun c ↦ ?_
  split
  · exact moves_require
  · exact .bind moves_requireArguments fun _ ↦ .bind (moves_addExePoint h.loose) fun _ ↦
      .bind moves_readCurrent fun _ ↦ .bind .get fun _ ↦ moves_callForNfa h

theorem moves_performAction {c : ContractObject} {d : Option (Option Bool)} :
    Moves R (performAction f nfaCaller points nfa action n cond body location k c d) := by
  cases d with
  | none => exact .pure _
  | some =>
    exact .bind moves_require fun _ ↦ .bind moves_requireArguments fun _ ↦
      .bind (moves_addExePoint h.loose) fun _ ↦ .bind (moves_callForNfa h) fun _ ↦ .pure _

theorem moves_doAction {hash : ℕ → ℕ} {account seed : ℕ} :
    Moves R (doAction hash f account nfaCaller points nfa action n seed cond body) := by
  refine .bind .get fun m ↦ .bind (Moves.attempt ?_) fun _ ↦
    moves_leaveAction h.runZone h.jumpedOut
  exact .bind (moves_addExePoint h.loose) fun _ ↦ .bind (moves_onLedger h.loose) fun _ ↦
    .bind .get fun _ ↦ .bind (moves_enterZone h.runZone) fun _ ↦
    .bind (moves_onLedger h.loose) fun _ ↦ .bind (moves_onLedger h.loose) fun _ ↦
    .bind moves_getMainContract fun c ↦
    .bind (moves_admitAction fun m ↦ h.acted m _ _ _ _) fun _ ↦ moves_performAction h

theorem moves_request {hash : ℕ → ℕ} {self : Self} {r : Request} :
    Moves R (r.run hash f self cond body) := by
  cases r with
  | evalNfaAction => exact moves_evalAction h
  | doNfaAction => exact moves_doAction h
  | evalAction => exact .bind moves_selfNfa fun _ ↦ moves_evalAction h
  | doAction => exact .bind moves_selfNfa fun _ ↦ moves_doAction h
  | callBack => exact .bind moves_callbackCaller fun _ ↦ moves_callNfaFunction h

end Requests

/-- A relation that is about a whole execution and kept by what is done in a context of its own. -/
structure Hosts (R : Machine → Machine → Prop) (cond : Conditions) (body : Frame → ℕ → Run Unit) :
    Prop where
  loose : Loose R
  session : ∀ x : Run Unit, Moves R x → Moves R (inSession x)
  context : ∀ x : Run Unit, Moves R x → Moves R (inContext x)
  function : ∀ {caller k function n drops},
    Moves R (doContractFunction none caller k function n drops cond body)
  nfaFunction : ∀ {caller k function n drops nfa isInEval},
    Moves R (doNfaContractFunction caller k function n drops cond body nfa isInEval)

section Executions

variable {R : Machine → Machine → Prop} [IsPreorder Machine R] {cond : Conditions}
  {body : Frame → ℕ → Run Unit} {caller k nfa n : ℕ} {function : FunctionName}

theorem moves_inSession
    (h : ∀ m o c, R m { m with objects := o, contracts := c, events := .undone :: m.events })
    (hs : ∀ m, R m { m with events := .startedSession :: m.events })
    (hq : ∀ m, R m { m with events := .squashed :: m.events })
    {x : Run Unit} (hx : Moves R x) : Moves R (inSession x) := by
  refine .bind .get fun before ↦ .bind (.update hs) fun _ ↦ .bind hx.attempt fun r ↦ ?_
  cases r with
  | ok => exact .update hq
  | error =>
    refine .bind (fun m ↦ ?_) fun _ ↦ .throw _
    exact h m before.objects before.contracts

variable (h : Hosts R cond body)
include h

theorem moves_callContractFunction :
    Moves R (callContractFunction none caller k function n cond body) :=
  .bind (moves_onLedger h.loose) fun _ ↦ .bind moves_getContract fun _ ↦ .bind .get fun _ ↦
    .bind (moves_setExePoint h.loose) fun _ ↦
    .bind (.bind (h.context _ (h.function)) fun _ ↦ moves_rethrow) fun _ ↦
    .bind .get fun _ ↦ .bind (moves_setExePoint h.loose) fun _ ↦ moves_onLedger h.loose

theorem moves_evalNfaContractAction {action : ℕ} {drops : ℤ} :
    Moves R (evalNfaContractAction n cond body nfa action drops) := by
  refine .bind (moves_onLedger h.loose) fun _ ↦ .bind moves_getMainContract fun c ↦ ?_
  split
  · exact .pure _
  · exact .bind moves_require fun _ ↦ h.nfaFunction

theorem moves_actionNfa {hash : ℕ → ℕ} {action seed : ℕ} :
    Moves R (actionNfa caller n cond body hash nfa action seed) := by
  have hdo : ∀ drops, Moves R
      (doNfaContractAction caller n cond body hash nfa action seed drops) := fun drops ↦
    .bind (moves_onLedger h.loose) fun _ ↦ .bind (moves_onLedger h.loose) fun _ ↦
      .bind moves_getMainContract fun _ ↦ .bind moves_require fun _ ↦ h.nfaFunction
  exact .bind (moves_onLedger h.loose) fun _ ↦ .bind (moves_onLedger h.loose) fun _ ↦
    .bind (moves_setExePoint h.loose) fun _ ↦
    .bind (.bind (h.context _ (hdo _)) fun _ ↦ moves_rethrow) fun _ ↦
    .bind .get fun _ ↦ .bind moves_getMainContract fun _ ↦ moves_onLedger h.loose

theorem moves_tickNfa : Moves R (tickNfa cond body nfa) := by
  have hbeat : ∀ k drops, Moves R (heartBeat cond body nfa k drops) := fun k drops ↦
    h.context _ (h.session _ (.bind (moves_setExePoint h.loose) fun _ ↦
      .bind (moves_onLedger h.loose) fun _ ↦ h.nfaFunction))
  have hcharge : ∀ k, Moves R (beatAndCharge cond body nfa k) := fun k ↦
    .bind .get fun _ ↦ .bind (moves_onLedger h.loose) fun _ ↦
      .bind (moves_onLedger h.loose) fun _ ↦ .bind (hbeat k _) fun _ ↦
      .bind moves_getContract fun _ ↦ .bind .get fun _ ↦ moves_onLedger h.loose
  have hdebt : ∀ row, Moves R (settleDebt nfa row) := fun row ↦
    .ite (fun _ ↦ .pure _) fun _ ↦ .ite
      (fun _ ↦ .bind (moves_onLedger h.loose) fun _ ↦ .pure _)
      fun _ ↦ .bind moves_getContract fun _ ↦ .bind (moves_onLedger h.loose) fun _ ↦ .pure _
  refine .bind (moves_onLedger h.loose) fun row ↦ .bind (hdebt row) fun _ ↦
    .ite (fun _ ↦ .bind moves_getMainContract fun c ↦ ?_) fun _ ↦ .pure _
  split
  · exact moves_onLedger h.loose
  · exact hcharge _

theorem moves_processProposal : Moves R (processProposal cond body k function n) := by
  refine .bind (moves_onLedger h.loose) fun _ ↦ .ite (fun _ ↦ .pure _) fun _ ↦
    .bind .get fun m ↦ ?_
  split
  · exact .pure _
  · exact .bind (moves_setExePoint h.loose) fun _ ↦
      .bind (h.context _ (h.session _ h.function)) fun _ ↦
      .bind moves_getContract fun _ ↦ .bind .get fun _ ↦
      .bind (moves_onLedger h.loose) fun _ ↦ .pure _

theorem moves_perform {hash : ℕ → ℕ} {e : Execution} : Moves R (e.perform hash cond body) := by
  cases e with
  | callContractFunction => exact moves_callContractFunction h
  | actionNfa => exact moves_actionNfa h
  | evalNfaAction =>
    exact .bind (.bind (h.context _ (moves_evalNfaContractAction h)) fun _ ↦ moves_rethrow)
      fun _ ↦ .pure _
  | tickNfa => exact moves_tickNfa h
  | processProposal => exact .bind (moves_processProposal h) fun _ ↦ .pure _

end Executions

end Taiyi.Contract
