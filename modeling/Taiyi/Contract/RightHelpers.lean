import Taiyi.Contract.Turns

set_option autoImplicit false

namespace Taiyi.Contract

open Library.IdMap Library.Frame Library.Outcome

section Executions

variable {cond : Conditions} {body : Frame → ℕ → Run Unit}
  (hbody : ∀ f e, Moves (Turns f e) (body f e))
include hbody

/-- The part of a call for an NFA that the switch of the budget is set back around. -/
def serveNfaFunction (caller k : ℕ) (function : FunctionName) (n : ℕ) (cond : Conditions)
    (body : Frame → ℕ → Run Unit) (nfa : ℕ) (isInEval : Bool) (before : Option ℕ) : Run Unit := do
  let location := findLocation (← get).objects 3 nfa
  enterZone before location
  let frame : Frame := { caller := caller, nfa := some nfa, contract := k, outer := some location }
  admitAction { frame with outer := none } location before k true
  let c ← getContract k
  requireArguments n (c.abi.lookup function)
  let current := (← get).vm.currentContract
  onAssertion
    (callFunction current
      { caller := caller, contract := k, nfa := some nfa, infoCaller := caller, invoker := k,
        isInEval := isInEval, closes := false }
      frame cond body)
    (restoreCurrent current)

theorem serves_nfaFunction {caller k n nfa : ℕ} {function : FunctionName} {isInEval : Bool}
    {before : Option ℕ} :
    Moves Serves (serveNfaFunction caller k function n cond body nfa isInEval before) := by
  refine .bind .get fun _ ↦ .bind (moves_enterZone fun m z ↦
    serves_of_stays (stays_runZone m z) rfl) fun _ ↦
    .bind (moves_admitAction fun m ↦ serves_of_stays (stays_events m _) rfl) fun _ ↦
    .bind moves_getContract fun _ ↦ .bind moves_requireArguments fun _ m ↦ ?_
  refine Moves.bind_at (Moves.get m) fun _ _ hg ↦ ?_
  cases hg
  exact serves_call hbody ⟨rfl, rfl, rfl, rfl⟩ rfl

omit hbody in
theorem after_doNfaContractFunction {caller k n nfa : ℕ} {function : FunctionName} {drops : ℤ}
    {isInEval : Bool} (m : Machine) :
    after (doNfaContractFunction caller k function n drops cond body nfa isInEval) m =
      after (onAssertion (serveNfaFunction caller k function n cond body nfa isInEval m.runZone)
          (do
            enableDrops m.vm.enableDrops
            setRunZone m.runZone) >>= fun _ ↦ do
        enableDrops m.vm.enableDrops
        setRunZone m.runZone) (m.withDrops drops) := rfl

theorem rights_doNfaContractFunction {caller k n nfa : ℕ} {function : FunctionName} {drops : ℤ}
    {isInEval : Bool} :
    Moves Rights (doNfaContractFunction caller k function n drops cond body nfa isInEval) := by
  intro m
  have hback : Moves Rights (do
      enableDrops m.vm.enableDrops
      setRunZone m.runZone) :=
    .bind rights_enableDrops fun _ ↦ .update fun m ↦ rights_runZone m _
  rw [after_doNfaContractFunction]
  refine trans_of Rights (Within.rights (Within.withDrops m drops) rfl)
    (Moves.bind_at ?_ fun _ t _ ↦ hback t)
  refine Moves.bind_at ?_ fun _ t _ ↦ moves_cleanUp hback t
  rw [after_attempt]
  exact rights_of_serves rfl (serves_nfaFunction hbody _)

theorem rights_perform {hash : ℕ → ℕ} {e : Execution} :
    Moves Rights (e.perform hash cond body) :=
  moves_perform
    { loose := loose_rights
      session := fun _ ↦ moves_inSession
        (fun _ _ _ ↦ Within.rights ⟨rfl, rfl, rfl, fun _ ↦ List.mem_cons_of_mem _, fun _ _ ↦ id⟩ rfl)
        (fun _ ↦ Within.rights ⟨rfl, rfl, rfl, fun _ ↦ List.mem_cons_of_mem _, fun _ _ ↦ id⟩ rfl)
        fun _ ↦ Within.rights ⟨rfl, rfl, rfl, fun _ ↦ List.mem_cons_of_mem _, fun _ _ ↦ id⟩ rfl
      context := fun _ ↦ rights_inContext
      function := rights_doContractFunction hbody
      nfaFunction := rights_doNfaContractFunction hbody }

end Executions

section Example

/-- An account with two NFAs, the second one of a contract that may be that of the first. -/
def twoNfas (k : ℕ) : Machine where
  objects :=
    { ledger :=
        { accounts := ((∅ : Table Ledger.Account).insert Ledger.taiyiDaoAccount {}).insert 2
            { assets := { qi := 100000 } }
          nfas := ((∅ : Table Ledger.Nfa).insert 0 { ownerAccount := 2, activeAccount := 2 }).insert 1
            { ownerAccount := 2, activeAccount := 2 } }
      mainContract := ((∅ : Table ℕ).insert 0 0).insert 1 k }
  contracts := ((∅ : Table ContractObject).insert 0 acting).insert 1 acting
where
  acting : ContractObject :=
    { owner := 2, abi := [(.plain 0, .action (some true)), (.doing 0, .function false 0)] }

/-- The action of the one NFA does the action of the other, which uses its helpers. -/
def actOnOther : Code :=
  .tick 5 (.call (.doNfaAction 1 0 0 0) {} (.contractApi .log .done) .done)

end Example

/-- No contract is being executed, and nothing is noted. -/
structure Idle (m : Machine) : Prop where
  envs : m.envs = ∅
  handlers : m.handlers = ∅
  sandboxes : m.vm.sandboxes = ∅
  events : m.events = []

theorem Idle.wf {m : Machine} (h : Idle m) : Wf m where
  env id e he := by
    rw [h.envs] at he
    cases he
  handler id g hg := by
    rw [h.handlers] at hg
    cases hg
  sandbox k id hid := by
    rw [h.sandboxes] at hid
    cases hid
  imported id k j e he _ := by
    rw [h.envs] at he
    cases he

theorem idle_twoNfas (k : ℕ) : Idle (twoNfas k) := ⟨rfl, rfl, rfl, rfl⟩

def Event.isFair : Event → Bool
  | .entered frame (some v) => v = frame.view
  | _ => true

theorem fair_of_all {m : Machine} (h : m.events.all Event.isFair = true) : Fair m := by
  intro frame v hv
  have hf := List.all_eq_true.mp h _ hv
  exact of_decide_eq_true hf

/-- While no sandbox is entered that was made for somebody else, code finds the helpers of whom it
runs for, also behind the calls that it makes. -/
theorem right_of_fair (hash : ℕ → ℕ) (cond : Conditions) (code : Code) (e : Execution)
    {m : Machine} (hm : Idle m) (hf : Fair (after (e.run hash cond code) m)) :
    Right (after (e.run hash cond code) m) := by
  have hr : Right m := fun frame seen he ↦ by
    rw [hm.events] at he
    cases he
  exact (rights_perform (fun f e ↦ turns_exec hash code f e) m hm.wf).2.2 hf hr

theorem right_of_fair_contracts :
    Right (after ((Execution.actionNfa 2 0 0 0 0).run (fun _ ↦ 0) {} actOnOther) (twoNfas 1)) :=
  right_of_fair (fun _ ↦ 0) {} actOnOther (.actionNfa 2 0 0 0 0) (idle_twoNfas 1)
    (fair_of_all (by decide +kernel))

/-- Two NFAs of one contract: the action of the second one finds the NFA helper of the first. -/
theorem helpers_of_another :
    Idle (twoNfas 0) ∧
      ¬Right (after ((Execution.actionNfa 2 0 0 0 0).run (fun _ ↦ 0) {} actOnOther) (twoNfas 0)) := by
  refine ⟨idle_twoNfas 0, fun h ↦ ?_⟩
  have hused : Event.used { caller := 2, nfa := some 1, contract := 0, outer := some none }
      (some { handler := some (2, 0), info := (2, 0), nfa := some (2, 0) }) ∈
        (after ((Execution.actionNfa 2 0 0 0 0).run (fun _ ↦ 0) {} actOnOther)
          (twoNfas 0)).events := by
    decide +kernel
  exact absurd (h _ _ hused) (by decide)

end Taiyi.Contract
