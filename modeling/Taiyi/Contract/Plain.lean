import Taiyi.Contract.Pieces

set_option autoImplicit false

namespace Taiyi.Contract

open Library.IdMap Library.Frame

def Event.isInvocation : Event → Bool
  | .invoked .. => true
  | _ => false

/-- A relation that is about the invoking path and what is noted of it only. -/
structure Plain (R : Machine → Machine → Prop) : Prop where
  objects : ∀ m o, R m { m with objects := o }
  contracts : ∀ m c, R m { m with contracts := c }
  runZone : ∀ m z, R m { m with runZone := z }
  exePoint : ∀ m p, R m { m with exePoint := p }
  vm : ∀ m vm, R m { m with vm := vm }
  envs : ∀ m e n, R m { m with envs := e, fresh := n }
  handlers : ∀ m h n, R m { m with handlers := h, fresh := n }
  event : ∀ m e, e.isInvocation = false → R m { m with events := e :: m.events }

variable {R : Machine → Machine → Prop} [IsPreorder Machine R]

section Calls

variable (h : Plain R)
include h

omit [IsPreorder Machine R] in
theorem Plain.loose : Loose R := ⟨h.objects, h.exePoint⟩

omit [IsPreorder Machine R] in
theorem Plain.above : Above R :=
  ⟨fun m vm _ ↦ h.vm m vm, fun m _ ↦ h.envs m _ _, fun m ↦ h.event m _ rfl⟩

omit [IsPreorder Machine R] in
theorem plain_note {e : Event} (he : e.isInvocation = false) : Moves R (note e) :=
  .update fun m ↦ h.event m e he

theorem plain_noteUse {f : Frame} {e : ℕ} : Moves R (noteUse f e) :=
  .bind .get fun _ ↦ plain_note h rfl

theorem plain_saveHandler (m : Machine) (id : ℕ) : R m (m.saveHandler id) := by
  unfold Machine.saveHandler
  split
  · exact refl_of R m
  · next g _ =>
    exact trans_of R (h.contracts m (m.contracts.modify g.contract fun c ↦ c.save g))
      (h.handlers _ (m.handlers.erase id) m.fresh)

theorem plain_deleteHandler {id : ℕ} : Moves R (deleteHandler id) := by
  refine .update fun m ↦ ?_
  generalize subHandlers m id = l
  have hfold : ∀ (l : List ℕ) (t : Machine), R t (l.foldl Machine.saveHandler t) := by
    intro l
    induction l with
    | nil => exact fun t ↦ refl_of R t
    | cons a l ih => exact fun t ↦ trans_of R (plain_saveHandler h t a) (ih _)
  exact trans_of R (plain_saveHandler h m id) (hfold l _)

variable {f : Frame} {cond : Conditions} {body : Frame → ℕ → Run Unit}
  (hbody : ∀ f e, Moves R (body f e))
include hbody

theorem plain_withHandler {current : Option ℕ} {c : Call} : Moves R
    (withHandler c.caller c.nfaCaller c.contract c.isInEval (callInSandbox current c f cond body)) :=
  moves_withHandler h.contracts (fun m _ ↦ h.handlers m _ _) (fun m _ ↦ plain_deleteHandler h m)
    (fun m _ ↦ h.event m _ rfl) fun _ ↦
    moves_callInSandbox h.above (moves_luaPcall h.vm (moves_runFunction (hbody f)))

theorem plain_call {current : Option ℕ} {c : Call} : Moves R
    (onAssertion (callFunction current c f cond body) (restoreCurrent current)) := by
  refine moves_onAssertion ?_ (moves_restoreCurrent h.above)
  exact .bind .get fun _ ↦ .bind (plain_note h rfl) fun _ ↦ .bind (plain_note h rfl) fun _ ↦
    plain_withHandler h hbody

theorem Plain.calls : Calls R cond body :=
  ⟨h.loose, h.runZone, fun m _ _ _ _ ↦ h.event m _ rfl, fun m _ ↦ h.event m _ rfl,
    plain_call h hbody⟩

variable {caller k n : ℕ} {function : FunctionName} {drops : ℤ}

theorem plain_doContractFunction {outer : Option (Option ℕ)} :
    Moves R (doContractFunction outer caller k function n drops cond body) :=
  .bind .get fun _ ↦ .bind (moves_enableDrops h.above) fun _ ↦
    .bind (moves_setDrops h.above) fun _ ↦
    .bind (moves_onAssertion
      (.bind moves_getContract fun _ ↦ .bind moves_requireArguments fun _ ↦ .bind .get fun _ ↦
        plain_call h hbody)
      (moves_enableDrops h.above)) fun _ ↦ moves_enableDrops h.above

theorem plain_doNfaContractFunction {nfa : ℕ} {isInEval : Bool} :
    Moves R (doNfaContractFunction caller k function n drops cond body nfa isInEval) :=
  .bind .get fun _ ↦ .bind (moves_enableDrops h.above) fun _ ↦
    .bind (moves_setDrops h.above) fun _ ↦ .bind .get fun _ ↦
    .bind (moves_onAssertion
      (.bind .get fun _ ↦ .bind (moves_enterZone h.runZone) fun _ ↦
        .bind (moves_admitAction fun m ↦ h.event m _ rfl) fun _ ↦ .bind moves_getContract fun _ ↦
        .bind moves_requireArguments fun _ ↦ .bind .get fun _ ↦ plain_call h hbody)
      (.bind (moves_enableDrops h.above) fun _ ↦ .update fun m ↦ h.runZone m _)) fun _ ↦
    .bind (moves_enableDrops h.above) fun _ ↦ .update fun m ↦ h.runZone m _

theorem plain_callContractFunction {outer : Option (Option ℕ)} :
    Moves R (callContractFunction outer caller k function n cond body) :=
  .bind (moves_onLedger h.loose) fun _ ↦ .bind moves_getContract fun _ ↦ .bind .get fun _ ↦
    .bind (moves_setExePoint h.loose) fun _ ↦
    .bind (moves_inNewContext h.vm (plain_doContractFunction h hbody)) fun _ ↦
    .bind .get fun _ ↦ .bind (moves_setExePoint h.loose) fun _ ↦ moves_onLedger h.loose

/-- All constructions but invocations. -/
theorem plain_construction {outer : Option (Option ℕ)} {self : Self} {c : Construction}
    (hinvoke : ∀ k function n, Moves R ((Construction.invoke k function n).run outer self cond body)) :
    Moves R (c.run outer self cond body) := by
  cases c with
  | createNfa =>
    exact .bind (moves_onObjects h.loose) fun _ ↦ .bind .get fun _ ↦
      .bind (plain_doContractFunction h hbody) fun _ ↦ .bind (moves_onObjects h.loose) fun _ ↦
      moves_addExePoint h.loose
  | changeNfaContract =>
    exact .bind (moves_onLedger h.loose) fun _ ↦ .bind moves_getContract fun _ ↦
      .bind moves_require fun _ ↦ .bind (moves_addExePoint h.loose) fun _ ↦
      .bind (moves_onLedger h.loose) fun _ ↦ .bind (plain_doContractFunction h hbody) fun _ ↦
      .bind .get fun _ ↦ .bind (moves_onLedger h.loose) fun _ ↦
      .bind (moves_addExePoint h.loose) fun _ ↦ moves_onObjects h.loose
  | invoke k function n => exact hinvoke k function n

theorem plain_perform {hash : ℕ → ℕ} {e : Execution} : Moves R (e.perform hash cond body) :=
  moves_perform
    { loose := h.loose
      session := fun _ ↦ moves_inSession
        (fun m o c ↦ trans_of R (trans_of R (h.objects m o) (h.contracts _ c)) (h.event _ _ rfl))
        (fun m ↦ h.event m _ rfl) fun m ↦ h.event m _ rfl
      context := fun _ ↦ moves_inContext h.vm
      function := plain_doContractFunction h hbody
      nfaFunction := plain_doNfaContractFunction h hbody }

end Calls

section Steps

variable (h : Plain R)
include h

theorem plain_readData {self : Self} {r : DataRead} : Moves R (readData self r) := by
  cases r with
  | contractData | accountData =>
    exact .bind (moves_addExePoint h.loose) fun _ ↦ .bind (plain_note h rfl) fun _ ↦ .pure _
  | contractDataOf =>
    exact .bind moves_getContract fun _ ↦ .bind .get fun _ ↦ .bind (plain_note h rfl) fun _ ↦
      .bind (plain_note h rfl) fun _ ↦ .bind (moves_addExePoint h.loose) fun _ ↦ .pure _
  | accountDataOf =>
    exact .bind (moves_onLedger h.loose) fun _ ↦ .bind (moves_prepareAccountData h.contracts) fun _ ↦
      .bind .get fun _ ↦ .bind (plain_note h rfl) fun _ ↦ .bind (plain_note h rfl) fun _ ↦
      .bind (moves_addExePoint h.loose) fun _ ↦ .pure _

theorem plain_modifyHandler {id : ℕ} {f : Handler → Handler} : Moves R (modifyHandler id f) :=
  moves_modifyHandler fun m _ _ ↦ h.handlers m _ m.fresh

theorem plain_writeData {self : Self} {w : DataWrite} : Moves R (writeData self w) := by
  cases w with
  | contractData =>
    exact .bind (moves_addExePoint h.loose) fun _ ↦ .bind (plain_modifyHandler h) fun _ ↦
      plain_note h rfl
  | accountData =>
    exact .bind (plain_modifyHandler h) fun _ ↦ .bind (plain_note h rfl) fun _ ↦
      moves_addExePoint h.loose

theorem plain_importContract {k : ℕ} {setup : Setup} : Moves R (importContract k setup) := by
  have hmake : ∀ current envId, Moves R (makeImport current envId k setup) := fun current envId ↦
    .bind (moves_addExePoint h.loose) fun _ ↦ .bind (moves_setup h.above) fun _ ↦ .bind .get fun _ ↦
      .bind (plain_note h rfl) fun _ ↦
      .bind (moves_newHandler h.contracts fun m _ _ ↦ h.handlers m _ _) fun _ ↦
      .bind (moves_newEnv h.above) fun _ ↦ .bind (moves_modifyEnv fun m _ _ ↦ h.envs m _ m.fresh)
      fun _ ↦ moves_clearGlobal h.above
  refine .bind moves_readCurrent fun current ↦ .ite (fun _ ↦ ?_) fun _ ↦ .pure _
  exact .bind moves_getContract fun _ ↦ .bind .get fun _ ↦ .bind moves_lookup fun envId ↦
    moves_onAssertion (hmake current envId) (moves_clearGlobal h.above)

/-- A plain relation is kept by all code when invocations keep it. -/
theorem plain_exec (hash : ℕ → ℕ)
    (hinvoke : ∀ outer self cond body, (∀ f e, Moves R (body f e)) → ∀ k function n,
      Moves R ((Construction.invoke k function n).run outer self cond body)) (code : Code) :
    ∀ f e, Moves R (exec hash f e code) := by
  induction code with
  | done => exact fun f e ↦ moves_checkBudget
  | error msg => exact fun f e ↦ .bind moves_checkBudget fun _ ↦ .throw _
  | tick cost next ih =>
    exact fun f e ↦ .bind (moves_spend h.above) fun _ ↦ .bind moves_checkBudget fun _ ↦ ih f e
  | allocate cost next ih =>
    exact fun f e ↦ .bind moves_checkBudget fun _ ↦ .bind (moves_allocate h.above) fun _ ↦ ih f e
  | look next ih => exact fun f e ↦ .bind moves_checkBudget fun _ ↦ .bind .get fun m ↦ ih m f e
  | protect body next ihb ihn =>
    exact fun f e ↦ .bind moves_checkBudget fun _ ↦ .bind (moves_luaPcall h.vm (ihb f e)) fun msg ↦
      ihn msg f e
  | contractApi api next ih =>
    exact fun f e ↦ .bind moves_checkBudget fun _ ↦ .bind (plain_noteUse h) fun _ ↦
      .bind moves_readSelf fun _ ↦ .bind moves_getContract fun _ ↦
      .bind (moves_addExePoint h.loose) fun _ ↦ .bind (moves_onObjects h.loose) fun _ ↦ ih f e
  | nfaApi api next ih =>
    exact fun f e ↦ .bind moves_checkBudget fun _ ↦ .bind (plain_noteUse h) fun _ ↦
      .bind moves_readSelf fun _ ↦ .bind moves_selfNfa fun _ ↦ .bind moves_getContract fun _ ↦
      .bind (moves_addExePoint h.loose) fun _ ↦ .bind (moves_onObjects h.loose) fun _ ↦ ih f e
  | read r next ih =>
    exact fun f e ↦ .bind moves_checkBudget fun _ ↦ .bind (plain_noteUse h) fun _ ↦
      .bind moves_readSelf fun _ ↦ .bind (plain_readData h) fun d ↦ ih d f e
  | write w next ih =>
    exact fun f e ↦ .bind moves_checkBudget fun _ ↦ .bind (plain_noteUse h) fun _ ↦
      .bind moves_readSelf fun _ ↦ .bind (plain_writeData h) fun _ ↦ ih f e
  | importContract k setup next ih =>
    exact fun f e ↦ .bind moves_checkBudget fun _ ↦ .bind (plain_importContract h) fun _ ↦ ih f e
  | inImport k body next ihb ihn =>
    exact fun f e ↦ .bind moves_checkBudget fun _ ↦ .bind moves_importedEnv fun _ ↦
      .bind (ihb { f with contract := k } _) fun _ ↦ ihn f e
  | call r cond body next ihb ihn =>
    exact fun f e ↦ .bind moves_checkBudget fun _ ↦ .bind (plain_noteUse h) fun _ ↦
      .bind moves_readSelf fun _ ↦ .bind (moves_request (h.calls ihb)) fun _ ↦ ihn f e
  | construct c cond body next ihb ihn =>
    exact fun f e ↦ .bind moves_checkBudget fun _ ↦ .bind (plain_noteUse h) fun _ ↦
      .bind moves_readSelf fun self ↦
      .bind (plain_construction h ihb (hinvoke f.outer self cond _ ihb)) fun _ ↦ ihn f e

end Steps

end Taiyi.Contract
