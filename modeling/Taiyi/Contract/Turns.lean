import Taiyi.Contract.Identity

set_option autoImplicit false

namespace Taiyi.Contract

open Library.IdMap Library.Frame Library.Outcome

variable {f : Frame} {e : ℕ}

section Request

/-- The contract that runs is found with helpers for whom the code runs. -/
theorem Leads.current {m : Machine} {c : Current} (hl : Leads f m)
    (h : readCurrent.run m = .ok c m) :
    c.handler.caller = f.caller ∧ c.env.baseInfo.caller = f.caller ∧
      c.env.nfaHelper.map (fun n ↦ (n.callerAccount, n.nfa)) = f.nfa.map fun n ↦ (f.caller, n) := by
  obtain ⟨-, hk, id, hid, hg, hch⟩ := readCurrent_ok h
  have hv : boundView m c.name = some (viewOf m c.env) := boundView_some.mpr ⟨id, _, hid, hg, rfl⟩
  rcases hl.2 c.name _ hk hv with hn | hv
  · rw [viewOf, hch] at hn
    cases hn
  · unfold viewOf at hv
    rw [hch] at hv
    simp only [Frame.view, View.mk.injEq, Option.map_some, Option.some.injEq, Prod.mk.injEq] at hv
    exact ⟨hv.1.1, hv.2.1.1, hv.2.2⟩

variable {cond : Conditions} {body : Frame → ℕ → Run Unit}
  (hbody : ∀ f e, Moves (Turns f e) (body f e))
include hbody

theorem live_callForNfa {location caller nfaCaller : Option ℕ} {k nfa : ℕ} {isInEval : Bool} :
    Moves (LiveTurns f e)
      (callForNfa f location caller nfaCaller k nfa isInEval cond body) := by
  intro m hs hw hm
  refine Moves.bind_at (R := Turns f e) (moves_readCurrent m) (fun c t ht ↦ ?_) hw hm
  obtain ⟨rfl, hk, -⟩ := readCurrent_ok ht
  refine fun hw hm ↦ ⟨stays_call (fun e ↦ (hbody _ e).mono fun _ _ h ↦ h.stays) hk.symm hw hm,
    fun hkn hf hr ↦ ?_⟩
  have hc := (hkn.leads.resolve_left hs).current ht
  refine right_call hbody ⟨?_, rfl, rfl, ?_⟩ hk.symm hw hm hf hr
  · exact congrArg caller.getD hc.1
  · exact congrArg caller.getD hc.2.1

theorem live_evalAction {nfaCaller : Option ℕ} {points : ℤ} {nfa action n : ℕ} :
    Moves (LiveTurns f e) (evalAction f nfaCaller points nfa action n cond body) := by
  refine live_bind (moves_addExePoint loose_still) fun _ ↦
    live_bind (moves_onLedger loose_still) fun _ ↦ live_bind moves_getMainContract fun c ↦ ?_
  split
  · exact Moves.mono (.pure _) fun _ _ h ↦ Turns.live h
  · exact live_bind moves_require fun _ ↦ live_bind moves_requireArguments fun _ ↦
      live_bind (moves_addExePoint loose_still) fun _ ↦ live_bind moves_readCurrent fun _ ↦
      live_bind .get fun _ ↦ live_callForNfa hbody

theorem live_callNfaFunction {caller : Option ℕ} {nfa n : ℕ} {function : FunctionName}
    {assertExists : Bool} :
    Moves (LiveTurns f e) (callNfaFunction f caller nfa function n assertExists cond body) := by
  refine live_bind (moves_addExePoint loose_still) fun _ ↦
    live_bind (moves_onLedger loose_still) fun _ ↦ live_bind moves_getMainContract fun c ↦ ?_
  split
  · exact Moves.mono moves_require fun _ _ h ↦ Turns.live h
  · exact live_bind moves_requireArguments fun _ ↦
      live_bind (moves_addExePoint loose_still) fun _ ↦ live_bind moves_readCurrent fun _ ↦
      live_bind .get fun _ ↦ live_callForNfa hbody

theorem live_performAction {nfaCaller location : Option ℕ} {points : ℤ}
    {nfa action n k : ℕ} {c : ContractObject} {d : Option (Option Bool)} :
    Moves (LiveTurns f e)
      (performAction f nfaCaller points nfa action n cond body location k c d) := by
  cases d with
  | none => exact Moves.mono (.pure _) fun _ _ h ↦ Turns.live h
  | some consequence =>
    exact live_bind moves_require fun _ ↦ live_bind moves_requireArguments fun _ ↦
      live_bind (moves_addExePoint loose_still) fun _ ↦
      live_then (live_callForNfa hbody) fun _ ↦ .pure _

theorem live_doAction {hash : ℕ → ℕ} {nfaCaller : Option ℕ} {points : ℤ}
    {caller nfa action n seed : ℕ} :
    Moves (LiveTurns f e)
      (doAction hash f caller nfaCaller points nfa action n seed cond body) := by
  refine live_bind .get fun m ↦ live_then (Moves.attempt ?_) fun _ ↦
    moves_leaveAction (fun m z ↦ (still_runZone m z).1) fun m _ ↦ (still_event m rfl).1
  exact live_bind (moves_addExePoint loose_still) fun _ ↦
    live_bind (moves_onLedger loose_still) fun _ ↦ live_bind .get fun _ ↦
    live_bind (moves_enterZone still_runZone) fun _ ↦ live_bind (moves_onLedger loose_still) fun _ ↦
    live_bind (moves_onLedger loose_still) fun _ ↦ live_bind moves_getMainContract fun c ↦
    live_bind (moves_admitAction fun m ↦ still_event m rfl) fun _ ↦
    live_performAction hbody

theorem live_request {hash : ℕ → ℕ} {self : Self} {r : Request} :
    Moves (LiveTurns f e) (r.run hash f self cond body) := by
  cases r with
  | evalNfaAction => exact live_evalAction hbody
  | doNfaAction => exact live_doAction hbody
  | evalAction => exact live_bind moves_selfNfa fun _ ↦ live_evalAction hbody
  | doAction => exact live_bind moves_selfNfa fun _ ↦ live_doAction hbody
  | callBack => exact live_bind moves_callbackCaller fun _ ↦ live_callNfaFunction hbody

end Request

section Construction

/-- A run outside of the virtual machine that there is. -/
def Rights (m m' : Machine) : Prop :=
  Wf m → Wf m' ∧ Keep m m' ∧ (Fair m' → Right m → Right m')

instance : IsPreorder Machine Rights where
  refl m hw := ⟨hw, .refl m, fun _ ↦ id⟩
  trans _ _ _ h h' hw := by
    obtain ⟨hw, hk, hr⟩ := h hw
    obtain ⟨hw', hk', hr'⟩ := h' hw
    exact ⟨hw', hk.trans hk', fun hf ↦ hr' hf ∘ hr (hk'.fair hf)⟩

theorem Within.rights {m m' : Machine} (h : Within m m') (hu : uses m' = uses m) : Rights m m' :=
  fun hw ↦ ⟨h.wf hw, h.keep, fun _ hr ↦ hr.of_uses hu⟩

theorem loose_rights : Loose Rights where
  objects _ _ := Within.rights ⟨rfl, rfl, rfl, fun _ ↦ id, fun _ _ ↦ id⟩ rfl
  exePoint _ _ := Within.rights ⟨rfl, rfl, rfl, fun _ ↦ id, fun _ _ ↦ id⟩ rfl

theorem rights_runZone (m : Machine) (z : Option ℕ) : Rights m { m with runZone := z } :=
  Within.rights ⟨rfl, rfl, rfl, fun _ ↦ id, fun _ _ ↦ id⟩ rfl

theorem after_inContext (x : Run Unit) (m : Machine) :
    after (inContext x) m = { after x { m with vm := {} } with vm := m.vm } := by
  cases h : x.run { m with vm := {} } with
  | ok _ t =>
    have ha : (attempt x).run { m with vm := {} } = .ok (.ok ⟨⟩) t := attempt_ok h
    rw [after_ok h]
    change after (attempt x >>= fun r ↦ _) { m with vm := {} } = _
    rw [after_bind_ok ha]
    rfl
  | error err t =>
    have ha : (attempt x).run { m with vm := {} } = .ok (.error err) t := attempt_error h
    rw [after_error h]
    change after (attempt x >>= fun r ↦ _) { m with vm := {} } = _
    rw [after_bind_ok ha]
    rfl

theorem Within.newVm (m : Machine) : Within m { m with vm := {} } :=
  ⟨rfl, rfl, rfl, fun _ ↦ id, fun k id h ↦ nomatch (h : (∅ : Table ℕ)[k]? = some id)⟩

/-- A run in a context of its own leads back to the virtual machine that there was. -/
theorem keep_inContext {x : Run Unit} {m : Machine} (hw : Wf m)
    (hw' : Wf (after x { m with vm := {} }))
    (hk : Keep { m with vm := {} } (after x { m with vm := {} })) :
    Wf (after (inContext x) m) ∧ Keep m (after (inContext x) m) := by
  rw [after_inContext]
  refine ⟨⟨hw'.env, hw'.handler, fun k id hid ↦ ?_, fun a k j g hg hj ↦ ?_⟩,
    ⟨hk.fresh, hk.env, hk.handler, hk.events⟩⟩
  · obtain ⟨g, hg⟩ := hw.sandbox k id hid
    have hview := hk.env id (hw.env id g hg).1
    rw [hg] at hview
    obtain ⟨g', hg', -⟩ := Option.map_eq_some_iff.mp hview
    exact ⟨g', hg'⟩
  · obtain ⟨i, hi, hii⟩ := hw'.imported a k j g hg hj
    exact ⟨i, hi, hii.nfaHelper, hii.caller, hii.contract, hii.handler⟩

theorem rights_inContext {x : Run Unit} (hx : Moves Rights x) : Moves Rights (inContext x) := by
  intro m hw
  obtain ⟨hw', hk, hr⟩ := hx { m with vm := {} } ((Within.newVm m).wf hw)
  have hback := keep_inContext hw hw' hk
  rw [after_inContext] at hback ⊢
  exact ⟨hback.1, hback.2, fun hf hm ↦ hr hf hm⟩

theorem turns_inContext {x : Run Unit} (hx : Moves Rights x) : Moves (Turns f e) (inContext x) := by
  intro m hw hm
  obtain ⟨hw', hk, hr⟩ := rights_inContext hx m hw
  have hv : (after (inContext x) m).vm = m.vm := by rw [after_inContext]
  refine ⟨⟨⟨hw', ?_, hk, ?_, .inr fun k id hid ↦ .inl ?_⟩, .inr (.inr ?_)⟩, fun _ ↦ hr⟩
  · unfold metered
    rwa [hv]
  · unfold Spent
    rw [hv]
    exact id
  · rwa [hv] at hid
  · rw [hv]

/-- A call whose objects are made for its own frame. -/
structure Service (m m' : Machine) : Prop where
  stay : Stay m m'
  right : Fair m' → Right m → Right m'

def Serves (m m' : Machine) : Prop := Wf m → metered m → Service m m'

instance : IsPreorder Machine Serves where
  refl m hw hm := ⟨refl_of Stays m hw hm, fun _ ↦ id⟩
  trans _ _ _ h h' hw hm := by
    have hs := h hw hm
    have hs' := h' hs.stay.steady.wf hs.stay.steady.metered
    exact ⟨hs.stay.trans hs'.stay, fun hf ↦ hs'.right hf ∘
      hs.right (hs'.stay.steady.keep.fair hf)⟩

theorem serves_of_stays {m m' : Machine} (h : Stays m m') (hu : uses m' = uses m) : Serves m m' :=
  fun hw hm ↦ ⟨h hw hm, fun _ hr ↦ hr.of_uses hu⟩

/-- The virtual machine with its budget set. -/
def Machine.withDrops (m : Machine) (drops : ℤ) : Machine :=
  { m with vm := { m.vm with enableDrops := true, drops := drops } }

theorem Within.withDrops (m : Machine) (drops : ℤ) : Within m (m.withDrops drops) :=
  ⟨rfl, rfl, rfl, fun _ ↦ id, fun _ _ ↦ id⟩

theorem Service.rights {m m' : Machine} {drops : ℤ} (h : Serves (m.withDrops drops) m') :
    Rights m m' := by
  intro hw
  have hin := Within.withDrops m drops
  have hs := h (hin.wf hw) rfl
  exact ⟨hs.stay.steady.wf, hin.keep.trans hs.stay.steady.keep, fun hf hr ↦
    hs.right hf (hr.of_uses rfl)⟩

theorem Service.live {m m' : Machine} {drops : ℤ} (h : Serves (m.withDrops drops) m') :
    LiveTurns f e m m' := by
  intro hlive hw hm
  have hin := Within.withDrops m drops
  have hs := h (hin.wf hw) rfl
  exact ⟨⟨⟨hs.stay.steady.wf, hs.stay.steady.metered, hin.keep.trans hs.stay.steady.keep,
    fun hsp ↦ absurd hsp hlive, hs.stay.steady.opens⟩, hs.stay.current⟩, fun _ hf hr ↦
    hs.right hf (hr.of_uses rfl)⟩

variable {cond : Conditions} {body : Frame → ℕ → Run Unit}
  (hbody : ∀ f e, Moves (Turns f e) (body f e))
include hbody

theorem serves_call {current : Option ℕ} {c : Call} {frame : Frame} (hmatch : Matches c frame)
    {m : Machine} (hc : current = m.vm.currentContract) :
    Serves m (after (onAssertion (callFunction current c frame cond body)
      (restoreCurrent current)) m) :=
  fun hw hm ↦ ⟨stays_call (fun e ↦ (hbody frame e).mono fun _ _ h ↦ h.stays) hc hw hm,
    right_call hbody hmatch hc hw hm⟩

omit hbody in
theorem serves_enableDrops : Moves Serves (enableDrops true) := by
  intro m hw hm
  have hid : after (enableDrops true) m = m := by
    change { m with vm := { m.vm with enableDrops := true } } = m
    rw [← show m.vm.enableDrops = true from hm]
  rw [hid]
  exact refl_of Serves m hw hm

omit hbody in
theorem rights_enableDrops {enable : Bool} : Moves Rights (enableDrops enable) :=
  .update fun _ ↦ Within.rights ⟨rfl, rfl, rfl, fun _ ↦ id, fun _ _ ↦ id⟩ rfl

omit hbody in
theorem rights_of_serves {m m' : Machine} (hm : metered m) (h : Serves m m') : Rights m m' :=
  fun hw ↦
    have hs := h hw hm
    ⟨hs.stay.steady.wf, hs.stay.steady.keep, hs.right⟩

/-- The part of a call for no NFA that the switch of the budget is set back around. -/
def serveFunction (outer : Option (Option ℕ)) (caller k : ℕ) (function : FunctionName) (n : ℕ) (cond : Conditions)
    (body : Frame → ℕ → Run Unit) : Run Unit := do
  let c ← getContract k
  requireArguments n (c.abi.lookup function)
  let current := (← get).vm.currentContract
  let frame : Frame := { caller := caller, nfa := none, contract := k, outer := outer }
  onAssertion
    (callFunction current
      { caller := caller, contract := k, nfa := none, infoCaller := caller, invoker := k,
        isInEval := false, asksForFunction := true }
      frame cond body)
    (restoreCurrent current)

theorem serves_function {outer : Option (Option ℕ)} {caller k n : ℕ} {function : FunctionName} :
    Moves Serves (serveFunction outer caller k function n cond body) := by
  refine .bind moves_getContract fun _ ↦ .bind moves_requireArguments fun _ m ↦ ?_
  refine Moves.bind_at (Moves.get m) fun _ _ hg ↦ ?_
  cases hg
  exact serves_call hbody ⟨rfl, rfl, rfl, rfl⟩ rfl

omit hbody in
theorem after_doContractFunction {outer : Option (Option ℕ)} {caller k n : ℕ} {function : FunctionName} {drops : ℤ}
    (m : Machine) :
    after (doContractFunction outer caller k function n drops cond body) m =
      after (onAssertion (serveFunction outer caller k function n cond body)
        (enableDrops m.vm.enableDrops) >>= fun _ ↦ enableDrops m.vm.enableDrops)
        (m.withDrops drops) := rfl

theorem live_doContractFunction {outer : Option (Option ℕ)} {caller k n : ℕ} {function : FunctionName} {drops : ℤ} :
    Moves (LiveTurns f e) (doContractFunction outer caller k function n drops cond body) := by
  intro m hlive hw hm
  rw [after_doContractFunction, show m.vm.enableDrops = true from hm]
  exact Service.live (Moves.bind (moves_onAssertion (serves_function hbody) serves_enableDrops)
    (fun _ ↦ serves_enableDrops) _) hlive hw hm

theorem rights_doContractFunction {outer : Option (Option ℕ)} {caller k n : ℕ} {function : FunctionName} {drops : ℤ} :
    Moves Rights (doContractFunction outer caller k function n drops cond body) := by
  intro m
  rw [after_doContractFunction]
  refine trans_of Rights (Within.rights (Within.withDrops m drops) rfl)
    (Moves.bind_at ?_ fun _ t _ ↦ rights_enableDrops t)
  refine Moves.bind_at ?_ fun _ t _ ↦ moves_cleanUp rights_enableDrops t
  rw [after_attempt]
  exact rights_of_serves rfl (serves_function hbody _)

theorem turns_callContractFunction {outer : Option (Option ℕ)} {caller k n : ℕ} {function : FunctionName} :
    Moves (Turns f e) (callContractFunction outer caller k function n cond body) :=
  have hl : Loose (Turns f e) :=
    ⟨fun m o ↦ (loose_still.objects m o).1, fun m p ↦ (loose_still.exePoint m p).1⟩
  .bind (moves_onLedger hl) fun _ ↦ .bind moves_getContract fun _ ↦ .bind .get fun _ ↦
    .bind (moves_setExePoint hl) fun _ ↦
    .bind (.bind (turns_inContext (rights_doContractFunction hbody)) fun _ ↦ moves_rethrow) fun _ ↦
    .bind .get fun _ ↦ .bind (moves_setExePoint hl) fun _ ↦ moves_onLedger hl

theorem live_construction {outer : Option (Option ℕ)} {self : Self} {c : Construction} :
    Moves (LiveTurns f e) (c.run outer self cond body) := by
  have hl : Loose (Turns f e) :=
    ⟨fun m o ↦ (loose_still.objects m o).1, fun m p ↦ (loose_still.exePoint m p).1⟩
  cases c with
  | createNfa =>
    exact live_bind (moves_onObjects loose_still) fun _ ↦ live_bind .get fun _ ↦
      live_then (live_doContractFunction hbody) fun _ ↦
      .bind (moves_onObjects hl) fun _ ↦ moves_addExePoint hl
  | changeNfaContract =>
    exact live_bind (moves_onLedger loose_still) fun _ ↦ live_bind moves_getContract fun _ ↦
      live_bind moves_require fun _ ↦ live_bind (moves_addExePoint loose_still) fun _ ↦
      live_bind (moves_onLedger loose_still) fun _ ↦
      live_then (live_doContractFunction hbody) fun _ ↦
      .bind .get fun _ ↦ .bind (moves_onLedger hl) fun _ ↦ .bind (moves_addExePoint hl) fun _ ↦
      moves_onObjects hl
  | invoke =>
    exact (moves_invoke hl pathless_turns (turns_callContractFunction hbody)).mono
      fun _ _ h ↦ Turns.live h

end Construction

section Steps

theorem turns_readData {self : Self} {r : DataRead} : Moves (Turns f e) (readData self r) := by
  refine Moves.mono (?_ : Moves (StillTurns f e) _) fun _ _ h ↦ h.1
  cases r with
  | contractData | accountData =>
    exact .bind (moves_addExePoint loose_still) fun _ ↦ .bind (still_note rfl) fun _ ↦ .pure _
  | contractDataOf =>
    exact .bind moves_getContract fun _ ↦ .bind .get fun _ ↦ .bind (still_note rfl) fun _ ↦
      .bind (still_note rfl) fun _ ↦ .bind (moves_addExePoint loose_still) fun _ ↦ .pure _
  | accountDataOf =>
    exact .bind (moves_onLedger loose_still) fun _ ↦
      .bind (moves_prepareAccountData still_contracts) fun _ ↦ .bind .get fun _ ↦
      .bind (still_note rfl) fun _ ↦ .bind (still_note rfl) fun _ ↦
      .bind (moves_addExePoint loose_still) fun _ ↦ .pure _

theorem still_modifyHandler {id : ℕ} {g : Handler → Handler} (hg : ∀ h, (g h).who = h.who) :
    Moves (StillTurns f e) (modifyHandler id g) :=
  moves_modifyHandler fun _ h hh ↦
    ⟨turns_of_stays (stays_of_steadily (steadily_insert hh (hg h)) rfl) rfl, rfl⟩

theorem turns_writeData {self : Self} {w : DataWrite} : Moves (Turns f e) (writeData self w) := by
  refine Moves.mono (?_ : Moves (StillTurns f e) _) fun _ _ h ↦ h.1
  cases w with
  | contractData =>
    exact .bind (moves_addExePoint loose_still) fun _ ↦
      .bind (still_modifyHandler fun _ ↦ rfl) fun _ ↦ still_note rfl
  | accountData =>
    exact .bind (still_modifyHandler fun _ ↦ rfl) fun _ ↦ .bind (still_note rfl) fun _ ↦
      moves_addExePoint loose_still

theorem uses_importContract {k : ℕ} {setup : Setup} :
    Moves (Same uses) (importContract k setup) := by
  have hl : Loose (Same uses) := ⟨fun _ _ ↦ rfl, fun _ _ ↦ rfl⟩
  refine .bind moves_readCurrent fun _ ↦ .ite (fun _ ↦ ?_) fun _ ↦ .pure _
  refine .bind moves_getContract fun _ ↦ .bind .get fun _ ↦ .bind moves_lookup fun _ ↦
    moves_onAssertion ?_ (moves_clearGlobal above_uses)
  exact .bind (moves_addExePoint hl) fun _ ↦ .bind (moves_setup above_uses) fun _ ↦
    .bind .get fun _ ↦ .bind (.update fun _ ↦ rfl) fun _ ↦ .bind uses_newHandler fun _ ↦
    .bind (moves_newEnv above_uses) fun _ ↦ .bind (moves_modifyEnv fun _ _ _ ↦ rfl) fun _ ↦
    moves_clearGlobal above_uses

theorem turns_importContract {k : ℕ} {setup : Setup} :
    Moves (Turns f e) (importContract k setup) :=
  turns_moves stays_importContract uses_importContract

/-- The table of an imported contract is found with helpers for whom the importing one runs. -/
theorem Known.imported {m m' : Machine} {k id : ℕ} (hw : Wf m) (hs : ¬Spent m) (hk : Known f e m)
    (h : (importedEnv k).run m = .ok id m') :
    m' = m ∧ Known { f with contract := k } id m := by
  have hl := hk.leads.resolve_left hs
  obtain ⟨c, t, hc, h₁⟩ := bind_ok.mp h
  obtain ⟨rfl, hcur, id', hid', hg, hch⟩ := readCurrent_ok hc
  obtain ⟨hcaller, hinfo, hnfa⟩ := hl.current hc
  have hleads : Leads { f with contract := k } t := ⟨hl.1, hl.2⟩
  split at h₁
  · next hname =>
    obtain ⟨_, _, hget, h₂⟩ := bind_ok.mp h₁
    cases hget
    obtain ⟨hid, rfl⟩ := lookup_ok h₂
    subst hname
    cases hid'.symm.trans hid
    refine ⟨rfl, ?_, .inr hleads⟩
    rw [hg, Option.map_some]
    refine congrArg some ((hl.2 c.name _ hcur (boundView_some.mpr ⟨_, _, hid', hg, rfl⟩))
      |>.resolve_left fun hn ↦ ?_)
    rw [viewOf, hch] at hn
    cases hn
  · obtain ⟨hid, rfl⟩ := lookup_ok h₁
    obtain ⟨i, hi, hii⟩ := hw.imported id' k id c.env hg hid
    refine ⟨rfl, ?_, .inr hleads⟩
    have hwho := hii.handler c.handler.who (by rw [hch, Option.map_some])
    rw [hi, Option.map_some, viewOf_eq, hwho]
    simp only [Env.helpers, Frame.view, hii.caller, hii.contract, hii.nfaHelper, hinfo, hnfa,
      Option.map_some]

theorem live_inImport {k : ℕ} {body : Frame → ℕ → Run Unit} {next : Run Unit}
    (hbody : ∀ f e, Moves (Turns f e) (body f e)) (hnext : Moves (Turns f e) next) :
    Moves (LiveTurns f e) (do
      let imported ← importedEnv k
      body { f with contract := k } imported
      next) := by
  intro m hs hw hm
  refine Moves.bind_at (R := Turns f e) (moves_importedEnv m) (fun table t ht ↦ ?_) hw hm
  have hread : t = m := (after_ok ht).symm.trans ((moves_importedEnv : Moves (Same id) _) m)
  subst hread
  refine Moves.bind_at (fun hw hm ↦ ⟨(hbody _ table t hw hm).stay, fun hk ↦ ?_⟩)
    fun _ u _ ↦ hnext u
  exact (hbody _ table t hw hm).right (hk.imported hw hs ht).2

theorem turns_exec (hash : ℕ → ℕ) (code : Code) :
    ∀ f e, Moves (Turns f e) (exec hash f e code) := by
  have hl : ∀ f e, Loose (Turns f e) := fun f e ↦
    ⟨fun m o ↦ (loose_still.objects m o).1, fun m p ↦ (loose_still.exePoint m p).1⟩
  have huse : ∀ f e, Moves (Turns f e) (noteUse f e) := fun f e m ↦ (still_noteUse m).1
  induction code with
  | done => exact fun f e ↦ moves_checkBudget
  | error msg => exact fun f e ↦ .bind moves_checkBudget fun _ ↦ .throw _
  | tick cost next ih =>
    exact fun f e ↦ .bind (turns_moves stays_spend (moves_spend above_uses)) fun _ ↦
      .bind moves_checkBudget fun _ ↦ ih f e
  | allocate cost next ih =>
    exact fun f e ↦ .bind moves_checkBudget fun _ ↦
      .bind (turns_moves stays_allocate (moves_allocate above_uses)) fun _ ↦ ih f e
  | look next ih => exact fun f e ↦ .bind moves_checkBudget fun _ ↦ .bind .get fun m ↦ ih m f e
  | protect body next ihb ihn =>
    intro f e
    have hset : ∀ n, Moves (Turns f e) (setProtected n) := fun n ↦
      turns_moves (.update fun _ ↦
        stays_of_steadily (steadily_vm rfl (fun _ ↦ le_rfl) fun _ _ ↦ id) rfl)
        (.update fun _ ↦ rfl)
    refine .bind moves_checkBudget fun _ ↦ .bind ?_ fun msg ↦ ihn msg f e
    exact .bind .get fun _ ↦ .bind (hset _) fun _ ↦ .bind (ihb f e).attempt fun _ ↦
      .bind (hset _) fun _ ↦ .pure _
  | contractApi api next ih =>
    exact fun f e ↦ .bind moves_checkBudget fun _ ↦ .bind (huse f e) fun _ ↦
      .bind moves_readSelf fun _ ↦ .bind moves_getContract fun _ ↦
      .bind (moves_addExePoint (hl f e)) fun _ ↦ .bind (moves_onObjects (hl f e)) fun _ ↦ ih f e
  | nfaApi api next ih =>
    exact fun f e ↦ .bind moves_checkBudget fun _ ↦ .bind (huse f e) fun _ ↦
      .bind moves_readSelf fun _ ↦ .bind moves_selfNfa fun _ ↦ .bind moves_getContract fun _ ↦
      .bind (moves_addExePoint (hl f e)) fun _ ↦ .bind (moves_onObjects (hl f e)) fun _ ↦ ih f e
  | read r next ih =>
    exact fun f e ↦ .bind moves_checkBudget fun _ ↦ .bind (huse f e) fun _ ↦
      .bind moves_readSelf fun _ ↦ .bind turns_readData fun d ↦ ih d f e
  | write w next ih =>
    exact fun f e ↦ .bind moves_checkBudget fun _ ↦ .bind (huse f e) fun _ ↦
      .bind moves_readSelf fun _ ↦ .bind turns_writeData fun _ ↦ ih f e
  | importContract k setup next ih =>
    exact fun f e ↦ .bind moves_checkBudget fun _ ↦ .bind turns_importContract fun _ ↦ ih f e
  | inImport k body next ihb ihn =>
    intro f e
    exact turns_budget (live_inImport ihb (ihn f e))
  | call r cond body next ihb ihn =>
    intro f e
    refine turns_budget (live_bind still_noteUse fun _ ↦ live_bind moves_readSelf fun _ ↦ ?_)
    exact live_then (live_request ihb) fun _ ↦ ihn f e
  | construct c cond body next ihb ihn =>
    intro f e
    refine turns_budget (live_bind still_noteUse fun _ ↦ live_bind moves_readSelf fun _ ↦ ?_)
    exact live_then (live_construction ihb) fun _ ↦ ihn f e

end Steps

end Taiyi.Contract
