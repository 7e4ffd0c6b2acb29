import Taiyi.Contract.RunZone

set_option autoImplicit false

namespace Taiyi.Contract

open Library.IdMap Library.Frame Library.Outcome

variable {f : Frame} {cond : Conditions} {body : Frame → ℕ → Run Unit}

section Steps

variable {P : Option ℕ → Prop} {e : ℕ} {self : Self}

theorem zoned_note {ev : Event} (h : ∀ outer location zone before known,
    ev ≠ .acted outer location zone before known) : Moves (Zoned P) (note ev) :=
  .update (zoned_event h)

theorem zoned_noteUse : Moves (Zoned P) (noteUse f e) :=
  .bind .get fun _ ↦ zoned_note fun _ _ _ _ _ h ↦ nomatch h

theorem zoned_readData {r : DataRead} : Moves (Zoned P) (readData self r) := by
  cases r with
  | contractData | accountData =>
    exact .bind (moves_addExePoint loose_zoned) fun _ ↦
      .bind (zoned_note fun _ _ _ _ _ h ↦ nomatch h) fun _ ↦ .pure _
  | contractDataOf =>
    exact .bind moves_getContract fun _ ↦ .bind .get fun _ ↦
      .bind (zoned_note fun _ _ _ _ _ h ↦ nomatch h) fun _ ↦
      .bind (zoned_note fun _ _ _ _ _ h ↦ nomatch h) fun _ ↦
      .bind (moves_addExePoint loose_zoned) fun _ ↦ .pure _
  | accountDataOf =>
    exact .bind (moves_onLedger loose_zoned) fun _ ↦
      .bind (moves_prepareAccountData fun _ _ ↦ zoned_of_same rfl rfl) fun _ ↦ .bind .get fun _ ↦
      .bind (zoned_note fun _ _ _ _ _ h ↦ nomatch h) fun _ ↦
      .bind (zoned_note fun _ _ _ _ _ h ↦ nomatch h) fun _ ↦
      .bind (moves_addExePoint loose_zoned) fun _ ↦ .pure _

theorem zoned_writeData {w : DataWrite} : Moves (Zoned P) (writeData self w) := by
  cases w with
  | contractData =>
    exact .bind (moves_addExePoint loose_zoned) fun _ ↦
      .bind (moves_modifyHandler fun _ _ _ ↦ zoned_of_same rfl rfl) fun _ ↦
      zoned_note fun _ _ _ _ _ h ↦ nomatch h
  | accountData =>
    exact .bind (moves_modifyHandler fun _ _ _ ↦ zoned_of_same rfl rfl) fun _ ↦
      .bind (zoned_note fun _ _ _ _ _ h ↦ nomatch h) fun _ ↦ moves_addExePoint loose_zoned

theorem zoned_importContract {k : ℕ} {setup : Setup} :
    Moves (Zoned P) (importContract k setup) := by
  have hmake : ∀ current envId, Moves (Zoned P) (makeImport current envId k setup) :=
    fun current envId ↦ .bind (moves_addExePoint loose_zoned) fun _ ↦
      .bind (moves_setup above_zoned) fun _ ↦ .bind .get fun _ ↦
      .bind (zoned_note fun _ _ _ _ _ h ↦ nomatch h) fun _ ↦
      .bind (moves_newHandler (fun _ _ ↦ zoned_of_same rfl rfl) fun _ _ _ ↦ zoned_of_same rfl rfl)
        fun _ ↦ .bind (moves_newEnv above_zoned) fun _ ↦
      .bind (moves_modifyEnv fun _ _ _ ↦ zoned_of_same rfl rfl) fun _ ↦ moves_clearGlobal above_zoned
  refine .bind moves_readCurrent fun current ↦ .ite (fun _ ↦ ?_) fun _ ↦ .pure _
  exact .bind moves_getContract fun _ ↦ .bind .get fun _ ↦ .bind moves_lookup fun envId ↦
    moves_onAssertion (hmake current envId) (moves_clearGlobal above_zoned)

section Request

variable (hbody : ∀ f e, Moves (Zoned (InZone f.outer)) (body f e))
include hbody

theorem zoned_request {hash : ℕ → ℕ} {r : Request} :
    Moves (Zoned (InZone f.outer)) (r.run hash f self cond body) := by
  cases r with
  | evalNfaAction => exact zoned_evalAction hbody
  | doNfaAction => exact zoned_doAction hbody
  | evalAction => exact .bind moves_selfNfa fun _ ↦ zoned_evalAction hbody
  | doAction => exact .bind moves_selfNfa fun _ ↦ zoned_doAction hbody
  | callBack => exact .bind moves_callbackCaller fun _ ↦ zoned_callNfaFunction hbody

variable {outer : Option (Option ℕ)} {caller k n : ℕ} {function : FunctionName}

theorem zoned_doContractFunction {drops : ℤ} : Moves (Zoned (InZone outer))
    (doContractFunction outer caller k function n drops cond body) := by
  have hserve : Moves (Zoned (InZone outer))
      (serveFunction outer caller k function n cond body) :=
    .bind moves_getContract fun _ ↦ .bind moves_requireArguments fun _ ↦ .bind .get fun _ ↦
      zoned_call fun e ↦ hbody _ e
  exact .bind .get fun _ ↦ .bind (moves_enableDrops above_zoned) fun _ ↦
    .bind (moves_setDrops above_zoned) fun _ ↦
    .bind (moves_onAssertion hserve (moves_enableDrops above_zoned)) fun _ ↦
    moves_enableDrops above_zoned

theorem zoned_callContractFunction : Moves (Zoned (InZone outer))
    (callContractFunction outer caller k function n cond body) :=
  .bind (moves_onLedger loose_zoned) fun _ ↦ .bind moves_getContract fun _ ↦ .bind .get fun _ ↦
    .bind (moves_setExePoint loose_zoned) fun _ ↦
    .bind (moves_inNewContext (fun _ _ ↦ zoned_of_same rfl rfl) (zoned_doContractFunction hbody))
      fun _ ↦
    .bind .get fun _ ↦ .bind (moves_setExePoint loose_zoned) fun _ ↦ moves_onLedger loose_zoned

theorem zoned_construction {c : Construction} :
    Moves (Zoned (InZone outer)) (c.run outer self cond body) := by
  cases c with
  | createNfa =>
    exact .bind (moves_onObjects loose_zoned) fun _ ↦ .bind .get fun _ ↦
      .bind (zoned_doContractFunction hbody) fun _ ↦ .bind (moves_onObjects loose_zoned) fun _ ↦
      moves_addExePoint loose_zoned
  | changeNfaContract =>
    exact .bind (moves_onLedger loose_zoned) fun _ ↦ .bind moves_getContract fun _ ↦
      .bind moves_require fun _ ↦ .bind (moves_addExePoint loose_zoned) fun _ ↦
      .bind (moves_onLedger loose_zoned) fun _ ↦ .bind (zoned_doContractFunction hbody) fun _ ↦
      .bind .get fun _ ↦ .bind (moves_onLedger loose_zoned) fun _ ↦
      .bind (moves_addExePoint loose_zoned) fun _ ↦ moves_onObjects loose_zoned
  | invoke => exact moves_invoke loose_zoned pathless_zoned (zoned_callContractFunction hbody)

end Request

theorem zoned_exec (hash : ℕ → ℕ) (code : Code) :
    ∀ f e, Moves (Zoned (InZone f.outer)) (exec hash f e code) := by
  induction code with
  | done => exact fun f e ↦ moves_checkBudget
  | error msg => exact fun f e ↦ .bind moves_checkBudget fun _ ↦ .throw _
  | tick cost next ih =>
    exact fun f e ↦ .bind (moves_spend above_zoned) fun _ ↦ .bind moves_checkBudget fun _ ↦ ih f e
  | allocate cost next ih =>
    exact fun f e ↦ .bind moves_checkBudget fun _ ↦ .bind (moves_allocate above_zoned) fun _ ↦ ih f e
  | look next ih => exact fun f e ↦ .bind moves_checkBudget fun _ ↦ .bind .get fun m ↦ ih m f e
  | protect body next ihb ihn =>
    exact fun f e ↦ .bind moves_checkBudget fun _ ↦
      .bind (moves_luaPcall (fun _ _ ↦ zoned_of_same rfl rfl) (ihb f e)) fun msg ↦ ihn msg f e
  | contractApi api next ih =>
    exact fun f e ↦ .bind moves_checkBudget fun _ ↦ .bind zoned_noteUse fun _ ↦
      .bind moves_readSelf fun _ ↦ .bind moves_getContract fun _ ↦
      .bind (moves_addExePoint loose_zoned) fun _ ↦ .bind (moves_onObjects loose_zoned) fun _ ↦ ih f e
  | nfaApi api next ih =>
    exact fun f e ↦ .bind moves_checkBudget fun _ ↦ .bind zoned_noteUse fun _ ↦
      .bind moves_readSelf fun _ ↦ .bind moves_selfNfa fun _ ↦ .bind moves_getContract fun _ ↦
      .bind (moves_addExePoint loose_zoned) fun _ ↦ .bind (moves_onObjects loose_zoned) fun _ ↦ ih f e
  | read r next ih =>
    exact fun f e ↦ .bind moves_checkBudget fun _ ↦ .bind zoned_noteUse fun _ ↦
      .bind moves_readSelf fun _ ↦ .bind zoned_readData fun d ↦ ih d f e
  | write w next ih =>
    exact fun f e ↦ .bind moves_checkBudget fun _ ↦ .bind zoned_noteUse fun _ ↦
      .bind moves_readSelf fun _ ↦ .bind zoned_writeData fun _ ↦ ih f e
  | importContract k setup next ih =>
    exact fun f e ↦ .bind moves_checkBudget fun _ ↦ .bind zoned_importContract fun _ ↦ ih f e
  | inImport k body next ihb ihn =>
    exact fun f e ↦ .bind moves_checkBudget fun _ ↦ .bind moves_importedEnv fun _ ↦
      .bind (ihb { f with contract := k } _) fun _ ↦ ihn f e
  | call r cond body next ihb ihn =>
    exact fun f e ↦ .bind moves_checkBudget fun _ ↦ .bind zoned_noteUse fun _ ↦
      .bind moves_readSelf fun _ ↦ .bind (zoned_request ihb) fun _ ↦ ihn f e
  | construct c cond body next ihb ihn =>
    exact fun f e ↦ .bind moves_checkBudget fun _ ↦ .bind zoned_noteUse fun _ ↦
      .bind moves_readSelf fun _ ↦ .bind (zoned_construction ihb) fun _ ↦ ihn f e

end Steps

section Outermost

/-- A run that no error is caught around, from where no zone is set. -/
def Outermost (m m' : Machine) : Prop :=
  m.vm.protectedCalls = 0 → m'.vm.protectedCalls = 0 ∧ Zoned (· = none) m m'

instance : IsPreorder Machine Outermost where
  refl m hp := ⟨hp, refl_of (Zoned _) m⟩
  trans _ _ _ h h' hp :=
    have hz := h hp
    have hz' := h' hz.1
    ⟨hz'.1, trans_of (Zoned _) hz.2 hz'.2⟩

theorem outermost_of_same {m m' : Machine} (hv : m'.vm = m.vm) (hz : m'.runZone = m.runZone)
    (he : m'.events = m.events) : Outermost m m' :=
  fun hp ↦ ⟨hv ▸ hp, zoned_of_same hz he⟩

theorem loose_outermost : Loose Outermost :=
  ⟨fun _ _ ↦ outermost_of_same rfl rfl rfl, fun _ _ ↦ outermost_of_same rfl rfl rfl⟩

/-- How many protected calls are under way. -/
def protectedCalls (m : Machine) : ℕ := m.vm.protectedCalls

theorem above_protectedCalls : Above (Same protectedCalls) :=
  ⟨fun _ _ h ↦ h, fun _ _ ↦ rfl, fun _ ↦ rfl⟩

/-- A protected call is over when it is left. -/
theorem protectedCalls_luaPcall {x : Run Unit} : Moves (Same protectedCalls) (luaPcall x) := by
  intro m
  refine Moves.bind_at (Moves.get m) fun _ _ hg ↦ ?_
  cases hg
  cases hr : x.run { m with vm := { m.vm with protectedCalls := m.vm.protectedCalls + 1 } } with
  | ok _ t =>
    change protectedCalls (after (attempt x >>= fun r ↦ _) _) = _
    rw [after_bind_ok (attempt_ok hr)]
    rfl
  | error _ t =>
    change protectedCalls (after (attempt x >>= fun r ↦ _) _) = _
    rw [after_bind_ok (attempt_error hr)]
    rfl

theorem protectedCalls_call {current : Option ℕ} {c : Call} :
    Moves (Same protectedCalls)
      (onAssertion (callFunction current c f cond body) (restoreCurrent current)) := by
  refine moves_onAssertion ?_ (moves_restoreCurrent above_protectedCalls)
  exact .bind .get fun _ ↦ .bind (.update fun _ ↦ rfl) fun _ ↦ .bind (.update fun _ ↦ rfl) fun _ ↦
    moves_withHandler (fun _ _ ↦ rfl) (fun _ _ ↦ rfl)
      (fun m id ↦ congrArg Vm.protectedCalls (deletes id m).vm) (fun _ _ ↦ rfl)
      fun _ ↦ moves_callInSandbox above_protectedCalls protectedCalls_luaPcall

variable {caller k n nfa : ℕ} {function : FunctionName} {isInEval : Bool} {before : Option ℕ}

theorem protectedCalls_serve {outer : Option (Option ℕ)} :
    Moves (Same protectedCalls) (serveFunction outer caller k function n cond body) :=
  .bind moves_getContract fun _ ↦ .bind moves_requireArguments fun _ ↦ .bind .get fun _ ↦
    protectedCalls_call

theorem protectedCalls_serveNfa :
    Moves (Same protectedCalls)
      (serveNfaFunction caller k function n cond body nfa isInEval before) :=
  .bind .get fun _ ↦ .bind (moves_enterZone fun _ _ ↦ rfl) fun _ ↦
    .bind (moves_admitAction fun _ ↦ rfl) fun _ ↦ .bind moves_getContract fun _ ↦
    .bind moves_requireArguments fun _ ↦ .bind .get fun _ ↦ protectedCalls_call

theorem breaks_serveNfa :
    Throws Breaks (serveNfaFunction caller k function n cond body nfa isInEval before) :=
  .bind .get fun _ ↦ .bind breaks_enterZone fun _ ↦ .bind breaks_admitAction fun _ ↦
    .bind breaks_getContract fun _ ↦ .bind breaks_requireArguments fun _ ↦ .bind .get fun _ ↦
    breaks_onAssertion breaks_callFunction breaks_restoreCurrent

variable (hbody : ∀ f e, Moves (Zoned (InZone f.outer)) (body f e))
include hbody

theorem outermost_doContractFunction {drops : ℤ} :
    Moves Outermost (doContractFunction none caller k function n drops cond body) := by
  have hp : Moves (Same protectedCalls)
      (doContractFunction none caller k function n drops cond body) :=
    .bind .get fun _ ↦ .bind (moves_enableDrops above_protectedCalls) fun _ ↦
      .bind (moves_setDrops above_protectedCalls) fun _ ↦
      .bind (moves_onAssertion protectedCalls_serve (moves_enableDrops above_protectedCalls))
      fun _ ↦ moves_enableDrops above_protectedCalls
  refine fun m hm ↦ ⟨(hp m).trans hm, (zoned_doContractFunction hbody m).weaken fun z hz ↦ ?_⟩
  exact .inl hz

theorem zoned_admittedNfa {location : Option ℕ} :
    Moves (Zoned fun z ↦ z = before.or location ∧ InZone none before) (do
      let frame : Frame :=
        { caller := caller, nfa := some nfa, contract := k, outer := some location }
      admitAction { frame with outer := none } location before k true
      let c ← getContract k
      requireArguments n (c.abi.lookup function)
      let current := (← get).vm.currentContract
      onAssertion
        (callFunction current
          { caller := caller, contract := k, nfa := some nfa, infoCaller := caller, invoker := k,
            isInEval := isInEval, closes := false }
          frame cond body)
        (restoreCurrent current)) := by
  have hzone : ∀ z, z = before.or location ∧ InZone none before → z = location := fun z hz ↦
    hz.1.trans (hz.2.entered fun _ ↦ rfl)
  refine .bind (moves_admitAction fun m ↦ ⟨fun _ ↦ List.mem_cons_of_mem _, fun _ hz ↦ ⟨rfl, ?_⟩⟩)
    fun _ ↦ ?_
  · intro hp o l z b kn he
    rcases List.mem_cons.mp he with he | he
    · cases he
      exact hzone _ hz
    · exact hp o l z b kn he
  · refine Moves.mono (R := Zoned (InZone (some location))) ?_ fun _ _ h ↦ h.weaken fun z hz ↦ ?_
    · exact .bind moves_getContract fun _ ↦ .bind moves_requireArguments fun _ ↦ .bind .get fun _ ↦
        zoned_call fun e ↦ hbody _ e
    · rw [hzone z hz]
      exact .inr rfl

theorem places_serveNfa {m : Machine} (hb : m.runZone = before) :
    Places none before m
      (after (serveNfaFunction caller k function n cond body nfa isInEval before) m) := by
  refine Moves.bind_at (Moves.get m) fun _ _ hg ↦ ?_
  cases hg
  refine Moves.bind_at ?_ fun _ t ht ↦ ?_
  · unfold enterZone
    split
    · exact ⟨fun _ ↦ id, fun _ _ ↦ id⟩
    · exact refl_of (Places none _) m
  · cases enterZone_ok ht hb
    exact Zoned.places (zoned_admittedNfa hbody _) fun h ↦ ⟨rfl, h⟩

/-- The zone of the outermost NFA is set for the time that its function runs. -/
theorem outermost_doNfaContractFunction {drops : ℤ} :
    Moves Outermost (doNfaContractFunction caller k function n drops cond body nfa isInEval) := by
  intro m hp
  rw [after_doNfaContractFunction]
  generalize hx : serveNfaFunction caller k function n cond body nfa isInEval m.runZone = x
  generalize hback : (do
    enableDrops m.vm.enableDrops
    setRunZone m.runZone) = back
  have hplaces : Places none m.runZone (m.withDrops drops) (after x (m.withDrops drops)) :=
    hx ▸ places_serveNfa hbody rfl
  have hprotected : protectedCalls (after x (m.withDrops drops)) = 0 :=
    (hx ▸ protectedCalls_serveNfa (m.withDrops drops)).trans hp
  -- both ways out set back what was set
  have hdone : ∀ t, after x (m.withDrops drops) = t →
      (after back t).vm.protectedCalls = 0 ∧ Zoned (· = none) m (after back t) := by
    rintro t rfl
    subst hback
    exact ⟨hprotected, hplaces.1, fun ht hz ↦ ⟨rfl, hplaces.2 ht (.inl hz)⟩⟩
  cases hr : x.run (m.withDrops drops) with
  | ok _ t =>
    have hok : (onAssertion x back).run (m.withDrops drops) = .ok ⟨⟩ t := by
      rw [onAssertion, EStateM.run_bind, attempt_ok hr]
      rfl
    rw [after_bind_ok hok]
    exact hdone t (after_ok hr)
  | error err t =>
    obtain ⟨msg, rfl⟩ | ⟨-, -, hne⟩ := (hx ▸ breaks_serveNfa : Throws Breaks x) _ _ _ hr
    · have hfail : (onAssertion x back).run (m.withDrops drops) =
          .error (.assertion msg) (after back t) := by
        rw [onAssertion, EStateM.run_bind, attempt_error hr, ← hback]
        rfl
      rw [after_bind_error hfail]
      exact hdone t (after_error hr)
    · rw [after_error hr] at hprotected
      exact absurd hprotected hne

omit hbody in
theorem outermost_inContext {x : Run Unit} (hx : Moves Outermost x) :
    Moves Outermost (inContext x) := by
  intro m hp
  rw [after_inContext]
  obtain ⟨-, hz⟩ := hx { m with vm := {} } rfl
  exact ⟨hp, hz.1, hz.2⟩

omit hbody in
theorem outermost_noted {m m' : Machine} {e : Event} (hv : m'.vm = m.vm)
    (hz : m'.runZone = m.runZone) (hl : m'.events = e :: m.events)
    (he : ∀ outer location zone before known, e ≠ .acted outer location zone before known) :
    Outermost m m' := by
  intro hp
  have hsame : Zoned (· = none) { m with events := e :: m.events } m' := zoned_of_same hz hl
  exact ⟨hv ▸ hp, trans_of (Zoned _) (zoned_event he m) hsame⟩

theorem outermost_perform {hash : ℕ → ℕ} {e : Execution} :
    Moves Outermost (e.perform hash cond body) :=
  moves_perform
    { loose := loose_outermost
      session := fun _ ↦ moves_inSession
        (fun _ _ _ ↦ outermost_noted rfl rfl rfl fun _ _ _ _ _ h ↦ nomatch h)
        (fun _ ↦ outermost_noted rfl rfl rfl fun _ _ _ _ _ h ↦ nomatch h)
        fun _ ↦ outermost_noted rfl rfl rfl fun _ _ _ _ _ h ↦ nomatch h
      context := fun _ ↦ outermost_inContext
      function := outermost_doContractFunction hbody
      nfaFunction := outermost_doNfaContractFunction hbody }

end Outermost

section Node

-- `hasher::hash` of a seed
variable {hash : ℕ → ℕ} {m m' : Machine}

/-- What a node goes through: it executes contracts, for blocks and for what is pending, and its
chain objects change for all other reasons, as when an undo session is undone. -/
inductive Reaches (hash : ℕ → ℕ) (m : Machine) : Machine → Prop
  | start : Reaches hash m m
  | executed {m' : Machine} (cond : Conditions) (code : Code) (e : Execution) :
    Reaches hash m m' → Reaches hash m (after (e.run hash cond code) m')
  | changed {m' : Machine} (o : Objects) (c : Table ContractObject) :
    Reaches hash m m' → Reaches hash m { m' with objects := o, contracts := c }

theorem Reaches.outermost (h : Reaches hash m m') : Outermost m m' := by
  induction h with
  | start => exact refl_of Outermost m
  | executed cond code e _ ih =>
    exact trans_of Outermost ih
      (outermost_perform (fun f env ↦ zoned_exec hash code f env) _)
  | changed o c _ ih => exact trans_of Outermost ih (outermost_of_same rfl rfl rfl)

/-- While only known actions set the run zone, for the outermost NFA, and no jump passes by one
that has set it, no execution leaves a run zone behind, and NFAs act in the zone of the outermost
one: which contracts the zones allow in a later execution is up to the chain objects. -/
theorem zone_of_tidy (h : Reaches hash m m') (hm : Idle m) (hp : m.vm.protectedCalls = 0)
    (hz : m.runZone = none) (ht : Tidy m') :
    m'.runZone = none ∧ Placed m' ∧ ∀ k zone,
      allowedByZone m'.objects k (m'.runZone.or zone) = allowedByZone m'.objects k zone := by
  obtain ⟨hzone, hplaced⟩ := (h.outermost hp).2.2 ht hz
  refine ⟨hzone.trans hz, hplaced fun o l z b kn he ↦ ?_, fun k zone ↦ ?_⟩
  · rw [hm.events] at he
    cases he
  · rw [hzone, hz, Option.none_or]

/-- The second one of two NFAs is an actor somewhere, where a contract is forbidden. -/
def inZone (k : ℕ) : Machine :=
  { twoNfas 1 with
    objects :=
      { (twoNfas 1).objects with
        ledger :=
          { (twoNfas 1).objects.ledger with
            actors := (∅ : Table Ledger.Actor).insert 1 { location := some 5 } }
        permissions := (∅ : Table (Table Bool)).insert 5 ((∅ : Table Bool).insert k false) } }

/-- An NFA is asked to do an action. -/
def askToAct (nfa action : ℕ) : Code := .call (.doNfaAction nfa action 0 0) {} .done .done

instance (m : Machine) : Decidable (Tidy m) := inferInstanceAs (Decidable (∀ e ∈ m.events, e.Tidy))

theorem zone_of_tidy_action :
    let m := after ((Execution.actionNfa 2 1 0 0 0).run (fun _ ↦ 0) {} (askToAct 0 0)) (inZone 2)
    m.runZone = none ∧ Placed m ∧ ∀ k zone,
      allowedByZone m.objects k (m.runZone.or zone) = allowedByZone m.objects k zone :=
  zone_of_tidy (.executed {} (askToAct 0 0) (.actionNfa 2 1 0 0 0) .start) ⟨rfl, rfl, rfl, rfl⟩ rfl
    rfl (by decide +kernel)

/-- An action that is not known is left with the run zone set, and what the zone forbids is not
allowed to the executions after it. -/
theorem zone_left_behind :
    let m := after ((Execution.callContractFunction 2 0 (.doing 0) 0).run (fun _ ↦ 0) {}
      (askToAct 1 7)) (inZone 0)
    Idle (inZone 0) ∧ (inZone 0).runZone = none ∧ m.runZone = some 5 ∧
      allowedByZone m.objects 0 none = true ∧ allowedByZone m.objects 0 (m.runZone.or none) = false :=
  ⟨⟨rfl, rfl, rfl, rfl⟩, by decide +kernel⟩

end Node

end Taiyi.Contract
