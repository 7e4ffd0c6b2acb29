import Taiyi.Contract.Plain
import Taiyi.Contract.ZoneRuns

set_option autoImplicit false

namespace Taiyi.Contract

open Library.IdMap Library.Frame Library.Outcome

section Paths

/-- An invocation that nothing is run for, be it of the contract that is named or of the one that
names it. -/
def Event.Refused : Event → Prop
  | .invoked named ran => named = false ∧ ran = false
  | _ => True

instance : DecidablePred Event.Refused
  | .invoked named ran => inferInstanceAs (Decidable (named = false ∧ ran = false))
  | .entered .. | .used .. | .built .. | .fetched .. | .wroteContract .. | .wroteAccount ..
  | .readContract .. | .readAccount .. | .acted .. | .jumpedOut .. | .jumped | .abandoned ..
  | .startedSession | .squashed | .undone => isTrue trivial

def Refusing (m : Machine) : Prop := ∀ e ∈ m.events, e.Refused

instance (m : Machine) : Decidable (Refusing m) :=
  inferInstanceAs (Decidable (∀ e ∈ m.events, e.Refused))

/-- What is noted stays. -/
def Extends (m m' : Machine) : Prop := m.events <:+ m'.events

/-- Invocations that are refused leave the path as it is, or clear it. -/
def Paths (m m' : Machine) : Prop :=
  m.events <:+ m'.events ∧ (Refusing m' →
    m'.overrun = m.overrun ∧ (m'.invokingPath = m.invokingPath ∨ m'.invokingPath = []))

instance : IsPreorder Machine Extends where
  refl m := List.suffix_refl m.events
  trans _ _ _ h h' := List.IsSuffix.trans h h'

theorem Refusing.of_suffix {m m' : Machine} (h : m.events <:+ m'.events) (hr : Refusing m') :
    Refusing m := fun e he ↦ hr e (h.subset he)

instance : IsPreorder Machine Paths where
  refl _ := ⟨List.suffix_refl _, fun _ ↦ ⟨rfl, .inl rfl⟩⟩
  trans _ _ _ h h' := by
    refine ⟨h.1.trans h'.1, fun hr ↦ ?_⟩
    obtain ⟨ho, hp⟩ := h.2 (hr.of_suffix h'.1)
    obtain ⟨ho', hp'⟩ := h'.2 hr
    exact ⟨ho'.trans ho, hp'.elim (fun hp' ↦ hp' ▸ hp) .inr⟩

theorem plain_extends : Plain Extends where
  objects _ _ := List.suffix_refl _
  contracts _ _ := List.suffix_refl _
  runZone _ _ := List.suffix_refl _
  exePoint _ _ := List.suffix_refl _
  vm _ _ := List.suffix_refl _
  envs _ _ _ := List.suffix_refl _
  handlers _ _ _ := List.suffix_refl _
  event _ _ _ := List.suffix_cons _ _

theorem pathless_extends : Pathless Extends :=
  ⟨fun _ _ _ ↦ List.suffix_refl _, fun _ _ _ ↦ List.suffix_cons _ _⟩

theorem plain_paths : Plain Paths where
  objects _ _ := ⟨List.suffix_refl _, fun _ ↦ ⟨rfl, .inl rfl⟩⟩
  contracts _ _ := ⟨List.suffix_refl _, fun _ ↦ ⟨rfl, .inl rfl⟩⟩
  runZone _ _ := ⟨List.suffix_refl _, fun _ ↦ ⟨rfl, .inl rfl⟩⟩
  exePoint _ _ := ⟨List.suffix_refl _, fun _ ↦ ⟨rfl, .inl rfl⟩⟩
  vm _ _ := ⟨List.suffix_refl _, fun _ ↦ ⟨rfl, .inl rfl⟩⟩
  envs _ _ _ := ⟨List.suffix_refl _, fun _ ↦ ⟨rfl, .inl rfl⟩⟩
  handlers _ _ _ := ⟨List.suffix_refl _, fun _ ↦ ⟨rfl, .inl rfl⟩⟩
  event _ _ _ := ⟨List.suffix_cons _ _, fun _ ↦ ⟨rfl, .inl rfl⟩⟩

theorem extends_exec (hash : ℕ → ℕ) (code : Code) : ∀ f e, Moves Extends (exec hash f e code) :=
  plain_exec plain_extends hash (fun _ _ _ _ hbody _ _ _ ↦ moves_invoke plain_extends.loose
    pathless_extends (plain_callContractFunction plain_extends hbody)) code

end Paths

section Refused

variable {α β : Type} {x : Run α} {f : α → Run β} {m : Machine}

/-- A run that fails with an error that C++ catches, before anything is noted. -/
def Fails (x : Run α) (m : Machine) : Prop :=
  ∃ msg m', x.run m = .error (.assertion msg) m' ∧ m'.events = m.events ∧ m'.overrun = m.overrun

theorem Fails.bind (h : Fails x m) : Fails (x >>= f) m := by
  obtain ⟨msg, m', hx, he, ho⟩ := h
  exact ⟨msg, m', by rw [EStateM.run_bind, hx], he, ho⟩

theorem Fails.after_ok {a : α} {t : Machine} (h : Fails (f a) t) (hx : x.run m = .ok a t)
    (he : t.events = m.events) (ho : t.overrun = m.overrun) : Fails (x >>= f) m := by
  obtain ⟨msg, m', hf, he', ho'⟩ := h
  exact ⟨msg, m', by rw [EStateM.run_bind, hx]; exact hf, he'.trans he, ho'.trans ho⟩

theorem Fails.after_get {f : Machine → Run β} (h : Fails (f m) m) : Fails (get >>= f) m :=
  h.after_ok (a := m) (t := m) rfl rfl rfl

theorem fails_require {c : Prop} [Decidable c] {msg : String} (hc : ¬ c) :
    Fails (require c msg) m := by
  rw [require, if_neg hc]
  exact ⟨msg, m, rfl, rfl, rfl⟩

theorem fails_lookup {V : Type} {t : Table V} {id : ℕ} (h : t[id]? = none) :
    Fails (lookup t id) m := by
  rw [lookup, h]
  exact ⟨_, m, rfl, rfl, rfl⟩

theorem run_getContract {k : ℕ} {c : ContractObject} (h : m.contracts[k]? = some c) :
    (getContract k).run m = .ok c m := bind_ok.mpr ⟨m, m, rfl, run_lookup h m⟩

theorem fails_getContract {k : ℕ} (h : m.contracts[k]? = none) : Fails (getContract k) m :=
  Fails.after_get (fails_lookup h)

theorem run_getBalance {a : ℕ} {acc : Ledger.Account} (h : m.objects.ledger.accounts[a]? = some acc) :
    (onLedger (Ledger.getBalance a .qi)).run m = .ok (acc.assets.get .qi) m := by
  have hrun : (Ledger.getBalance a .qi).run m.objects.ledger =
      .ok (acc.assets.get .qi) m.objects.ledger :=
    bind_ok.mpr ⟨acc, _, Ledger.getAccount_ok.mpr ⟨h, rfl⟩, rfl⟩
  unfold onLedger onObjects ofLedger EStateM.run at *
  simp only [hrun]

theorem fails_getBalance {a : ℕ} (h : m.objects.ledger.accounts[a]? = none) :
    Fails (onLedger (Ledger.getBalance a .qi)) m := by
  refine ⟨"unknown key", m, ?_, rfl, rfl⟩
  have hrun : (Ledger.getBalance a .qi).run m.objects.ledger =
      .error "unknown key" m.objects.ledger := by
    change (Ledger.lookup m.objects.ledger.accounts a >>= fun acc ↦ pure (acc.assets.get .qi)).run _ = _
    rw [Ledger.lookup, h]
    rfl
  unfold onLedger onObjects ofLedger EStateM.run at *
  simp only [hrun]

theorem Fails.onAssertion {x cleanup : Run Unit} (h : Fails x m) (g : Machine → Machine)
    (hc : cleanup = modify g) (he : ∀ t, (g t).events = t.events)
    (ho : ∀ t, (g t).overrun = t.overrun) : ∃ msg t, (onAssertion x cleanup).run m =
      .error (.assertion msg) (g t) ∧ (g t).events = m.events ∧ (g t).overrun = m.overrun := by
  obtain ⟨msg, t, hx, hev, hov⟩ := h
  refine ⟨msg, t, ?_, (he t).trans hev, (ho t).trans hov⟩
  rw [Contract.onAssertion, EStateM.run_bind, attempt_error hx, hc]
  rfl

theorem Fails.inNewContext {x : Run Unit} (h : Fails x { m with vm := {} }) :
    Fails (inNewContext x) m := by
  obtain ⟨msg, t, hx, he, ho⟩ := h
  refine ⟨msg, { t with vm := m.vm }, ?_, he, ho⟩
  have ha : (attempt x).run { m with vm := {} } = .ok (.error (.assertion msg)) t := attempt_error hx
  change (inContext x >>= rethrow).run m = _
  have hc : (inContext x).run m = .ok (.error (.assertion msg), t.vm.drops) { t with vm := m.vm } :=
    bind_ok.mpr ⟨m, m, rfl, bind_ok.mpr ⟨⟨⟩, _, rfl, bind_ok.mpr ⟨_, t, ha, rfl⟩⟩⟩
  rw [EStateM.run_bind, hc]
  rfl

variable (outer : Option (Option ℕ)) {self : Self} (cond : Conditions)
  (body : Frame → ℕ → Run Unit) {caller k n : ℕ} {function : FunctionName} {drops : ℤ}

theorem run_requireArguments (n : ℕ) (entry : Option AbiEntry) (m : Machine) :
    (AbiEntry.takes n entry = true ∧ (requireArguments n entry).run m = .ok ⟨⟩ m) ∨
      AbiEntry.takes n entry = false ∧ Fails (requireArguments n entry) m := by
  match entry with
  | none => exact .inr ⟨rfl, _, m, rfl, rfl, rfl⟩
  | some (.action _) => exact .inr ⟨rfl, _, m, rfl, rfl, rfl⟩
  | some .other => exact .inr ⟨rfl, _, m, rfl, rfl, rfl⟩
  | some (.function isVarArg parameters) =>
    by_cases hargs : isVarArg = true ∨ n = parameters
    · by_cases hlimit : n ≤ 20
      · refine .inl ⟨by simpa [AbiEntry.takes] using ⟨hargs, hlimit⟩, ?_⟩
        simp only [requireArguments, require, if_pos hargs, if_pos hlimit]
        rfl
      · refine .inr ⟨by simp [AbiEntry.takes, hlimit], ?_⟩
        have hfail : Fails (require (n ≤ 20) "value list is greater than 20 limit") m :=
          fails_require hlimit
        refine hfail.after_ok (t := m) (a := ⟨⟩) ?_ rfl rfl
        rw [require, if_pos hargs]
        rfl
    · exact .inr ⟨by simpa [AbiEntry.takes] using fun h ↦ absurd h hargs, (fails_require hargs).bind⟩

theorem fails_doContractFunction (h : m.offers k function n = false) :
    Fails (doContractFunction outer caller k function n drops cond body) m := by
  have hserve : ∀ t : Machine, t.contracts = m.contracts →
      Fails (serveFunction outer caller k function n cond body) t := by
    intro t ht
    cases hk : m.contracts[k]? with
    | none => exact (fails_getContract (ht ▸ hk)).bind
    | some c =>
      have hoff : AbiEntry.takes n (c.abi.lookup function) = false := by
        simpa [Machine.offers, hk] using h
      rcases run_requireArguments n (c.abi.lookup function) t with ⟨htakes, -⟩ | ⟨-, hf⟩
      · rw [hoff] at htakes
        cases htakes
      · refine Fails.after_ok (a := c) (t := t) ?_ (run_getContract (ht ▸ hk)) rfl rfl
        exact hf.bind
  have hback : enableDrops m.vm.enableDrops = modify fun t ↦
      { t with vm := { t.vm with enableDrops := m.vm.enableDrops } } := rfl
  obtain ⟨msg, t, hrun, he, ho⟩ :=
    (hserve (m.withDrops drops) rfl).onAssertion _ hback (fun _ ↦ rfl) fun _ ↦ rfl
  refine ⟨msg, _, ?_, he, ho⟩
  change (onAssertion (serveFunction outer caller k function n cond body)
    (enableDrops m.vm.enableDrops) >>= fun _ ↦ enableDrops m.vm.enableDrops).run
      (m.withDrops drops) = _
  rw [EStateM.run_bind, hrun]

/-- What an invocation does before a function of the calling contract is run fails when there is
none to run. -/
theorem fails_invoking (h : (m.admits self k && m.offers self.handler.contract function n) = false)
    (t : Machine) (hc : t.contracts = m.contracts) (ho : t.objects = m.objects)
    (hp : t.invokingPath = m.invokingPath) :
    Fails (do
      startInvoking k
      require (k ≠ self.handler.contract) "You can't use it to make recursive calls"
      callContractFunction outer self.handler.caller self.handler.contract function n cond body
      addExePoint 5
      popInvoking) t := by
  cases hk : m.contracts[k]? with
  | none => exact (fails_getContract (hc ▸ hk)).bind.bind
  | some c =>
  have hget := run_getContract (m := t) (hc ▸ hk)
  by_cases hin : k ∈ m.invokingPath
  · have hreq : Fails (require (k ∉ t.invokingPath)
        "Contract cicular references are prohibitted in invoking") t :=
      fails_require fun hne ↦ hne (hp ▸ hin)
    refine Fails.bind (Fails.after_ok (a := c) (t := t) ?_ hget rfl rfl)
    exact Fails.after_get hreq.bind
  have hstart : (startInvoking k).run t = .ok ⟨⟩ { t with invokingPath := t.invokingPath ++ [k] } := by
    refine bind_ok.mpr ⟨c, t, hget, bind_ok.mpr ⟨t, t, rfl, bind_ok.mpr ⟨⟨⟩, t, ?_, rfl⟩⟩⟩
    rw [require, if_pos (hp ▸ hin)]
    rfl
  refine Fails.after_ok ?_ hstart rfl rfl
  by_cases hself : k = self.handler.contract
  · exact (fails_require (not_not.mpr hself)).bind
  refine Fails.after_ok (a := ⟨⟩) (t := { t with invokingPath := t.invokingPath ++ [k] }) ?_ ?_ rfl rfl
  swap
  · rw [require, if_pos hself]
    rfl
  refine Fails.bind ?_
  cases ha : m.objects.ledger.accounts[self.handler.caller]? with
  | none => exact (fails_getBalance (ho ▸ ha)).bind
  | some acc =>
  have hadm : m.admits self k = true := by simp [Machine.admits, hk, hin, hself, ha]
  rw [hadm, Bool.true_and] at h
  refine Fails.after_ok ?_ (run_getBalance (ho ▸ ha)) rfl rfl
  cases hs : m.contracts[self.handler.contract]? with
  | none => exact (fails_getContract (hc ▸ hs)).bind
  | some own =>
  refine Fails.after_ok (a := own) ?_ (run_getContract (hc ▸ hs)) rfl rfl
  refine Fails.after_get (Fails.after_ok (a := ⟨⟩) ?_ (rfl : (setExePoint 0).run _ = _) rfl rfl)
  refine Fails.bind (Fails.inNewContext (fails_doContractFunction outer cond body ?_))
  simpa only [Machine.offers, hc] using h

theorem run_invoke_refused
    (h : (m.admits self k && m.offers self.handler.contract function n) = false) :
    ∃ msg m', ((Construction.invoke k function n).run outer self cond body).run m =
        .error (.assertion msg) m' ∧
      m'.events = .invoked (m.admits self k && m.offers k function n) false :: m.events ∧
      m'.invokingPath = [] ∧ m'.overrun = m.overrun := by
  have hnote : (noteInvocation self k function n).run m = .ok ⟨⟩
      { m with events := .invoked (m.admits self k && m.offers k function n) false :: m.events } := by
    rw [← h]
    rfl
  have hclear : clearInvoking = modify fun t ↦ { t with invokingPath := [] } := rfl
  obtain ⟨msg, t, hrun, he, ho⟩ := (fails_invoking outer cond body h
    { m with events := .invoked (m.admits self k && m.offers k function n) false :: m.events }
    rfl rfl rfl).onAssertion _ hclear (fun _ ↦ rfl) fun _ ↦ rfl
  refine ⟨msg, _, ?_, he, rfl, ho⟩
  rw [Construction.run, EStateM.run_bind, hnote]
  exact hrun

end Refused

section Entered

variable {α β : Type} {x : Run α} {f : α → Run β} {m t : Machine} {l : List Event}

/-- For whom a function that is called for no NFA runs. -/
def calledFrame (outer : Option (Option ℕ)) (caller k : ℕ) : Frame where
  caller := caller
  nfa := none
  contract := k
  outer := outer

/-- What a run has noted first, the latest of it at the front. -/
def Notes (l : List Event) (x : Run α) (m : Machine) : Prop := l <:+ (after x m).events

theorem notes_of_extends (h : Moves Extends x) (hl : m.events = l) : Notes l x m := hl ▸ h m

theorem Notes.bind (h : Notes l x m) (hf : ∀ a, Moves Extends (f a)) : Notes l (x >>= f) m := by
  unfold Notes at *
  cases hx : x.run m with
  | ok a t =>
    rw [after_bind_ok hx]
    rw [Library.Frame.after_ok hx] at h
    exact h.trans (hf a t)
  | error err t =>
    rw [after_bind_error hx]
    rwa [after_error hx] at h

theorem Notes.after_ok {a : α} (h : Notes l (f a) t) (hx : x.run m = .ok a t) :
    Notes l (x >>= f) m := by
  unfold Notes
  rwa [after_bind_ok hx]

theorem Notes.after_get {f : Machine → Run β} (h : Notes l (f m) m) : Notes l (get >>= f) m :=
  h.after_ok (a := m) rfl

theorem Notes.after_note {e : Event} {f : Unit → Run β}
    (h : Notes l (f ⟨⟩) { m with events := e :: m.events }) : Notes l (note e >>= f) m :=
  h.after_ok (a := ⟨⟩) rfl

theorem Notes.onAssertion {x cleanup : Run Unit} (h : Notes l x m) (hc : Moves Extends cleanup) :
    Notes l (onAssertion x cleanup) m := by
  refine Notes.bind ?_ fun _ ↦ moves_cleanUp hc
  unfold Notes
  rwa [after_attempt]

theorem Notes.inNewContext {x : Run Unit} (h : Notes l x { m with vm := {} }) :
    Notes l (inNewContext x) m := by
  refine Notes.bind ?_ fun _ ↦ moves_rethrow
  unfold Notes
  rwa [after_inContext]

variable (outer : Option (Option ℕ)) {self : Self} (cond : Conditions)
  {body : Frame → ℕ → Run Unit} (caller : ℕ) {k n : ℕ} {function : FunctionName}
  (hbody : ∀ f e, Moves Extends (body f e))
include hbody

theorem notes_doContractFunction (drops : ℤ) (h : m.offers k function n = true) :
    ∃ view shown live, Notes (.entered (calledFrame outer caller k) view :: .built k shown live :: m.events)
      (doContractFunction outer caller k function n drops cond body) m := by
  obtain ⟨c, hc, htakes⟩ : ∃ c, m.contracts[k]? = some c ∧
      AbiEntry.takes n (c.abi.lookup function) = true := by
    unfold Machine.offers at h
    cases hc : m.contracts[k]? with
    | none =>
      rw [hc] at h
      cases h
    | some c => exact ⟨c, rfl, by rwa [hc] at h⟩
  have hargs : (requireArguments n (c.abi.lookup function)).run (m.withDrops drops) =
      .ok ⟨⟩ (m.withDrops drops) := by
    rcases run_requireArguments n (c.abi.lookup function) (m.withDrops drops) with h | h
    · exact h.2
    · rw [htakes] at h
      cases h.1
  refine ⟨boundView (m.withDrops drops) k,
    showsHandler (m.withDrops drops) (m.withDrops drops).vm.currentContract k,
    hasHandler (m.withDrops drops) k, ?_⟩
  refine Notes.bind (x := onAssertion
    (serveFunction outer caller k function n cond body) (enableDrops m.vm.enableDrops))
    (m := m.withDrops drops) (Notes.onAssertion ?_ (moves_enableDrops plain_extends.above))
    fun _ ↦ moves_enableDrops plain_extends.above
  refine Notes.after_ok (a := c) (t := m.withDrops drops) ?_ (run_getContract hc)
  refine Notes.after_ok ?_ hargs
  refine Notes.after_get (Notes.onAssertion ?_ (moves_restoreCurrent plain_extends.above))
  refine Notes.after_get (Notes.after_note (Notes.after_note ?_))
  exact notes_of_extends (plain_withHandler plain_extends hbody) rfl

theorem notes_callContractFunction {acc : Ledger.Account}
    (ha : m.objects.ledger.accounts[caller]? = some acc) (h : m.offers k function n = true) :
    ∃ view shown live, Notes (.entered (calledFrame outer caller k) view :: .built k shown live :: m.events)
      (callContractFunction outer caller k function n cond body) m := by
  have hx := plain_extends
  cases hc : m.contracts[k]? with
  | none =>
    unfold Machine.offers at h
    rw [hc] at h
    cases h
  | some c =>
  obtain ⟨view, shown, live, hn⟩ := notes_doContractFunction
    (m := { m with exePoint := 0, vm := {} }) outer cond caller hbody (acc.assets.get .qi) h
  refine ⟨view, shown, live, ?_⟩
  refine Notes.after_ok ?_ (run_getBalance ha)
  refine Notes.after_ok ?_ (run_getContract hc)
  refine Notes.after_get (Notes.after_ok (a := ⟨⟩) (t := { m with exePoint := 0 }) ?_ rfl)
  refine Notes.bind (Notes.inNewContext hn) fun _ ↦ ?_
  exact .bind .get fun _ ↦ .bind (moves_setExePoint hx.loose) fun _ ↦ moves_onLedger hx.loose

/-- Of an invocation that runs anything, it is noted first that the calling contract's function
is entered. -/
theorem notes_invoke (h : (m.admits self k && m.offers self.handler.contract function n) = true) :
    ∃ view shown live, Notes
      (.entered (calledFrame outer self.handler.caller self.handler.contract) view ::
        .built self.handler.contract shown live ::
        .invoked (m.admits self k && m.offers k function n) true :: m.events)
      ((Construction.invoke k function n).run outer self cond body) m := by
  have hx := plain_extends
  obtain ⟨hadm, hoff⟩ := Bool.and_eq_true_iff.mp h
  simp only [Machine.admits, Bool.and_eq_true, decide_eq_true_eq] at hadm
  obtain ⟨⟨⟨hk, hin⟩, hself⟩, hacc⟩ := hadm
  obtain ⟨c, hc⟩ := Option.isSome_iff_exists.mp hk
  obtain ⟨acc, ha⟩ := Option.isSome_iff_exists.mp hacc
  set t : Machine :=
    { m with
      events := .invoked (m.admits self k && m.offers k function n) true :: m.events } with ht
  obtain ⟨view, shown, live, hn⟩ := notes_callContractFunction
    (m := { t with invokingPath := m.invokingPath ++ [k] }) outer cond self.handler.caller hbody ha hoff
  refine ⟨view, shown, live, ?_⟩
  have hnote : (noteInvocation self k function n).run m = .ok ⟨⟩ t := by
    rw [ht, ← h]
    rfl
  refine Notes.after_ok (Notes.onAssertion ?_ (moves_clearInvoking pathless_extends)) hnote
  have hstart : (startInvoking k).run t =
      .ok ⟨⟩ { t with invokingPath := m.invokingPath ++ [k] } := by
    refine bind_ok.mpr ⟨c, t, run_getContract hc, bind_ok.mpr ⟨t, t, rfl, bind_ok.mpr
      ⟨⟨⟩, t, ?_, rfl⟩⟩⟩
    rw [require, if_pos hin]
    rfl
  refine Notes.after_ok (Notes.after_ok (a := ⟨⟩) ?_ (by rw [require, if_pos hself]; rfl)) hstart
  exact Notes.bind hn fun _ ↦
    .bind (moves_addExePoint hx.loose) fun _ ↦ moves_popInvoking pathless_extends

end Entered

section Invocations

variable {outer : Option (Option ℕ)} {self : Self} {cond : Conditions}
  {body : Frame → ℕ → Run Unit} {k n : ℕ} {function : FunctionName} {m m' : Machine}

theorem extends_invoke (hbody : ∀ f e, Moves Extends (body f e)) :
    Moves Extends ((Construction.invoke k function n).run outer self cond body) :=
  moves_invoke plain_extends.loose pathless_extends (plain_callContractFunction plain_extends hbody)

theorem paths_invoke (hbody : ∀ f e, Moves Paths (body f e)) :
    Moves Paths ((Construction.invoke k function n).run outer self cond body) := by
  have hext : ∀ f e, Moves Extends (body f e) := fun f e ↦ (hbody f e).mono fun _ _ h ↦ h.1
  refine fun m ↦ ⟨extends_invoke hext m, fun hr ↦ ?_⟩
  cases h : m.admits self k && m.offers self.handler.contract function n with
  | true =>
    obtain ⟨_, _, _, hn⟩ := notes_invoke outer cond hext h
    have hrefused := hr (.invoked (m.admits self k && m.offers k function n) true)
      (hn.subset (by simp))
    cases hrefused.2
  | false =>
    obtain ⟨msg, m', hrun, -, hp, ho⟩ := run_invoke_refused outer cond body h
    rw [after_error hrun]
    exact ⟨ho, .inr hp⟩

theorem paths_exec (hash : ℕ → ℕ) (code : Code) : ∀ f e, Moves Paths (exec hash f e code) :=
  plain_exec plain_paths hash (fun _ _ _ _ hbody _ _ _ ↦ paths_invoke hbody) code

theorem Reaches.paths {hash : ℕ → ℕ} (h : Reaches hash m m') : Paths m m' := by
  induction h with
  | start => exact refl_of Paths m
  | executed cond code e _ ih =>
    exact trans_of Paths ih (plain_perform plain_paths (fun f env ↦ paths_exec hash code f env) _)
  | changed o c _ ih =>
    exact trans_of Paths ih (trans_of Paths (plain_paths.objects _ o) (plain_paths.contracts _ c))

/-- For whom the first function was entered from one machine to another. -/
def firstEntered (m m' : Machine) : Option Frame :=
  ((m'.events.take (m'.events.length - m.events.length)).filterMap frame).getLast?
where
  frame : Event → Option Frame
    | .entered f _ => some f
    | _ => none

theorem firstEntered_of_suffix (new : List Event) (h : new ++ m.events <:+ m'.events)
    {f : Frame} (hf : (new.filterMap firstEntered.frame).getLast? = some f) :
    firstEntered m m' = some f := by
  obtain ⟨later, hl⟩ := h
  have hlen : m'.events.length - m.events.length = (later ++ new).length := by
    rw [← hl]
    simp only [List.length_append]
    omega
  unfold firstEntered
  rw [hlen, ← hl, ← List.append_assoc, List.take_left, List.filterMap_append,
    List.getLast?_append, hf]
  rfl

/-- What an invocation is for: a function of the contract that is named runs for the caller of the
contract that names it, unless there is none or the contract may not be invoked, as when it is on
the path; then it throws. The path is left as it was, or empty after a throw. -/
structure Invokes (outer : Option (Option ℕ)) (own : Self) (k : ℕ) (function : FunctionName)
    (n : ℕ) (x : Run Unit) (m : Machine) : Prop where
  callee : firstEntered m (after x m) =
    if (m.admits own k && m.offers k function n) = true then
      some (calledFrame outer own.handler.caller k)
    else none
  reentrant : k ∈ m.invokingPath → ∃ msg m', x.run m = .error (.assertion msg) m'
  path : ∀ m', x.run m = .ok ⟨⟩ m' →
    m'.invokingPath = m.invokingPath ∧ m'.overrun = m.overrun
  cleared : ∀ err m', x.run m = .error err m' → m'.invokingPath = [] ∧ m'.overrun = m.overrun

/-- Nothing is run for an invocation, neither of the contract that is named nor of the one that
names it. -/
def NothingToRun (self : Self) (k : ℕ) (function : FunctionName) (n : ℕ) (m : Machine) : Prop :=
  m.admits self k = true →
    m.offers k function n = false ∧ m.offers self.handler.contract function n = false

theorem invokes_iff (hbody : ∀ f e, Moves Extends (body f e)) :
    Invokes outer self k function n ((Construction.invoke k function n).run outer self cond body) m ↔
      NothingToRun self k function n m := by
  cases h : m.admits self k && m.offers self.handler.contract function n with
  | true =>
    obtain ⟨view, shown, live, hn⟩ := notes_invoke outer cond hbody h
    obtain ⟨hadm, hoff⟩ := Bool.and_eq_true_iff.mp h
    have hfirst := firstEntered_of_suffix (m := m)
      [.entered (calledFrame outer self.handler.caller self.handler.contract) view,
        .built self.handler.contract shown live,
        .invoked (m.admits self k && m.offers k function n) true] hn rfl
    refine ⟨fun hi ↦ ?_, fun hnone ↦ ?_⟩
    · have hcallee := hfirst.symm.trans hi.callee
      split at hcallee
      · have hself : k ≠ self.handler.contract := by
          simp only [Machine.admits, Bool.and_eq_true, decide_eq_true_eq] at hadm
          exact hadm.1.2
        cases congrArg Frame.contract (Option.some.inj hcallee)
        exact absurd rfl hself
      · cases hcallee
    · rw [(hnone hadm).2] at hoff
      cases hoff
  | false =>
    obtain ⟨msg, m', hrun, he, hp, ho⟩ := run_invoke_refused outer cond body h
    have hafter : firstEntered m (after ((Construction.invoke k function n).run outer self cond
        body) m) = none := by
      have htake : m'.events.take (m'.events.length - m.events.length) =
          [.invoked (m.admits self k && m.offers k function n) false] := by
        rw [he, List.length_cons, Nat.add_sub_cancel_left]
        rfl
      rw [after_error hrun, firstEntered, htake]
      rfl
    refine ⟨fun hi hadm ↦ ?_, fun hnone ↦ ⟨?_, fun _ ↦ ⟨msg, m', hrun⟩, fun _ hr ↦ ?_,
      fun _ _ hr ↦ ?_⟩⟩
    · have hoff : m.offers self.handler.contract function n = false := by
        rwa [hadm, Bool.true_and] at h
      refine ⟨?_, hoff⟩
      by_contra hne
      have hcallee := hafter.symm.trans hi.callee
      rw [if_pos (by rw [hadm, Bool.true_and]; exact Bool.eq_true_of_not_eq_false hne)] at hcallee
      cases hcallee
    · rw [hafter, if_neg]
      rw [Bool.and_eq_true]
      rintro ⟨hadm, hoff⟩
      rw [(hnone hadm).1] at hoff
      cases hoff
    · rw [hrun] at hr
      cases hr
    · rw [hrun] at hr
      cases hr
      exact ⟨hp, ho⟩

/-- The condition is what is noted of the invocation. -/
theorem nothingToRun_iff : NothingToRun self k function n m ↔
    (Event.invoked (m.admits self k && m.offers k function n)
      (m.admits self k && m.offers self.handler.contract function n)).Refused := by
  unfold NothingToRun Event.Refused
  cases m.admits self k <;> simp

/-- A contract that is not there is invoked, and the error is caught. -/
def invokeUnknown : Code :=
  .tick 5 (.protect (.construct (.invoke 9 (.doing 0) 0) {} .done .done) fun _ ↦ .done)

/-- The contract `0` as the one that runs, on behalf of the account `2`. -/
def acting : Self where
  env := { contractHelper := 0, baseInfo := ⟨0, 2, 0⟩, nfaHelper := none }
  handler :=
    { caller := 2, nfaCaller := none, contract := 0, isInEval := false, contractData := ∅,
      accountData := ∅ }

end Invocations

end Taiyi.Contract
