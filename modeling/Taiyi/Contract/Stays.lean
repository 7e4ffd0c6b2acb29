import Taiyi.Contract.Steady

set_option autoImplicit false

namespace Taiyi.Contract

open Library.IdMap Library.Frame Library.Outcome

/-- A run that does not exhaust the budget also ends with the contract that ran before. -/
structure Stay (m m' : Machine) : Prop where
  steady : Steady none m m'
  current : Spent m' ∨ m.vm.currentContract = none ∨
    m'.vm.currentContract = m.vm.currentContract

def Stays (m m' : Machine) : Prop := Wf m → metered m → Stay m m'

theorem Stay.trans {m m' m'' : Machine} (h : Stay m m') (h' : Stay m' m'') : Stay m m'' := by
  refine ⟨h.steady.trans h'.steady, ?_⟩
  rcases h.current with hs | hn | hc
  · exact .inl (h'.steady.spent hs)
  · exact .inr (.inl hn)
  · rcases h'.current with hs | hn | hc'
    · exact .inl hs
    · exact .inr (.inl (hc ▸ hn))
    · exact .inr (.inr (hc'.trans hc))

instance : IsPreorder Machine Stays where
  refl m hw hm := ⟨⟨hw, hm, .refl m, id, .inr (.refl m)⟩, .inr (.inr rfl)⟩
  trans _ _ _ h h' hw hm :=
    have hs := h hw hm
    hs.trans (h' hs.steady.wf hs.steady.metered)

theorem stays_of_steadily {m m' : Machine} (h : Steadily none m m')
    (hc : m'.vm.currentContract = m.vm.currentContract) : Stays m m' :=
  fun hw hm ↦ ⟨h hw hm fun _ ha ↦ (nomatch ha), .inr (.inr hc)⟩

theorem Stays.steadily {m m' : Machine} (h : Stays m m') {ch : Option ℕ} : Steadily ch m m' :=
  fun hw hm _ ↦ (h hw hm).steady.weaken

section Pieces

theorem loose_stays : Loose Stays where
  objects m o := stays_of_steadily (loose_steadily.objects m o) rfl
  exePoint m p := stays_of_steadily (loose_steadily.exePoint m p) rfl

theorem stays_runZone (m : Machine) (z : Option ℕ) : Stays m { m with runZone := z } :=
  stays_of_steadily (steadily_runZone m z) rfl

theorem stays_contracts (m : Machine) (c : Table ContractObject) :
    Stays m { m with contracts := c } :=
  stays_of_steadily (steadily_contracts m c) rfl

theorem stays_events (m : Machine) (e : Event) : Stays m { m with events := e :: m.events } :=
  stays_of_steadily (steadily_events m e) rfl

theorem stays_of_moves {x : Run Unit} (hs : Moves (Steadily none) x)
    (hc : Moves (Same fun m ↦ m.vm.currentContract) x) : Moves Stays x :=
  fun m ↦ stays_of_steadily (hs m) (hc m)

theorem same_current_vm {f : Vm → Vm} (h : ∀ vm, (f vm).currentContract = vm.currentContract) :
    Moves (Same fun m ↦ m.vm.currentContract) (modifyVm f) := .update fun m ↦ h m.vm

/-- What code that is run next would find. -/
def bindings (m : Machine) : Option ℕ × Table ℕ × Table Env × Table Handler :=
  (m.vm.currentContract, m.vm.sandboxes, m.envs, m.handlers)

theorem same_bindings_memoryError : Moves (Same bindings) memoryError :=
  .bind .get fun _ ↦ .ite (fun _ ↦ .throw _) fun _ ↦ .bind (.update fun _ ↦ rfl) fun _ ↦ .throw _

theorem same_bindings_allocate {cost : ℕ} : Moves (Same bindings) (allocate cost) :=
  .bind (.update fun _ ↦ rfl) fun _ ↦ .bind .get fun _ ↦
    .ite (fun _ ↦ same_bindings_memoryError) fun _ ↦ .pure _

theorem same_current_allocate {cost : ℕ} :
    Moves (Same fun m ↦ m.vm.currentContract) (allocate cost) :=
  fun m ↦ congrArg Prod.fst (same_bindings_allocate m)

theorem stays_spend {cost : ℕ} : Moves Stays (spend cost) :=
  stays_of_moves steady_spend (same_current_vm fun _ ↦ rfl)

theorem stays_allocate {cost : ℕ} : Moves Stays (allocate cost) :=
  stays_of_moves steady_allocate same_current_allocate

theorem stays_setup {setup : Setup} : Moves Stays setup.run :=
  .bind stays_allocate fun _ ↦ moves_require

theorem stays_clearGlobal {k : ℕ} : Moves Stays (clearGlobal k) :=
  stays_of_moves steady_clearGlobal (same_current_vm fun _ ↦ rfl)

theorem stays_luaPcall {x : Run Unit} (hx : Moves Stays x) : Moves Stays (luaPcall x) :=
  .bind .get fun _ ↦
    .bind (.update fun _ ↦ stays_of_steadily (steadily_vm rfl (fun _ ↦ le_rfl) fun _ _ ↦ id) rfl)
    fun _ ↦ .bind hx.attempt fun _ ↦
      .bind (.update fun _ ↦
        stays_of_steadily (steadily_vm rfl (fun _ ↦ le_rfl) fun _ _ ↦ id) rfl) fun _ ↦ .pure _

end Pieces

section Call

variable {current : Option ℕ} {c : Call} {frame : Frame} {cond : Conditions}
  {body : Frame → ℕ → Run Unit}

theorem steady_callInSandbox (hbody : ∀ e, Moves Stays (body frame e)) (ch : ℕ) :
    Moves (Steadily (some ch)) (callInSandbox current c frame cond body ch) :=
  .bind (steady_enterSandbox rfl rfl) fun _ ↦ .bind moves_require fun _ ↦
    .bind steady_allocate fun _ ↦
    .bind (steady_luaPcall ((moves_runFunction hbody).mono fun _ _ h ↦ h.steadily)) fun _ ↦
    .bind steady_leaveSandbox fun _ ↦ .bind moves_raise fun _ ↦ moves_require

theorem breaks_callInSandbox (ch : ℕ) :
    Throws Breaks (callInSandbox current c frame cond body ch) :=
  .bind breaks_enterSandbox fun _ ↦ .bind breaks_require fun _ ↦ .bind breaks_allocate fun _ ↦
    .bind breaks_luaPcall fun _ ↦ .bind breaks_leaveSandbox fun _ ↦ .bind breaks_raise fun _ ↦
    breaks_require

theorem steady_callFunction (hbody : ∀ e, Moves Stays (body frame e)) :
    Moves (Steadily none) (callFunction current c frame cond body) :=
  .bind .get fun _ ↦ .bind (moves_note steadily_events) fun _ ↦
    .bind (moves_note steadily_events) fun _ ↦
    steady_withHandler (steady_callInSandbox hbody) breaks_callInSandbox

/-- In the contract that runs already, nothing is entered and nothing is left. -/
theorem stays_callInSandbox (hbody : ∀ e, Moves Stays (body frame e)) (ch : ℕ) :
    Moves Stays (callInSandbox (some c.contract) c frame cond body ch) := by
  have henter : Moves Stays (enterSandbox (some c.contract) c.contract (c.env ch) cond.setup) := by
    rw [enterSandbox, if_pos rfl]
    exact .pure _
  refine .bind henter fun _ ↦ .bind moves_require fun _ ↦ .bind stays_allocate fun _ ↦
    .bind (stays_luaPcall (moves_runFunction hbody)) fun _ ↦ .bind ?_ fun _ ↦
    .bind moves_raise fun _ ↦ moves_require
  rw [leaveSandbox, if_pos rfl]
  exact .pure _

theorem leaveSandbox_ok {k : ℕ} {close : Bool} {m m' : Machine} (hk : current ≠ some k)
    (h : (leaveSandbox current k close).run m = .ok ⟨⟩ m') :
    m'.vm.currentContract = current := by
  rw [leaveSandbox, if_neg hk] at h
  obtain ⟨_, t, -, hs⟩ := bind_ok.mp h
  cases hs
  rfl

theorem reads_raise {err : Option String} : Moves (Same id) (raise err) := moves_raise

theorem callInSandbox_ok {ch : ℕ} {m m' : Machine} (hk : current ≠ some c.contract)
    (h : (callInSandbox current c frame cond body ch).run m = .ok ⟨⟩ m') :
    m'.vm.currentContract = current := by
  obtain ⟨_, t₁, -, h₁⟩ := bind_ok.mp h
  obtain ⟨_, t₂, -, h₂⟩ := bind_ok.mp h₁
  obtain ⟨_, t₃, -, h₃⟩ := bind_ok.mp h₂
  obtain ⟨err, t₄, -, h₄⟩ := bind_ok.mp h₃
  obtain ⟨_, t₅, hl, h₅⟩ := bind_ok.mp h₄
  obtain ⟨_, t₆, hr, h₆⟩ := bind_ok.mp h₅
  have he₅ : t₆ = t₅ := (after_ok hr).symm.trans (reads_raise t₅)
  have he₆ : m' = t₆ :=
    (after_ok h₆).symm.trans ((moves_require : Moves (Same id) (require _ _)) t₆)
  rw [he₆, he₅]
  exact leaveSandbox_ok hk hl

theorem withHandler_ok {a k : ℕ} {n : Option ℕ} {eval : Bool} {x : ℕ → Run Unit} {m m' : Machine}
    (h : (withHandler a n k eval x).run m = .ok ⟨⟩ m') :
    ∃ id t u, (newHandler a n k eval none).run m = .ok id t ∧ (x id).run t = .ok ⟨⟩ u ∧
      m' = after (deleteHandler id) u := by
  obtain ⟨id, t, hn, h₁⟩ := bind_ok.mp h
  cases hx : (x id).run t with
  | ok _ u =>
    rw [EStateM.run_bind, attempt_ok hx] at h₁
    exact ⟨id, t, u, hn, hx, (after_ok h₁).symm⟩
  | error err u =>
    rw [EStateM.run_bind, attempt_error hx] at h₁
    match err with
    | .assertion _ => cases h₁
    | .truncated => cases h₁
    | .jump => cases h₁

theorem breaks_newHandler {a k : ℕ} {n p : Option ℕ} {eval : Bool} :
    Throws Breaks (newHandler a n k eval p) :=
  .bind (.bind (.bind .get fun _ ↦ breaks_lookup) fun _ ↦ .update) fun _ ↦
    .bind (.bind .get fun _ ↦ breaks_lookup) fun _ ↦ .bind breaks_lookup fun _ ↦
    .bind .get fun _ ↦ .bind .update fun _ ↦ .pure _

theorem breaks_withHandler {a k : ℕ} {n : Option ℕ} {eval : Bool} {x : ℕ → Run Unit}
    (hx : ∀ id, Throws Breaks (x id)) : Throws Breaks (withHandler a n k eval x) := by
  refine .bind breaks_newHandler fun id m ↦ ?_
  cases hr : (x id).run m with
  | ok _ t =>
    intro err u h
    rw [EStateM.run_bind, attempt_ok hr] at h
    cases h
  | error e t =>
    intro err u h
    rw [EStateM.run_bind, attempt_error hr] at h
    have hb := hx id m e t hr
    match e with
    | .assertion msg =>
      cases h
      exact .inl ⟨msg, rfl⟩
    | .truncated =>
      obtain ⟨_, he⟩ | ⟨he, -⟩ := hb
      · cases he
      · cases he
    | .jump =>
      cases h
      exact hb

theorem breaks_callFunction : Throws Breaks (callFunction current c frame cond body) :=
  .bind .get fun _ ↦ .bind .update fun _ ↦ .bind .update fun _ ↦
    breaks_withHandler breaks_callInSandbox

theorem callFunction_ok (hbody : ∀ e, Moves Stays (body frame e)) {m m' : Machine}
    (hc : current = m.vm.currentContract) (hw : Wf m) (hm : metered m)
    (h : (callFunction current c frame cond body).run m = .ok ⟨⟩ m') :
    Spent m' ∨ m.vm.currentContract = none ∨ m'.vm.currentContract = m.vm.currentContract := by
  obtain ⟨_, t₁, hg, h₁⟩ := bind_ok.mp h
  cases hg
  obtain ⟨_, t₂, hb, h₂⟩ := bind_ok.mp h₁
  obtain ⟨_, t₃, he, h₃⟩ := bind_ok.mp h₂
  have hs₂ : Stay m t₂ := after_ok hb ▸ moves_note stays_events m hw hm
  have hs₃ : Stay m t₃ :=
    hs₂.trans (after_ok he ▸ moves_note stays_events t₂ hs₂.steady.wf hs₂.steady.metered)
  have hv₃ : t₃.vm = m.vm := by
    cases hb
    cases he
    rfl
  obtain ⟨id, t, u, hn, hx, rfl⟩ := withHandler_ok h₃
  have ht : Steady none t₃ t := after_ok hn ▸
    steady_newHandler (fun _ h ↦ nomatch h) hs₃.steady.wf hs₃.steady.metered fun _ h ↦ nomatch h
  obtain ⟨_, _, -, -, -, rfl⟩ := newHandler_ok hn
  unfold Spent
  rw [(deletes id u).vm]
  by_cases hk : current = some c.contract
  · subst hk
    have hu := after_ok hx ▸ stays_callInSandbox hbody id _ ht.wf ht.metered
    have hcur := hu.current
    dsimp only at hcur
    rw [hv₃] at hcur
    exact hcur
  · exact .inr (.inr ((callInSandbox_ok hk hx).trans hc))

theorem after_onAssertion (x cleanup : Run Unit) (m : Machine) :
    (∃ t, x.run m = .ok ⟨⟩ t ∧ after (onAssertion x cleanup) m = t) ∨
      (∃ msg t, x.run m = .error (.assertion msg) t ∧
        after (onAssertion x cleanup) m = after cleanup t) ∨
      ∃ err t, x.run m = .error err t ∧ (∀ msg, err ≠ .assertion msg) ∧
        after (onAssertion x cleanup) m = t := by
  unfold onAssertion
  cases h : x.run m with
  | ok _ t =>
    rw [after_bind_ok (attempt_ok h)]
    exact .inl ⟨t, rfl, rfl⟩
  | error err t =>
    rw [after_bind_ok (attempt_error h)]
    match err with
    | .assertion msg =>
      refine .inr (.inl ⟨msg, t, rfl, ?_⟩)
      unfold cleanUp
      cases hc : cleanup.run t with
      | ok _ u =>
        rw [after_bind_ok hc, after_ok hc]
        rfl
      | error _ u => rw [after_bind_error hc, after_error hc]
    | .jump => exact .inr (.inr ⟨.jump, t, rfl, fun _ h ↦ (nomatch h), rfl⟩)
    | .truncated => exact .inr (.inr ⟨.truncated, t, rfl, fun _ h ↦ (nomatch h), rfl⟩)

/-- A call out of the contract that runs leads back to it. -/
theorem stays_call (hbody : ∀ e, Moves Stays (body frame e)) {m : Machine}
    (hc : current = m.vm.currentContract) :
    Stays m (after (onAssertion (callFunction current c frame cond body) (restoreCurrent current))
      m) := by
  intro hw hm
  have hs : Steady none m (after (callFunction current c frame cond body) m) :=
    steady_callFunction hbody m hw hm fun _ h ↦ nomatch h
  rcases after_onAssertion (callFunction current c frame cond body) (restoreCurrent current) m with
    ⟨t, hr, he⟩ | ⟨msg, t, hr, he⟩ | ⟨err, t, hr, hne, he⟩ <;> rw [he] <;> clear he
  · rw [after_ok hr] at hs
    exact ⟨hs, callFunction_ok hbody hc hw hm hr⟩
  · rw [after_error hr] at hs
    have hres : Steady none t (after (restoreCurrent current) t) := by
      cases current with
      | none => exact refl_of (Steadily none) t hs.wf hs.metered fun _ h ↦ nomatch h
      | some k => exact steady_setCurrent t hs.wf hs.metered fun _ h ↦ nomatch h
    refine ⟨hs.trans hres, .inr ?_⟩
    rw [← hc]
    cases current with
    | none => exact .inl rfl
    | some k => exact .inr rfl
  · rw [after_error hr] at hs
    obtain ⟨msg, hmsg⟩ | ⟨-, hsp, -⟩ := breaks_callFunction m err t hr
    · exact absurd hmsg (hne msg)
    · exact ⟨hs, .inl hsp⟩

end Call

section Import

variable {m : Machine}

theorem Imported.congr {m' : Machine} {e e' i i' : Env} {k : ℕ} (h : Imported m e k i)
    (hh : m'.handlers = m.handlers) (he : e'.helpers = e.helpers) (hi : i'.helpers = i.helpers) :
    Imported m' e' k i' := by
  simp only [Env.helpers, Env.mk.injEq, and_true] at he hi
  obtain ⟨hec, heb, hen⟩ := he
  obtain ⟨hic, hib, hin⟩ := hi
  refine ⟨hin.trans (h.nfaHelper.trans hen.symm), ?_, ?_, fun w hw ↦ ?_⟩
  · rw [hib, heb, h.caller]
  · rw [hib, h.contract]
  · rw [hh, hec] at hw
    rw [hh, hic, hec, heb]
    exact h.handler w hw

/-- A table is entered among the imports of another. -/
theorem stays_imported {id j k : ℕ} {e i : Env} (he : m.envs[id]? = some e)
    (hj : m.envs[j]? = some i) (hi : Imported m e k i) :
    Stays m { m with envs := m.envs.insert id { e with imported := e.imported.insert k j } } := by
  have hold : ∀ a : ℕ, ∀ g : Env, m.envs[a]? = some g → ∃ g' : Env,
      (m.envs.insert id { e with imported := e.imported.insert k j })[a]? = some g' ∧
        g'.helpers = g.helpers := fun a g hg ↦ by
    by_cases ha : id = a
    · subst ha
      obtain rfl := Option.some.inj (he.symm.trans hg)
      exact ⟨{ e with imported := e.imported.insert k j }, by rw [getElem?_insert, if_pos rfl],
        rfl⟩
    · exact ⟨g, by rw [getElem?_insert, if_neg ha, hg], rfl⟩
  intro hw hm
  refine ⟨⟨⟨fun a g hg ↦ ?_, hw.handler, fun k' a ha ↦ ?_, fun a k' j' g hg hj' ↦ ?_⟩, hm,
    ⟨le_rfl, fun a _ ↦ ?_, fun _ _ ↦ rfl, fun _ h ↦ h⟩, fun h ↦ h, .inr fun _ _ h ↦ .inl h⟩,
    .inr (.inr rfl)⟩
  · rw [getElem?_insert] at hg
    split at hg
    · next ha =>
      cases hg
      exact ha ▸ hw.env id e he
    · exact hw.env a g hg
  · obtain ⟨g, hg⟩ := hw.sandbox k' a ha
    obtain ⟨g', hg', -⟩ := hold a g hg
    exact ⟨g', hg'⟩
  · rw [getElem?_insert] at hg
    split at hg
    · cases hg
      rw [getElem?_insert] at hj'
      split at hj'
      · next hk =>
        cases hj'
        subst hk
        obtain ⟨i', hi', hh⟩ := hold j i hj
        exact ⟨i', hi', hi.congr rfl rfl hh⟩
      · obtain ⟨i₀, hi₀, hii⟩ := hw.imported id k' j' e he hj'
        obtain ⟨i', hi', hh⟩ := hold j' i₀ hi₀
        exact ⟨i', hi', hii.congr rfl rfl hh⟩
    · obtain ⟨i₀, hi₀, hii⟩ := hw.imported a k' j' g hg hj'
      obtain ⟨i', hi', hh⟩ := hold j' i₀ hi₀
      exact ⟨i', hi', hii.congr rfl rfl hh⟩
  · cases hg : m.envs[a]? with
    | none =>
      have ha : id ≠ a := by
        rintro rfl
        cases he.symm.trans hg
      rw [getElem?_insert, if_neg ha, hg]
    | some g =>
      obtain ⟨g', hg', hh⟩ := hold a g hg
      rw [hg', Option.map_some, hh, Option.map_some]

theorem same_bindings_setup {setup : Setup} : Moves (Same bindings) setup.run :=
  .bind same_bindings_allocate fun _ ↦ moves_require

/-- The new table with its handler, from where the handler is made. -/
theorem stays_newImport {current : Current} {envId k : ℕ} (he : m.envs[envId]? = some current.env) :
    Stays m (after (newImport current envId k) m) := by
  intro hw
  have hlt := (hw.env envId _ he).2
  have hnew : Stays m (after (newHandler current.env.baseInfo.caller current.handler.nfaCaller k
      current.handler.isInEval (some current.env.contractHelper)) m) :=
    stays_of_steadily (steady_newHandler fun q hq ↦ Option.some.inj hq ▸ hlt)
      (moves_newHandler (R := Same fun m ↦ m.vm.currentContract) (fun _ _ ↦ rfl)
        (fun _ _ _ ↦ rfl) m)
  refine Moves.bind_at (R := Stays) hnew (fun ch t ht ↦ ?_) hw
  obtain ⟨c, d, -, -, rfl, rfl⟩ := newHandler_ok ht
  refine Moves.bind_at (stays_of_steadily (steadily_env _ (Nat.lt_succ_self _) rfl) rfl)
    fun id u hu ↦ ?_
  cases hu
  have hfresh : m.fresh + 1 ≠ envId := by
    have := (hw.env envId _ he).1
    omega
  refine Moves.bind_at ?_ fun _ u _ ↦ stays_clearGlobal u
  rw [after_modifyEnv (e := current.env) (by
    rw [getElem?_insert, if_neg hfresh]
    exact he)]
  refine stays_imported (j := m.fresh + 1) ?_ (by rw [getElem?_insert, if_pos rfl]) ?_
  · rw [getElem?_insert, if_neg hfresh]
    exact he
  · refine ⟨rfl, rfl, rfl, fun _ _ ↦ ?_⟩
    rw [getElem?_insert, if_pos rfl]
    rfl

theorem stays_makeImport {current : Current} {envId k : ℕ} {setup : Setup}
    (he : m.envs[envId]? = some current.env) :
    Stays m (after (makeImport current envId k setup) m) := by
  refine Moves.bind_at (moves_addExePoint loose_stays m) fun _ t ht ↦ ?_
  cases ht
  refine Moves.bind_at (stays_setup _) fun _ t ht ↦ ?_
  have hb : bindings t = bindings m := after_ok ht ▸ same_bindings_setup _
  refine Moves.bind_at (Moves.get t) fun _ _ hg ↦ ?_
  cases hg
  refine Moves.bind_at (moves_note stays_events t) fun _ u hu ↦ ?_
  cases hu
  refine stays_newImport ?_
  have henvs : t.envs = m.envs := congrArg (fun b ↦ b.2.2.1) hb
  exact henvs ▸ he

theorem readCurrent_ok {m' : Machine} {c : Current} (h : readCurrent.run m = .ok c m') :
    m' = m ∧ m.vm.currentContract = some c.name ∧
      ∃ id, m.vm.sandboxes[c.name]? = some id ∧ m.envs[id]? = some c.env ∧
        m.handlers[c.env.contractHelper]? = some c.handler := by
  obtain ⟨_, _, hg, h₁⟩ := bind_ok.mp h
  cases hg
  split at h₁
  · cases h₁
  · next k hk =>
    obtain ⟨id, t, hl, h₂⟩ := bind_ok.mp h₁
    obtain ⟨hid, rfl⟩ := lookup_ok hl
    obtain ⟨g, t, hl, h₃⟩ := bind_ok.mp h₂
    obtain ⟨hg, rfl⟩ := lookup_ok hl
    obtain ⟨ch, t, hl, h₄⟩ := bind_ok.mp h₃
    obtain ⟨hch, rfl⟩ := lookup_ok hl
    cases h₄
    exact ⟨rfl, hk, id, hid, hg, hch⟩

theorem stays_importContract {k : ℕ} {setup : Setup} : Moves Stays (importContract k setup) := by
  intro m
  refine Moves.bind_at (moves_readCurrent m) fun current t ht ↦ ?_
  obtain ⟨rfl, -, id, hid, hg, -⟩ := readCurrent_ok ht
  split
  · refine Moves.bind_at (moves_getContract t) fun _ u hu ↦ ?_
    obtain ⟨-, rfl⟩ := getContract_ok hu
    refine Moves.bind_at (Moves.get u) fun _ _ h ↦ ?_
    cases h
    refine Moves.bind_at (moves_lookup u) fun envId s hs ↦ ?_
    obtain ⟨henv, rfl⟩ := lookup_ok hs
    cases hid.symm.trans henv
    refine Moves.bind_at ?_ fun _ s _ ↦ moves_cleanUp stays_clearGlobal s
    rw [after_attempt]
    exact stays_makeImport hg
  · exact Moves.pure _ t

end Import

end Taiyi.Contract
