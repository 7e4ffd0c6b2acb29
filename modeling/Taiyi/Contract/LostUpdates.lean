import Taiyi.Contract.DataRuns
import Taiyi.Contract.RightHelpers

set_option autoImplicit false

namespace Taiyi.Contract

open Library.IdMap Library.Frame Library.Outcome Library.History

variable {init : Cell → Data} {m m' : Machine}

section Import

theorem shown_modifyEnv {id : ℕ} {e e' : Env} {vm : Vm} (he : m.envs[id]? = some e)
    (hc : e'.contractHelper = e.contractHelper) (a : ℕ) :
    Shown { m with envs := m.envs.insert id e', vm := vm } a ↔ Shown m a := by
  constructor
  · rintro ⟨b, t, ht, hb⟩
    rw [getElem?_insert] at ht
    split at ht
    · cases ht
      exact ⟨id, e, he, hc.symm.trans hb⟩
    · exact ⟨b, t, ht, hb⟩
  · rintro ⟨b, t, ht, hb⟩
    by_cases hid : id = b
    · subst hid
      rw [he] at ht
      cases ht
      exact ⟨id, e', by rw [getElem?_insert, if_pos rfl], hc.trans hb⟩
    · exact ⟨b, t, by rw [getElem?_insert, if_neg hid, ht], hb⟩

/-- The handler of an import, with its table among the imports of another. -/
theorem ordered_import (hw : Wf m) (hm : metered m) (ho : Ordered init m) {g p : Handler} {c : ContractObject}
    {a id : ℕ} {e e' i : Env} {vm : Vm} (hc : m.contracts[g.contract]? = some c)
    (hg : ∀ cell d, g.copy cell = some d → d = stored m.contracts cell)
    (hfree : ∀ id : ℕ, ∀ g' : Handler, m.handlers[id]? = some g' → g'.contract ≠ g.contract)
    (hk : g.keptBy = some a) (ha : m.handlers[a]? = some p) (hp : p.keptBy = none)
    (hi : i.contractHelper = m.fresh) (he : m.envs[id]? = some e)
    (hee : e'.contractHelper = e.contractHelper)
    (hs : ∀ k j : ℕ, vm.sandboxes[k]? = some j → m.vm.sandboxes[k]? = some j) :
    Ordered init
      { m with
        handlers := m.handlers.insert m.fresh g
        envs := (m.envs.insert (m.fresh + 1) i).insert id e'
        fresh := m.fresh + 1 + 1
        vm := vm } := by
  set n : Machine := { m with handlers := m.handlers.insert m.fresh g, fresh := m.fresh + 1 }
  have hlt : ∀ b : ℕ, ∀ t : Env, m.envs[b]? = some t → b ≠ m.fresh + 1 := fun b t ht ↦ by
    have := (hw.env b t ht).1
    omega
  have hlta := (hw.handler a p ha).1
  have hwn : Wf n :=
    (steadily_handler g (fun q hq ↦ by
      rw [hk] at hq
      exact Option.some.inj hq ▸ hlta) hw hm fun _ (h : _ ∈ none) ↦ nomatch h).wf
  have halone : Alone n i.contractHelper := fun id' g₁ g₂ h₁ h₂ hkk ↦ by
    rw [hi, getElem?_insert, if_pos rfl] at h₁
    cases h₁
    rw [getElem?_insert] at h₂
    split at h₂
    · next hid => rw [hi, hid]
    · exact absurd hkk (hfree id' g₂ h₂)
  have hnew : Coherent init
      { n with envs := n.envs.insert n.fresh i, fresh := n.fresh + 1, vm := n.vm } :=
    (ho.coherent.newHandler hw hc hg).newEnv hwn halone (hi ▸ hw.not_shown)
  have hget : (m.envs.insert (m.fresh + 1) i)[id]? = some e := by
    rw [getElem?_insert, if_neg (Ne.symm (hlt id e he)), he]
  have hshown : ∀ b, Shown
      { m with
        handlers := m.handlers.insert m.fresh g
        envs := (m.envs.insert (m.fresh + 1) i).insert id e'
        fresh := m.fresh + 1 + 1
        vm := vm } b ↔
      Shown { n with envs := n.envs.insert n.fresh i, fresh := n.fresh + 1, vm := n.vm } b :=
    shown_modifyEnv (m := { n with envs := n.envs.insert n.fresh i, fresh := n.fresh + 1 }) hget hee
  have hold : ∀ b, Shown m b →
      Shown { n with envs := n.envs.insert n.fresh i, fresh := n.fresh + 1, vm := n.vm } b := by
    rintro b ⟨j, t, ht, hb⟩
    exact ⟨j, t, by rw [getElem?_insert, if_neg (Ne.symm (hlt j t ht)), ht], hb⟩
  have hpar : ∀ b : ℕ, ∀ t : Handler, m.handlers[b]? = some t →
      (m.handlers.insert m.fresh g)[b]? = some t := fun b t ht ↦ by
    rw [getElem?_insert, if_neg (Nat.ne_of_gt (hw.handler b t ht).1), ht]
  refine ⟨hnew.congr (fun k c hk ↦ ⟨c, hk⟩) rfl rfl hshown rfl hnew.consistent, fun b q t ht hq ↦ ?_,
    fun k b t t' hb ht ht' ↦ ?_⟩
  · rw [hshown]
    rw [getElem?_insert] at ht
    split at ht
    · next hb =>
      cases ht
      rw [hk] at hq
      cases hq
      refine ⟨⟨m.fresh + 1, i, by rw [getElem?_insert, if_pos rfl], hi.trans hb⟩, p, hpar a p ha, hp⟩
    · obtain ⟨hs', t', ht', hnone⟩ := ho.nested.kept b q t ht hq
      exact ⟨hold b hs', t', hpar q t' ht', hnone⟩
  · obtain ⟨t₀, ht₀⟩ := hw.sandbox k b (hs k b hb)
    have hin : t.contractHelper = t₀.contractHelper := by
      rw [getElem?_insert] at ht
      split at ht
      · next hb =>
        subst hb
        cases ht
        rw [he] at ht₀
        cases ht₀
        exact hee
      · rw [getElem?_insert, if_neg (Ne.symm (hlt b t₀ ht₀)), ht₀] at ht
        cases ht
        rfl
    rw [hin, getElem?_insert, if_neg (Nat.ne_of_gt (hw.env b t₀ ht₀).2)] at ht'
    exact ho.nested.sandbox k b t₀ t' (hs k b hb) ht₀ ht'

theorem events_newImport {current : Current} {envId k : ℕ} :
    Moves (Same Machine.events) (newImport current envId k) :=
  .bind (moves_newHandler (fun _ _ ↦ rfl) fun _ _ _ ↦ rfl) fun _ ↦ .bind (fun _ ↦ rfl) fun _ ↦
    .bind (moves_modifyEnv fun _ _ _ ↦ rfl) fun _ ↦ .update fun _ ↦ rfl

/-- The handler of an import is kept by that of the contract that runs. -/
theorem coheres_newImport {current : Current} {envId k : ℕ} {live : Bool}
    (hid : m.vm.sandboxes[current.name]? = some envId) (he : m.envs[envId]? = some current.env)
    (hh : m.handlers[current.env.contractHelper]? = some current.handler)
    (hb : Event.built k true live ∈ m.events)
    (hlive : live = false → ∀ id : ℕ, ∀ g : Handler, m.handlers[id]? = some g → g.contract ≠ k) :
    Coheres init m (after (newImport current envId k) m) := by
  intro hw hm
  have hst := (stays_newImport (k := k) he hw hm).steady
  have hin := hw.env envId _ he
  refine ⟨hst.metered, hst.wf, hst.keep, ?_, fun ho hom ↦ ?_⟩
  · exact congrArg (fun l ↦ saved init (l.filterMap Event.entry)) (events_newImport m)
  have hnone := hom.nested.sandbox _ _ _ _ hid he hh
  have hfree := hlive (ho _ (hst.keep.events _ hb) rfl)
  cases hr : (newHandler current.env.baseInfo.caller current.handler.nfaCaller k
    current.handler.isInEval (some current.env.contractHelper)).run m with
  | error err t =>
    rw [newImport, after_bind_error hr] at ho ⊢
    exact (coheres_newHandler_error err t hr hw hm).2.ordered ho hom
  | ok ch t =>
    rw [newImport, after_bind_ok hr] at ho ⊢
    obtain ⟨c, d, hc, hd, rfl, rfl⟩ := newHandler_ok hr
    have hrow : (m.contracts.insert k (c.withAccount current.env.baseInfo.caller))[k]? =
        some (c.withAccount current.env.baseInfo.caller) := by rw [getElem?_insert, if_pos rfl]
    have hne : m.fresh + 1 ≠ envId := by omega
    -- the machine that is left, by its parts
    set i : Env :=
      { contractHelper := m.fresh
        baseInfo :=
          { contract := k, caller := current.env.baseInfo.caller
            invoker := current.env.baseInfo.invoker }
        nfaHelper := current.env.nfaHelper }
    set t : Machine :=
      { m with
        contracts := m.contracts.insert k (c.withAccount current.env.baseInfo.caller)
        handlers := m.handlers.insert m.fresh
          { caller := current.env.baseInfo.caller, nfaCaller := current.handler.nfaCaller,
            contract := k, isInEval := current.handler.isInEval, contractData := c.contractData,
            accountData := d, keptBy := some current.env.contractHelper }
        fresh := m.fresh + 1 }
    have hmod : (modifyEnv envId fun e ↦ { e with imported := e.imported.insert k t.fresh }).run
        { t with envs := t.envs.insert t.fresh i, fresh := t.fresh + 1 } = _ :=
      run_modifyEnv (e := current.env) (by rw [getElem?_insert, if_neg hne, he])
    have hn : (newEnv i).run t =
        .ok t.fresh { t with envs := t.envs.insert t.fresh i, fresh := t.fresh + 1 } := rfl
    rw [after_bind_ok hn, after_bind_ok hmod]
    have hom' : Ordered init
        { m with contracts := m.contracts.insert k (c.withAccount current.env.baseInfo.caller) } :=
      ⟨hom.coherent.withAccount hc current.env.baseInfo.caller, hom.nested.kept,
        hom.nested.sandbox⟩
    have hw' := hw.withContracts (m.contracts.insert k (c.withAccount current.env.baseInfo.caller))
    refine ⟨ordered_import hw' hm hom' hrow (copy_stored hrow rfl hd) hfree rfl hh hnone rfl he rfl
      fun k' j hj ↦ ?_, fun id g hg ↦ ?_⟩
    · rw [getElem?_erase] at hj
      split at hj
      · cases hj
      · exact hj
    · change (m.handlers.insert m.fresh _)[id]? = some g at hg
      rw [getElem?_insert] at hg
      split at hg
      · cases hg
        exact .inr ⟨_, rfl, hin.2⟩
      · exact .inl (hw.handler id g hg).1

theorem coheres_makeImport {current : Current} {envId k : ℕ} {setup : Setup}
    (hid : m.vm.sandboxes[current.name]? = some envId) (he : m.envs[envId]? = some current.env)
    (hh : m.handlers[current.env.contractHelper]? = some current.handler) :
    Coheres init m (after (makeImport current envId k setup) m) := by
  refine Moves.bind_at (moves_addExePoint loose_coheres m) fun _ t ht ↦ ?_
  cases ht
  refine Moves.bind_at (coheres_of_quiet quiet_setup _) fun _ t ht ↦ ?_
  have hb : bindings t = bindings m := after_ok ht ▸ same_bindings_setup _
  simp only [bindings, Prod.mk.injEq] at hb
  refine Moves.bind_at (Moves.get t) fun _ _ hg ↦ ?_
  cases hg
  refine Moves.bind_at (coheres_event rfl t) fun _ u hu ↦ ?_
  cases hu
  exact coheres_newImport (hb.2.1 ▸ hid) (hb.2.2.1 ▸ he) (hb.2.2.2 ▸ hh) List.mem_cons_self
    hasHandler_false

theorem coheres_importContract {k : ℕ} {setup : Setup} :
    Moves (Coheres init) (importContract k setup) := by
  intro m
  refine Moves.bind_at (moves_readCurrent m) fun current t ht ↦ ?_
  obtain ⟨rfl, -, id, hid, hg, hh⟩ := readCurrent_ok ht
  split
  · refine Moves.bind_at (moves_getContract t) fun _ u hu ↦ ?_
    obtain ⟨-, rfl⟩ := getContract_ok hu
    refine Moves.bind_at (Moves.get u) fun _ _ h ↦ ?_
    cases h
    refine Moves.bind_at (moves_lookup u) fun envId s hs ↦ ?_
    obtain ⟨henv, rfl⟩ := lookup_ok hs
    cases hid.symm.trans henv
    refine Moves.bind_at ?_ fun _ s _ ↦ moves_cleanUp (coheres_of_quiet quiet_clearGlobal) s
    rw [after_attempt]
    exact coheres_makeImport hid hg hh
  · exact Moves.pure _ t

end Import

section Data

variable {self : Self}

theorem readSelf_ok {env : ℕ} (h : (readSelf env).run m = .ok self m') :
    m' = m ∧ m.envs[env]? = some self.env ∧
      m.handlers[self.env.contractHelper]? = some self.handler := by
  obtain ⟨_, _, hg, h₁⟩ := bind_ok.mp h
  cases hg
  obtain ⟨e, t, he, h₂⟩ := bind_ok.mp h₁
  obtain ⟨he, rfl⟩ := lookup_ok he
  obtain ⟨_, _, hg, h₃⟩ := bind_ok.mp h₂
  cases hg
  obtain ⟨g, t, hl, h₄⟩ := bind_ok.mp h₃
  obtain ⟨hl, rfl⟩ := lookup_ok hl
  cases h₄
  exact ⟨rfl, he, hl⟩

/-- A read is answered with what is in the cell. -/
theorem coheres_read {e : Event} {c : Cell} {d : Data} (he : e.entry = some (.read c d))
    (hd : Orderly m → Ordered init m → d = value init (log m) c) :
    Coheres init m { m with events := e :: m.events } := by
  have hin : Within m { m with events := e :: m.events } :=
    ⟨rfl, rfl, rfl, fun _ ↦ List.mem_cons_of_mem _, fun _ _ ↦ id⟩
  intro hw hm
  refine ⟨hm, hin.wf hw, hin.keep, ?_, fun ho hom ↦ ⟨⟨?_, hom.nested.kept, hom.nested.sandbox⟩,
    fun id g hg ↦ .inl (hw.handler id g hg).1⟩⟩
  · rw [log, List.filterMap_cons, he]
    rfl
  · exact hom.coherent.read he (hd (hin.keep.orderly ho) hom)

/-- The database is right about a contract that has no handlers. -/
theorem Coherent.stored_free (h : Coherent init m) {c : Cell} (hc : hasHandler m c.1 = false) :
    Contract.stored m.contracts c = value init (log m) c :=
  h.stored c fun id g hg _ ↦ Option.eq_none_iff_forall_ne_some.mpr fun _ hd ↦
    hasHandler_false hc id g hg (copy_contract hd).symm

theorem coheres_prepareAccountData {a k : ℕ} :
    Moves (Coheres init) (prepareAccountData a k) :=
  .bind coheres_modifyContract fun _ ↦ .bind moves_getContract fun _ ↦ moves_lookup

theorem prepareAccountData_ok {a k : ℕ} {d : Data}
    (h : (prepareAccountData a k).run m = .ok d m') : d = stored m'.contracts (k, some a) := by
  obtain ⟨_, t, -, h₁⟩ := bind_ok.mp h
  obtain ⟨c, u, hg, h₂⟩ := bind_ok.mp h₁
  obtain ⟨hc, rfl⟩ := getContract_ok hg
  obtain ⟨hd, rfl⟩ := lookup_ok h₂
  simp only [stored, hc, Option.bind_some, hd, Option.getD_some]

/-- An answer out of the database, as it was noted. -/
theorem coheres_answer {e : Event} {c : Cell} {d : Data} {points : ℤ}
    (he : e.entry = some (.read c d)) (hd : d = stored m.contracts c) :
    Coheres init m (after (do
      note (.fetched c.1 (hasHandler (← get) c.1))
      note e
      addExePoint points
      pure d) m) := by
  refine Moves.bind_at (R := Coheres init) (Moves.get m) fun _ _ hg ↦ ?_
  cases hg
  refine Moves.bind_at (coheres_event rfl m) fun _ t ht ↦ ?_
  cases ht
  refine Moves.bind_at (coheres_read he fun ho hom ↦ hd.trans ?_) fun _ t _ ↦
    Moves.bind (moves_addExePoint loose_coheres) (fun _ ↦ .pure _) t
  exact hom.coherent.stored_free (ho (.fetched c.1 (hasHandler m c.1)) List.mem_cons_self)

theorem coheres_readData (hs : Shown m self.env.contractHelper)
    (hh : m.handlers[self.env.contractHelper]? = some self.handler) (r : DataRead) :
    Coheres init m (after (readData self r) m) := by
  have hcopy : ∀ c d, self.handler.copy c = some d → ∀ {points : ℤ}, Orderly m →
      Ordered init { m with exePoint := points } → d = value init (log m) c :=
    fun c d hd _ _ hom ↦ hom.coherent.shown _ _ hh hs c d hd
  cases r with
  | contractData =>
    refine Moves.bind_at (moves_addExePoint loose_coheres m) fun _ t ht ↦ ?_
    cases ht
    refine Moves.bind_at (coheres_read rfl fun ho hom ↦ ?_) fun _ t _ ↦ Moves.pure _ t
    exact hcopy _ _ (if_pos rfl) ho hom
  | accountData =>
    refine Moves.bind_at (moves_addExePoint loose_coheres m) fun _ t ht ↦ ?_
    cases ht
    refine Moves.bind_at (coheres_read rfl fun ho hom ↦ ?_) fun _ t _ ↦ Moves.pure _ t
    exact hcopy _ _ (if_pos ⟨rfl, rfl⟩) ho hom
  | contractDataOf k =>
    refine Moves.bind_at (moves_getContract m) fun c t ht ↦ ?_
    obtain ⟨hc, rfl⟩ := getContract_ok ht
    refine coheres_answer (e := .readContract k c.contractData) (c := (k, none)) rfl ?_
    rw [stored, hc, Option.map_some, Option.getD_some]
  | accountDataOf a k =>
    refine Moves.bind_at (moves_onLedger loose_coheres m) fun _ t _ ↦ ?_
    refine Moves.bind_at (coheres_prepareAccountData t) fun d u hu ↦ ?_
    exact coheres_answer (e := .readAccount a k d) (c := (k, some a)) rfl (prepareAccountData_ok hu)

/-- A write changes a copy, and is noted. -/
theorem coheres_write {e : Event} {c : Cell} {f : Handler → Handler} {g : Data → Data} {id : ℕ}
    {h : Handler} (he : e.entry = some (.write c g)) (hh : m.handlers[id]? = some h)
    (hs : Shown m id) (hw : ∀ h, (f h).who = h.who) (hc : (h.copy c).isSome = true)
    (hcopy : ∀ c', (f h).copy c' = (h.copy c').map fun d ↦ if c' = c then g d else d) :
    Coheres init m
      { m with handlers := m.handlers.insert id (f h), events := e :: m.events } := by
  intro hwf hm
  have hst := steadily_insert hh (hw h) hwf hm fun _ (h : _ ∈ none) ↦ nomatch h
  have hst' := hst.trans (steadily_events _ e hst.wf hst.metered fun _ h ↦ nomatch h)
  have hback : ∀ a : ℕ, ∀ t : Handler, (m.handlers.insert id (f h))[a]? = some t →
      ∃ t' : Handler, m.handlers[a]? = some t' ∧ t'.keptBy = t.keptBy := fun a t ht ↦ by
    rw [getElem?_insert] at ht
    split at ht
    · next ha =>
      cases ht
      exact ⟨h, ha ▸ hh, (congrArg (fun w ↦ w.2.2) (hw h)).symm⟩
    · exact ⟨t, ht, rfl⟩
  refine ⟨hst'.metered, hst'.wf, hst'.keep, ?_, fun _ hom ↦ ⟨⟨hom.coherent.write he hh hs (hw h) hc hcopy,
    fun a p t ht hp ↦ ?_, fun k a i t ha hi ht ↦ ?_⟩, fun a t ht ↦ ?_⟩⟩
  · rw [log, List.filterMap_cons, he]
    rfl
  · obtain ⟨t', ht', hk⟩ := hback a t ht
    obtain ⟨hsa, q, hq, hnone⟩ := hom.nested.kept a p t' ht' (hk.trans hp)
    refine ⟨hsa, ?_⟩
    by_cases hid : id = p
    · subst hid
      rw [hh] at hq
      cases hq
      exact ⟨f h, by rw [getElem?_insert, if_pos rfl],
        (congrArg (fun w ↦ w.2.2) (hw h)).trans hnone⟩
    · exact ⟨q, by rw [getElem?_insert, if_neg hid, hq], hnone⟩
  · obtain ⟨t', ht', hk⟩ := hback _ t ht
    exact hk.symm.trans (hom.nested.sandbox k a i t' ha hi ht')
  · obtain ⟨t', ht', -⟩ := hback a t ht
    exact .inl (hwf.handler a t' ht').1

theorem after_modifyHandler {id : ℕ} {f : Handler → Handler} {h : Handler} {x : Run Unit}
    (hh : m.handlers[id]? = some h) : after (do
      modifyHandler id f
      x) m = after x { m with handlers := m.handlers.insert id (f h) } := by
  have hm : (modifyHandler id f).run m =
      .ok ⟨⟩ { m with handlers := m.handlers.insert id (f h) } :=
    bind_ok.mpr ⟨m, m, rfl, bind_ok.mpr ⟨h, m, run_lookup hh m, rfl⟩⟩
  exact after_bind_ok hm

theorem copy_setContractData (h : Handler) (g : Data → Data) (c : Cell) :
    { h with contractData := g h.contractData }.copy c =
      (h.copy c).map fun d ↦ if c = (h.contract, none) then g d else d := by
  obtain ⟨k, _ | b⟩ := c <;> simp only [Handler.copy]
  · by_cases hk : k = h.contract <;> simp [hk]
  · split <;> simp

theorem copy_setAccountData (h : Handler) (g : Data → Data) (c : Cell) :
    { h with accountData := g h.accountData }.copy c =
      (h.copy c).map fun d ↦ if c = (h.contract, some h.caller) then g d else d := by
  obtain ⟨k, _ | b⟩ := c <;> simp only [Handler.copy]
  · split <;> simp
  · by_cases hk : k = h.contract ∧ b = h.caller
    · obtain ⟨rfl, rfl⟩ := hk
      simp
    · simp only [if_neg hk, Option.map_none]

theorem coheres_writeData (hs : Shown m self.env.contractHelper)
    (hh : m.handlers[self.env.contractHelper]? = some self.handler) (w : DataWrite) :
    Coheres init m (after (writeData self w) m) := by
  cases w with
  | contractData entries =>
    refine Moves.bind_at (moves_addExePoint loose_coheres m) fun _ t ht ↦ ?_
    cases ht
    dsimp only
    rw [after_modifyHandler (m := { m with exePoint := m.exePoint + 2 }) hh]
    exact coheres_write (e := .wroteContract self.handler.contract entries)
      (f := fun h ↦ { h with contractData := writeEntries h.contractData entries }) rfl hh hs (fun _ ↦ rfl)
      (by rw [Handler.copy, if_pos rfl]; rfl)
      (copy_setContractData self.handler fun d ↦ writeEntries d entries)
  | accountData entries =>
    unfold writeData
    rw [after_modifyHandler hh]
    have hwrite : Coheres init m _ := coheres_write
      (e := .wroteAccount self.handler.caller self.handler.contract entries)
      (f := fun h ↦ { h with accountData := writeEntries h.accountData entries }) rfl hh hs (fun _ ↦ rfl)
      (by rw [Handler.copy, if_pos ⟨rfl, rfl⟩]; rfl)
      (copy_setAccountData self.handler fun d ↦ writeEntries d entries)
    exact trans_of (Coheres init) hwrite (moves_addExePoint loose_coheres _)

end Data

section Steps

variable {f : Frame} {self : Self} {cond : Conditions} {body : Frame → ℕ → Run Unit}

/-- A run outside of the virtual machine that there is. -/
def Hosted (init : Cell → Data) (m m' : Machine) : Prop := Wf m → Keeping init m m'

instance : IsPreorder Machine (Hosted init) where
  refl _ hw := .refl hw
  trans _ _ _ h h' hw := (h hw).trans (h' (h hw).wf)

theorem Quiet.hosted (h : Quiet m m') : Hosted init m m' := fun hw ↦ h.keeping hw

/-- In a context of its own, code gets at no sandbox that there is. -/
theorem hosted_inContext {x : Run Unit} (hx : Moves (Hosted init) x) :
    Moves (Hosted init) (inContext x) := by
  intro m hw
  have hk := hx { m with vm := {} } ((Within.newVm m).wf hw)
  have hback := keep_inContext hw hk.wf hk.keep
  rw [after_inContext] at hback ⊢
  have hsand : ∀ k id : ℕ, m.vm.sandboxes[k]? = some id → ∃ e, m.envs[id]? = some e ∧
      ∀ e', (after x { m with vm := {} }).envs[id]? = some e' →
        e'.contractHelper = e.contractHelper := fun k id hid ↦ by
    obtain ⟨e, he⟩ := hw.sandbox k id hid
    refine ⟨e, he, fun e' he' ↦ ?_⟩
    obtain ⟨e₀, he₀, hc⟩ := hk.keep.env_back (hw.env id e he).1 he'
    cases he.symm.trans he₀
    exact hc
  refine ⟨hback.1, hback.2, hk.saves, fun ho hom ↦ ?_⟩
  obtain ⟨hom', hc⟩ := hk.ordered ho
    ⟨hom.coherent.of_same rfl rfl rfl rfl, hom.nested.kept, fun k id e g hid ↦ nomatch
      (hid : (∅ : Table ℕ)[k]? = some id)⟩
  refine ⟨⟨hom'.coherent.of_same rfl rfl rfl rfl, hom'.nested.kept, fun k id e g hid he hg ↦ ?_⟩, hc⟩
  obtain ⟨e₀, he₀, hec⟩ := hsand k id hid
  rw [hec e he] at hg
  obtain ⟨g', hg', hwho⟩ := hk.keep.handler_back (hw.env id e₀ he₀).2 hg
  exact (congrArg (fun w ↦ w.2.2) hwho).symm.trans (hom.nested.sandbox k id e₀ g' hid he₀ hg')

theorem Hosted.coheres (h : Hosted init m m') (hm : m'.vm.enableDrops = m.vm.enableDrops) :
    Coheres init m m' := fun hw hmet ↦ ⟨hm.trans hmet, h hw⟩

theorem coheres_inContext {x : Run Unit} (hx : Moves (Hosted init) x) :
    Moves (Coheres init) (inContext x) := fun m ↦
  (hosted_inContext hx m).coheres (by rw [after_inContext])

theorem hosted_of_coheres (hm : metered m) (h : Coheres init m m') : Hosted init m m' :=
  fun hw ↦ (h hw hm).2

theorem quiet_withDrops (m : Machine) (drops : ℤ) : Quiet m (m.withDrops drops) :=
  ⟨.withDrops m drops, rfl, rfl, fun _ ↦ rfl⟩

theorem hosted_enableDrops {enable : Bool} : Moves (Hosted init) (enableDrops enable) := by
  refine .update fun m hw ↦ ?_
  have hin : Within m { m with vm := { m.vm with enableDrops := enable } } :=
    ⟨rfl, rfl, rfl, fun _ ↦ id, fun _ _ ↦ id⟩
  refine ⟨hin.wf hw, hin.keep, rfl, fun _ ho ↦ ⟨⟨ho.coherent.of_same rfl rfl rfl rfl, ho.nested.kept,
    ho.nested.sandbox⟩, fun id g hg ↦ .inl (hw.handler id g hg).1⟩⟩

variable (hbody : ∀ f e, Moves (Coheres init) (body f e))
include hbody

theorem calls_coheres : Calls (Coheres init) cond body where
  loose := loose_coheres
  runZone := coheres_runZone
  acted m _ _ _ _ := coheres_event rfl m
  jumpedOut m _ := coheres_event rfl m
  call := coheres_call fun e ↦ hbody _ e

variable {outer : Option (Option ℕ)} {caller k n nfa : ℕ} {function : FunctionName} {drops : ℤ}
  {isInEval : Bool}

theorem coheres_serve :
    Moves (Coheres init) (serveFunction outer caller k function n cond body) :=
  .bind moves_getContract fun _ ↦ .bind moves_requireArguments fun _ ↦ .bind .get fun _ ↦
    coheres_call fun e ↦ hbody _ e

theorem coheres_serveNfa {before : Option ℕ} : Moves (Coheres init)
    (serveNfaFunction caller k function n cond body nfa isInEval before) :=
  .bind .get fun _ ↦ .bind (moves_enterZone coheres_runZone) fun _ ↦
    .bind (moves_admitAction fun m ↦ coheres_event rfl m) fun _ ↦ .bind moves_getContract fun _ ↦
    .bind moves_requireArguments fun _ ↦ .bind .get fun _ ↦ coheres_call fun e ↦ hbody _ e

theorem hosted_doContractFunction :
    Moves (Hosted init) (doContractFunction outer caller k function n drops cond body) := by
  intro m
  rw [after_doContractFunction]
  refine trans_of (Hosted init) (quiet_withDrops m drops).hosted
    (Moves.bind_at ?_ fun _ t _ ↦ hosted_enableDrops t)
  refine Moves.bind_at ?_ fun _ t _ ↦ moves_cleanUp hosted_enableDrops t
  rw [after_attempt]
  exact hosted_of_coheres rfl (coheres_serve hbody _)

theorem hosted_doNfaContractFunction :
    Moves (Hosted init)
      (doNfaContractFunction caller k function n drops cond body nfa isInEval) := by
  intro m
  have hback : Moves (Hosted init) (do
      enableDrops m.vm.enableDrops
      setRunZone m.runZone) :=
    .bind hosted_enableDrops fun _ ↦ .update fun m ↦
      Quiet.hosted ⟨⟨rfl, rfl, rfl, fun _ ↦ id, fun _ _ ↦ id⟩, rfl, rfl, id⟩
  rw [after_doNfaContractFunction]
  refine trans_of (Hosted init) (quiet_withDrops m drops).hosted
    (Moves.bind_at ?_ fun _ t _ ↦ hback t)
  refine Moves.bind_at ?_ fun _ t _ ↦ moves_cleanUp hback t
  rw [after_attempt]
  exact hosted_of_coheres rfl (coheres_serveNfa hbody _)

/-- In a virtual machine that counts its drops, a call sets the counting back as it is. -/
theorem coheres_doContractFunction :
    Moves (Coheres init) (doContractFunction outer caller k function n drops cond body) := by
  intro m hw hm
  have hon : Moves (Coheres init) (enableDrops true) :=
    coheres_of_quiet (quiet_modifyVm (fun _ _ ↦ rfl) fun _ _ _ ↦ id)
  rw [after_doContractFunction, show m.vm.enableDrops = true from hm]
  refine trans_of (Coheres init) (quiet_withDrops m drops).coheres
    (Moves.bind_at ?_ fun _ t _ ↦ hon t) hw hm
  refine Moves.bind_at ?_ fun _ t _ ↦ moves_cleanUp hon t
  rw [after_attempt]
  exact coheres_serve hbody _

theorem coheres_callContractFunction :
    Moves (Coheres init) (callContractFunction outer caller k function n cond body) :=
  .bind (moves_onLedger loose_coheres) fun _ ↦ .bind moves_getContract fun _ ↦ .bind .get fun _ ↦
    .bind (moves_setExePoint loose_coheres) fun _ ↦
    .bind (.bind (coheres_inContext (hosted_doContractFunction hbody)) fun _ ↦ moves_rethrow)
      fun _ ↦
    .bind .get fun _ ↦ .bind (moves_setExePoint loose_coheres) fun _ ↦ moves_onLedger loose_coheres

theorem coheres_construction {c : Construction} :
    Moves (Coheres init) (c.run outer self cond body) := by
  cases c with
  | createNfa =>
    exact .bind (moves_onObjects loose_coheres) fun _ ↦ .bind .get fun _ ↦
      .bind (coheres_doContractFunction hbody) fun _ ↦ .bind (moves_onObjects loose_coheres) fun _ ↦
      moves_addExePoint loose_coheres
  | changeNfaContract =>
    exact .bind (moves_onLedger loose_coheres) fun _ ↦ .bind moves_getContract fun _ ↦
      .bind moves_require fun _ ↦ .bind (moves_addExePoint loose_coheres) fun _ ↦
      .bind (moves_onLedger loose_coheres) fun _ ↦
      .bind (coheres_doContractFunction hbody) fun _ ↦
      .bind .get fun _ ↦ .bind (moves_onLedger loose_coheres) fun _ ↦
      .bind (moves_addExePoint loose_coheres) fun _ ↦ moves_onObjects loose_coheres
  | invoke => exact moves_invoke loose_coheres pathless_coheres (coheres_callContractFunction hbody)

end Steps

theorem coheres_exec (hash : ℕ → ℕ) (code : Code) :
    ∀ f e, Moves (Coheres init) (exec hash f e code) := by
  have huse : ∀ f e, Moves (Coheres init) (noteUse f e) := fun f e m ↦ coheres_event rfl m
  -- where code has found its helpers, it has got at their handler
  have hself : ∀ (e : ℕ) (m t : Machine) (self : Self), (readSelf e).run m = .ok self t →
      t = m ∧ Shown m self.env.contractHelper ∧
        m.handlers[self.env.contractHelper]? = some self.handler := fun e m t self h ↦ by
    obtain ⟨rfl, he, hh⟩ := readSelf_ok h
    exact ⟨rfl, ⟨e, _, he, rfl⟩, hh⟩
  induction code with
  | done => exact fun f e ↦ moves_checkBudget
  | error msg => exact fun f e ↦ .bind moves_checkBudget fun _ ↦ .throw _
  | tick cost next ih =>
    exact fun f e ↦ .bind (coheres_of_quiet quiet_spend) fun _ ↦ .bind moves_checkBudget fun _ ↦
      ih f e
  | allocate cost next ih =>
    exact fun f e ↦ .bind moves_checkBudget fun _ ↦
      .bind (coheres_of_quiet quiet_allocate) fun _ ↦ ih f e
  | look next ih => exact fun f e ↦ .bind moves_checkBudget fun _ ↦ .bind .get fun m ↦ ih m f e
  | protect body next ihb ihn =>
    exact fun f e ↦ .bind moves_checkBudget fun _ ↦ .bind (coheres_luaPcall (ihb f e)) fun msg ↦
      ihn msg f e
  | contractApi api next ih =>
    exact fun f e ↦ .bind moves_checkBudget fun _ ↦ .bind (huse f e) fun _ ↦
      .bind moves_readSelf fun _ ↦ .bind moves_getContract fun _ ↦
      .bind (moves_addExePoint loose_coheres) fun _ ↦ .bind (moves_onObjects loose_coheres) fun _ ↦
      ih f e
  | nfaApi api next ih =>
    exact fun f e ↦ .bind moves_checkBudget fun _ ↦ .bind (huse f e) fun _ ↦
      .bind moves_readSelf fun _ ↦ .bind moves_selfNfa fun _ ↦ .bind moves_getContract fun _ ↦
      .bind (moves_addExePoint loose_coheres) fun _ ↦ .bind (moves_onObjects loose_coheres) fun _ ↦
      ih f e
  | read r next ih =>
    refine fun f e ↦ .bind moves_checkBudget fun _ ↦ .bind (huse f e) fun _ m ↦ ?_
    refine Moves.bind_at (moves_readSelf m) fun self t ht ↦ ?_
    obtain ⟨rfl, hs, hh⟩ := hself e m t self ht
    exact Moves.bind_at (coheres_readData hs hh r) fun d t _ ↦ ih d f e t
  | write w next ih =>
    refine fun f e ↦ .bind moves_checkBudget fun _ ↦ .bind (huse f e) fun _ m ↦ ?_
    refine Moves.bind_at (moves_readSelf m) fun self t ht ↦ ?_
    obtain ⟨rfl, hs, hh⟩ := hself e m t self ht
    exact Moves.bind_at (coheres_writeData hs hh w) fun _ t _ ↦ ih f e t
  | importContract k setup next ih =>
    exact fun f e ↦ .bind moves_checkBudget fun _ ↦ .bind coheres_importContract fun _ ↦ ih f e
  | inImport k body next ihb ihn =>
    exact fun f e ↦ .bind moves_checkBudget fun _ ↦ .bind moves_importedEnv fun _ ↦
      .bind (ihb { f with contract := k } _) fun _ ↦ ihn f e
  | call r cond body next ihb ihn =>
    exact fun f e ↦ .bind moves_checkBudget fun _ ↦ .bind (huse f e) fun _ ↦
      .bind moves_readSelf fun _ ↦ .bind (moves_request (calls_coheres ihb)) fun _ ↦ ihn f e
  | construct c cond body next ihb ihn =>
    exact fun f e ↦ .bind moves_checkBudget fun _ ↦ .bind (huse f e) fun _ ↦
      .bind moves_readSelf fun _ ↦ .bind (coheres_construction ihb) fun _ ↦ ihn f e

section Executions

variable {cond : Conditions} {body : Frame → ℕ → Run Unit}

def NoHandlers (m : Machine) : Prop := ∀ id : ℕ, m.handlers[id]? = none

/-- An execution from where no contract is executed leads to where none is. -/
structure Whole (init : Cell → Data) (m m' : Machine) : Prop where
  wf : Wf m'
  keep : Keep m m'
  saves : saved init (log m') = saved init (log m)
  ordered : Orderly m' → Ordered init m → NoHandlers m → Ordered init m' ∧ NoHandlers m'

def Wholly (init : Cell → Data) (m m' : Machine) : Prop := Wf m → Whole init m m'

instance : IsPreorder Machine (Wholly init) where
  refl m hw := ⟨hw, .refl m, rfl, fun _ ho hn ↦ ⟨ho, hn⟩⟩
  trans _ _ _ h h' hw := by
    have hx := h hw
    have hx' := h' hx.wf
    refine ⟨hx'.wf, hx.keep.trans hx'.keep, hx'.saves.trans hx.saves, fun ho hom hn ↦ ?_⟩
    obtain ⟨hom', hn'⟩ := hx.ordered (hx'.keep.orderly ho) hom hn
    exact hx'.ordered ho hom' hn'

theorem Hosted.wholly (h : Hosted init m m') : Wholly init m m' := fun hw ↦ by
  have hk := h hw
  refine ⟨hk.wf, hk.keep, hk.saves, fun ho hom hn ↦ ?_⟩
  obtain ⟨hom', hc⟩ := hk.ordered ho hom
  have hlt : ∀ id : ℕ, id < m.fresh → m'.handlers[id]? = none := fun id hid ↦ by
    have hsame := hk.keep.handler id hid
    rw [hn id] at hsame
    exact Option.map_eq_none_iff.mp hsame
  refine ⟨hom', fun id ↦ Option.eq_none_iff_forall_ne_some.mpr fun g hg ↦ ?_⟩
  rcases hc id g hg with hid | ⟨p, hp, hpl⟩
  · rw [hlt id hid] at hg
    cases hg
  · obtain ⟨-, g', hg', -⟩ := hom'.nested.kept id p g hg hp
    rw [hlt p hpl] at hg'
    cases hg'

theorem Quiet.wholly (h : Quiet m m') : Wholly init m m' := h.hosted.wholly

theorem Ordered.of_none (hn : NoHandlers m) (hs : ∀ c, stored m.contracts c = value init (log m) c)
    (hc : Consistent init (log m)) : Ordered init m := by
  have hno : ∀ id : ℕ, ∀ g : Handler, m.handlers[id]? ≠ some g := fun id g hg ↦
    nomatch (hn id).symm.trans hg
  refine ⟨⟨?_, ?_, ?_, ?_, fun c _ ↦ hs c, hc⟩, ⟨?_, fun _ _ _ g _ _ hg ↦ (hno _ g hg).elim⟩⟩
  · exact fun id g hg ↦ (hno id g hg).elim
  · exact fun id g hg ↦ (hno id g hg).elim
  · exact fun id g hg ↦ (hno id g hg).elim
  · exact fun id _ g _ hg ↦ (hno id g hg).elim
  · exact fun id _ g hg ↦ (hno id g hg).elim

theorem wholly_inContext {x : Run Unit} (hx : Moves (Wholly init) x) :
    Moves (Wholly init) (inContext x) := by
  intro m hw
  have hin := Within.newVm m
  have hk := hx { m with vm := {} } (hin.wf hw)
  have hback := keep_inContext hw hk.wf hk.keep
  rw [after_inContext] at hback ⊢
  refine ⟨hback.1, hback.2, hk.saves, fun ho hom hn ↦ ?_⟩
  obtain ⟨hom', hn'⟩ := hk.ordered ho (.of_none hn (hom.coherent.stored · fun id g hg ↦
    nomatch (hn id).symm.trans hg) hom.coherent.consistent) hn
  exact ⟨.of_none hn' (hom'.coherent.stored · fun id g hg ↦ nomatch (hn' id).symm.trans hg)
    hom'.coherent.consistent, hn'⟩

/-- An undo session that fails leads back to what was stored before it. -/
theorem wholly_inSession {x : Run Unit} (hx : Moves (Wholly init) x) :
    Moves (Wholly init) (inSession x) := by
  intro m hw
  set t : Machine := { m with events := .startedSession :: m.events } with ht
  have hin : Within m t := ⟨rfl, rfl, rfl, fun _ ↦ List.mem_cons_of_mem _, fun _ _ ↦ id⟩
  have hk := hx t (hin.wf hw)
  have hstart : Ordered init m → NoHandlers m → Orderly (after x t) →
      Ordered init (after x t) ∧ NoHandlers (after x t) := fun hom hn ho ↦
    hk.ordered ho (.of_none hn (hom.coherent.stored · fun id g hg ↦ nomatch (hn id).symm.trans hg)
      hom.coherent.consistent) hn
  cases hr : x.run t with
  | ok _ u =>
    have he : after (inSession x) m = { u with events := .squashed :: u.events } := by
      change after (attempt x >>= endSession m) t = _
      rw [after_bind_ok (attempt_ok hr)]
      rfl
    rw [after_ok hr] at hk hstart
    have hout : Within u (after (inSession x) m) := by
      rw [he]
      exact ⟨rfl, rfl, rfl, fun _ ↦ List.mem_cons_of_mem _, fun _ _ ↦ id⟩
    refine ⟨hout.wf hk.wf, (hin.keep.trans hk.keep).trans hout.keep, ?_, fun ho hom hn ↦ ?_⟩
    · rw [he]
      exact saved_squash hk.saves
    · obtain ⟨hom', hn'⟩ := hstart hom hn (hout.keep.orderly ho)
      rw [he]
      exact ⟨.of_none hn' (hom'.coherent.stored · fun id g hg ↦ nomatch (hn' id).symm.trans hg)
        hom'.coherent.consistent, hn'⟩
  | error err u =>
    have he : after (inSession x) m =
        { u with objects := m.objects, contracts := m.contracts, events := .undone :: u.events } := by
      change after (attempt x >>= endSession m) t = _
      rw [after_bind_ok (attempt_error hr)]
      rfl
    rw [after_error hr] at hk hstart
    have hout : Within u (after (inSession x) m) := by
      rw [he]
      exact ⟨rfl, rfl, rfl, fun _ ↦ List.mem_cons_of_mem _, fun _ _ ↦ id⟩
    refine ⟨hout.wf hk.wf, (hin.keep.trans hk.keep).trans hout.keep, ?_, fun ho hom hn ↦ ?_⟩
    · rw [he]
      exact saved_undo hk.saves
    · obtain ⟨hom', hn'⟩ := hstart hom hn (hout.keep.orderly ho)
      rw [he]
      refine ⟨.of_none hn' (fun c ↦ ?_) hom'.coherent.consistent, hn'⟩
      rw [show log _ = .undo :: log u from rfl, value_undo hk.saves]
      exact hom.coherent.stored c fun id g hg ↦ nomatch (hn id).symm.trans hg

theorem wholly_perform {hash : ℕ → ℕ} {e : Execution}
    (hbody : ∀ f e, Moves (Coheres init) (body f e)) :
    Moves (Wholly init) (e.perform hash cond body) :=
  moves_perform
    { loose :=
        ⟨fun m o ↦ (loose_quiet.objects m o).wholly, fun m p ↦ (loose_quiet.exePoint m p).wholly⟩
      session := fun _ ↦ wholly_inSession
      context := fun _ ↦ wholly_inContext
      function := fun m ↦ (hosted_doContractFunction hbody m).wholly
      nfaFunction := fun m ↦ (hosted_doNfaContractFunction hbody m).wholly }

end Executions

/-- While code gets at one handler of a contract only, reads the database for contracts without
handlers only and leaves no handler behind, every read is answered with what the writes before it
have left, and what is stored in the end is what they come to. -/
theorem data_of_orderly (hash : ℕ → ℕ) (cond : Conditions) (code : Code) (e : Execution)
    (hm : Idle m) (ho : Orderly (after (e.run hash cond code) m)) :
    Consistent (stored m.contracts) (log (after (e.run hash cond code) m)) ∧
      stored (after (e.run hash cond code) m).contracts =
        value (stored m.contracts) (log (after (e.run hash cond code) m)) := by
  have hn : NoHandlers m := fun id ↦ by
    rw [hm.handlers]
    rfl
  have hl : log m = [] := by
    rw [log, hm.events]
    rfl
  have hstart : Ordered (stored m.contracts) m := .of_none hn (fun c ↦ by rw [hl]; rfl)
    (by rw [hl]; trivial)
  have hwhole : Whole (stored m.contracts) m (after (e.run hash cond code) m) :=
    wholly_perform (coheres_exec hash code) m hm.wf
  obtain ⟨hom, hn'⟩ := hwhole.ordered ho hstart hn
  exact ⟨hom.coherent.consistent, funext fun c ↦
    hom.coherent.stored c fun id g hg ↦ absurd ((hn' id).symm.trans hg) (Option.some_ne_none g).symm⟩

/-- An NFA writes, and has another one write that is of the same contract. -/
def writeBoth : Code :=
  .write (.contractData [(2, 5)])
    (.call (.doNfaAction 1 0 0 0) {} (.tick 5 (.write (.contractData [(1, 7)]) .done))
      (.read .contractData fun _ ↦ .done))

theorem data_of_orderly_writeBoth :
    let m := after ((Execution.actionNfa 2 0 0 0 0).run (fun _ ↦ 0) {} writeBoth) (twoNfas 0)
    Consistent (stored (twoNfas 0).contracts) (log m) ∧
      stored m.contracts = value (stored (twoNfas 0).contracts) (log m) :=
  data_of_orderly (fun _ ↦ 0) {} writeBoth (.actionNfa 2 0 0 0 0) ⟨rfl, rfl, rfl, rfl⟩
    (by decide +kernel)

/-- A contract invokes a function that writes, and writes after it. -/
def invokeAndWrite : Code :=
  .construct (.invoke 1 (.doing 0) 0) {} (.tick 5 (.write (.contractData [(1, 7)]) .done))
    (.tick 5 (.write (.contractData [(2, 5)]) .done))

/-- What the invoked function has written is overwritten with what was copied before. -/
theorem update_lost :
    let x := (Execution.callContractFunction 2 0 (.doing 0) 0).run (fun _ ↦ 0) {} invokeAndWrite
    let m := after x (twoNfas 1)
    Idle (twoNfas 1) ∧ succeeds x (twoNfas 1) = true ∧ (stored m.contracts (0, none))[1]? = none ∧
      (value (stored (twoNfas 1).contracts) (log m) (0, none))[1]? = some 7 :=
  ⟨⟨rfl, rfl, rfl, rfl⟩, by decide +kernel⟩

end Taiyi.Contract
