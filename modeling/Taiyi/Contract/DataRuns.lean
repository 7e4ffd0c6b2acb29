import Taiyi.Contract.Cells

set_option autoImplicit false

namespace Taiyi.Contract

open Library.IdMap Library.Frame Library.Outcome Library.History

/-- What is so of the handlers while no data get lost: one that code gets at is made when there is no
other of its contract, the database is only read for contracts that have none, and none is left
behind. -/
def Event.Orderly : Event → Prop
  | .built _ shown live => shown = true → live = false
  | .fetched _ live => live = false
  | .abandoned _ => False
  | _ => True

instance : DecidablePred Event.Orderly
  | .built _ shown live => inferInstanceAs (Decidable (shown = true → live = false))
  | .fetched _ live => inferInstanceAs (Decidable (live = false))
  | .abandoned _ => isFalse id
  | .entered .. | .used .. | .wroteContract .. | .wroteAccount .. | .readContract ..
  | .readAccount .. | .acted .. | .jumpedOut .. | .jumped | .invoked .. | .startedSession | .squashed
  | .undone => isTrue trivial

def Orderly (m : Machine) : Prop := ∀ e ∈ m.events, e.Orderly

instance (m : Machine) : Decidable (Orderly m) :=
  inferInstanceAs (Decidable (∀ e ∈ m.events, e.Orderly))

/-- The handlers of a run that are left behind it were made for imports into what was there. -/
def Clears (m m' : Machine) : Prop :=
  ∀ id : ℕ, ∀ h : Handler, m'.handlers[id]? = some h →
    id < m.fresh ∨ ∃ p, h.keptBy = some p ∧ p < m.fresh

structure Ordered (init : Cell → Data) (m : Machine) : Prop where
  coherent : Coherent init m
  nested : Nested m

structure Keeping (init : Cell → Data) (m m' : Machine) : Prop where
  wf : Wf m'
  keep : Keep m m'
  saves : saved init (log m') = saved init (log m)
  ordered : Orderly m' → Ordered init m → Ordered init m' ∧ Clears m m'

/-- A run in a virtual machine that counts its drops. -/
def Coheres (init : Cell → Data) (m m' : Machine) : Prop :=
  Wf m → metered m → metered m' ∧ Keeping init m m'

section Preorder

variable {init : Cell → Data} {m m' m'' : Machine}

theorem Keep.handler_back (h : Keep m m') {id : ℕ} (hid : id < m.fresh) {g : Handler}
    (hg : m'.handlers[id]? = some g) : ∃ g', m.handlers[id]? = some g' ∧ g'.who = g.who := by
  have hh := h.handler id hid
  rw [hg] at hh
  exact Option.map_eq_some_iff.mp hh.symm

theorem Clears.trans (hk' : Keep m' m'') (hn : Nested m'') (h : Clears m m')
    (h' : Clears m' m'') : Clears m m'' := by
  have hold : ∀ id : ℕ, ∀ g : Handler, m''.handlers[id]? = some g → id < m'.fresh →
      id < m.fresh ∨ ∃ p, g.keptBy = some p ∧ p < m.fresh := fun id g hg hid ↦ by
    obtain ⟨g', hg', hw⟩ := hk'.handler_back hid hg
    rw [← show g'.keptBy = g.keptBy from congrArg (fun w ↦ w.2.2) hw]
    exact h id g' hg'
  intro id g hg
  rcases h' id g hg with hid | ⟨p, hp, hlt⟩
  · exact hold id g hg hid
  · obtain ⟨-, g', hg', hnone⟩ := hn.kept id p g hg hp
    refine .inr ⟨p, hp, (hold p g' hg' hlt).resolve_right ?_⟩
    rintro ⟨q, hq, -⟩
    rw [hnone] at hq
    cases hq

theorem Keep.orderly (h : Keep m m') (ho : Orderly m') : Orderly m := fun e he ↦ ho e (h.events e he)

theorem Keeping.refl (hw : Wf m) : Keeping init m m :=
  ⟨hw, .refl m, rfl, fun _ ho ↦ ⟨ho, fun id h hh ↦ .inl (hw.handler id h hh).1⟩⟩

theorem Keeping.trans (h : Keeping init m m') (h' : Keeping init m' m'') : Keeping init m m'' where
  wf := h'.wf
  keep := h.keep.trans h'.keep
  saves := h'.saves.trans h.saves
  ordered ho hm := by
    obtain ⟨hm', hc⟩ := h.ordered (h'.keep.orderly ho) hm
    obtain ⟨hm'', hc'⟩ := h'.ordered ho hm'
    exact ⟨hm'', hc.trans h'.keep hm''.nested hc'⟩

instance : IsPreorder Machine (Coheres init) where
  refl _ hw hm := ⟨hm, .refl hw⟩
  trans _ _ _ h h' hw hm := by
    obtain ⟨hm, hk⟩ := h hw hm
    obtain ⟨hm', hk'⟩ := h' hk.wf hm
    exact ⟨hm', hk.trans hk'⟩

end Preorder

section Quiet

/-- What has to do with no data. -/
structure Quiet (m m' : Machine) : Prop where
  within : Within m m'
  contracts : m'.contracts = m.contracts
  log : log m' = log m
  metered : metered m → metered m'

variable {init : Cell → Data} {m m' : Machine}

instance : IsPreorder Machine Quiet where
  refl _ := ⟨⟨rfl, rfl, rfl, fun _ ↦ id, fun _ _ ↦ id⟩, rfl, rfl, id⟩
  trans _ _ _ h h' :=
    ⟨⟨h'.within.envs.trans h.within.envs, h'.within.handlers.trans h.within.handlers,
      h'.within.fresh.trans h.within.fresh, fun e he ↦ h'.within.events e (h.within.events e he),
      fun k id hid ↦ h.within.sandboxes k id (h'.within.sandboxes k id hid)⟩,
      h'.contracts.trans h.contracts, h'.log.trans h.log, h'.metered ∘ h.metered⟩

theorem Quiet.keeping (h : Quiet m m') (hw : Wf m) : Keeping init m m' := by
  have hs : ∀ id, Shown m' id ↔ Shown m id := shown_congr h.within.envs
  refine ⟨h.within.wf hw, h.within.keep, by rw [h.log], fun _ ho ↦ ⟨⟨?_, fun id p g hg hp ↦ ?_,
    fun k id e g hid he hg ↦ ?_⟩, fun id g hg ↦ ?_⟩⟩
  · exact ho.coherent.of_same h.contracts h.within.handlers h.within.envs h.log
  · rw [h.within.handlers] at hg ⊢
    obtain ⟨hsh, hpar⟩ := ho.nested.kept id p g hg hp
    exact ⟨(hs id).mpr hsh, hpar⟩
  · rw [h.within.envs] at he
    rw [h.within.handlers] at hg
    exact ho.nested.sandbox k id e g (h.within.sandboxes k id hid) he hg
  · rw [h.within.handlers] at hg
    exact .inl (hw.handler id g hg).1

theorem Quiet.coheres (h : Quiet m m') : Coheres init m m' :=
  fun hw hm ↦ ⟨h.metered hm, h.keeping hw⟩

theorem quiet_event {e : Event} (he : e.entry = none) (m : Machine) :
    Quiet m { m with events := e :: m.events } := by
  refine ⟨⟨rfl, rfl, rfl, fun _ ↦ List.mem_cons_of_mem _, fun _ _ ↦ id⟩, rfl, ?_, id⟩
  rw [log, List.filterMap_cons, he]
  rfl

theorem coheres_event {e : Event} (he : e.entry = none) (m : Machine) :
    Coheres init m { m with events := e :: m.events } := (quiet_event he m).coheres

theorem loose_quiet : Loose Quiet where
  objects _ _ := ⟨⟨rfl, rfl, rfl, fun _ ↦ id, fun _ _ ↦ id⟩, rfl, rfl, id⟩
  exePoint _ _ := ⟨⟨rfl, rfl, rfl, fun _ ↦ id, fun _ _ ↦ id⟩, rfl, rfl, id⟩

theorem loose_coheres : Loose (Coheres init) where
  objects m o := (loose_quiet.objects m o).coheres
  exePoint m p := (loose_quiet.exePoint m p).coheres

theorem pathless_coheres : Pathless (Coheres init) where
  path _ _ _ := Quiet.coheres ⟨⟨rfl, rfl, rfl, fun _ ↦ id, fun _ _ ↦ id⟩, rfl, rfl, id⟩
  invoked m _ _ := coheres_event rfl m

theorem coheres_runZone (m : Machine) (z : Option ℕ) : Coheres init m { m with runZone := z } :=
  Quiet.coheres ⟨⟨rfl, rfl, rfl, fun _ ↦ id, fun _ _ ↦ id⟩, rfl, rfl, id⟩

theorem quiet_modifyVm {f : Vm → Vm} (he : ∀ vm, vm.enableDrops = true → (f vm).enableDrops = true)
    (hs : ∀ vm, ∀ k id : ℕ, (f vm).sandboxes[k]? = some id → vm.sandboxes[k]? = some id) :
    Moves Quiet (modifyVm f) :=
  .update fun m ↦ ⟨⟨rfl, rfl, rfl, fun _ ↦ id, hs m.vm⟩, rfl, rfl, he m.vm⟩

theorem quiet_spend {cost : ℕ} : Moves Quiet (spend cost) :=
  quiet_modifyVm (fun _ ↦ id) fun _ _ _ ↦ id

theorem quiet_allocate {cost : ℕ} : Moves Quiet (allocate cost) :=
  .bind quiet_spend fun _ ↦ .bind .get fun _ ↦ .ite (fun _ ↦ .bind .get fun _ ↦
    .ite (fun _ ↦ .throw _) fun _ ↦ .bind (.update (quiet_event rfl)) fun _ ↦ .throw _)
    fun _ ↦ .pure _

theorem quiet_setup {setup : Setup} : Moves Quiet setup.run :=
  .bind quiet_allocate fun _ ↦ moves_require

theorem quiet_clearGlobal {k : ℕ} : Moves Quiet (clearGlobal k) := by
  refine quiet_modifyVm (fun _ ↦ id) fun vm k' id hid ↦ ?_
  rw [getElem?_erase] at hid
  split at hid
  · cases hid
  · exact hid

theorem quiet_setCurrent {current : Option ℕ} : Moves Quiet (setCurrent current) :=
  quiet_modifyVm (fun _ ↦ id) fun _ _ _ ↦ id

theorem quiet_restoreCurrent {current : Option ℕ} : Moves Quiet (restoreCurrent current) := by
  cases current with
  | some => exact quiet_setCurrent
  | none => exact .pure _

theorem quiet_leaveSandbox {current : Option ℕ} {k : ℕ} {close : Bool} :
    Moves Quiet (leaveSandbox current k close) := by
  refine .ite (fun _ ↦ .pure _) fun _ ↦ .bind (.ite (fun _ ↦ ?_) fun _ ↦ .pure _)
    fun _ ↦ quiet_setCurrent
  exact .bind quiet_clearGlobal fun _ ↦ quiet_allocate

theorem coheres_of_quiet {α : Type} {x : Run α} (h : Moves Quiet x) : Moves (Coheres init) x :=
  h.mono fun _ _ hq ↦ hq.coheres

theorem coheres_luaPcall {x : Run Unit} (hx : Moves (Coheres init) x) :
    Moves (Coheres init) (luaPcall x) := by
  have hset : ∀ n, Moves (Coheres init) (setProtected n) := fun n ↦
    coheres_of_quiet (quiet_modifyVm (fun _ ↦ id) fun _ _ _ ↦ id)
  exact .bind .get fun _ ↦ .bind (hset _) fun _ ↦ .bind hx.attempt fun _ ↦ .bind (hset _) fun _ ↦
    .pure _

end Quiet

section Handlers

variable {init : Cell → Data} {m m' : Machine}

theorem coheres_withAccount {k : ℕ} {c : ContractObject} (hc : m.contracts[k]? = some c) (a : ℕ) :
    Coheres init m { m with contracts := m.contracts.insert k (c.withAccount a) } := by
  have hin : Within m { m with contracts := m.contracts.insert k (c.withAccount a) } :=
    ⟨rfl, rfl, rfl, fun _ ↦ id, fun _ _ ↦ id⟩
  intro hw hm
  refine ⟨hm, hin.wf hw, hin.keep, rfl, fun _ ho ↦ ⟨⟨ho.coherent.withAccount hc a, ?_⟩, ?_⟩⟩
  · exact ⟨ho.nested.kept, ho.nested.sandbox⟩
  · exact fun id g hg ↦ .inl (hw.handler id g hg).1

theorem coheres_modifyContract {k a : ℕ} : Moves (Coheres init)
    (modifyContract k fun c ↦ { c with accountData := c.accountData.insertIfNew a ∅ }) := by
  intro m
  refine Moves.bind_at (moves_getContract m) fun c t ht ↦ ?_
  obtain ⟨hc, rfl⟩ := getContract_ok ht
  exact coheres_withAccount hc a

/-- A new handler, before code gets at it. -/
theorem ordered_newHandler {g : Handler} {c : ContractObject} (hw : Wf m) (ho : Ordered init m)
    (hk : g.keptBy = none) (hc : m.contracts[g.contract]? = some c)
    (hg : ∀ cell d, g.copy cell = some d → d = stored m.contracts cell) :
    Ordered init { m with handlers := m.handlers.insert m.fresh g, fresh := m.fresh + 1 } := by
  refine ⟨ho.coherent.newHandler hw hc hg, fun id p g' hg' hp ↦ ?_, fun k id e g' hid he hg' ↦ ?_⟩
  · rw [getElem?_insert] at hg'
    split at hg'
    · cases hg'
      rw [hk] at hp
      cases hp
    · obtain ⟨hs, g'', hg'', hnone⟩ := ho.nested.kept id p g' hg' hp
      refine ⟨hs, g'', ?_, hnone⟩
      rw [getElem?_insert, if_neg (Nat.ne_of_gt (hw.handler p g'' hg'').1)]
      exact hg''
  · rw [getElem?_insert, if_neg (Nat.ne_of_gt (hw.env id e he).2)] at hg'
    exact ho.nested.sandbox k id e g' hid he hg'

theorem copy_stored {contracts : Table ContractObject} {g : Handler} {c : ContractObject}
    (hc : contracts[g.contract]? = some c) (hd : g.contractData = c.contractData)
    (ha : c.accountData[g.caller]? = some g.accountData) (cell : Cell) (d : Data)
    (h : g.copy cell = some d) : d = stored contracts cell := by
  obtain ⟨k', _ | b⟩ := cell <;>
    simp only [Handler.copy, Option.ite_none_right_eq_some, Option.some.injEq] at h
  · obtain ⟨rfl, rfl⟩ := h
    simp only [stored, hc, hd]
    rfl
  · obtain ⟨⟨rfl, rfl⟩, rfl⟩ := h
    simp only [stored, hc, Option.bind_some, ha]
    rfl

theorem Wf.withContracts (hw : Wf m) (contracts : Table ContractObject) :
    Wf { m with contracts := contracts } :=
  Within.wf (m := m) ⟨rfl, rfl, rfl, fun _ ↦ id, fun _ _ ↦ id⟩ hw

theorem ordered_newHandler_ok {a k id : ℕ} {n : Option ℕ} {eval : Bool} (hw : Wf m)
    (ho : Ordered init m) (h : (newHandler a n k eval none).run m = .ok id m') :
    Ordered init m' := by
  obtain ⟨c, d, hc, hd, -, rfl⟩ := newHandler_ok h
  have ho' : Ordered init { m with contracts := m.contracts.insert k (c.withAccount a) } :=
    ⟨ho.coherent.withAccount hc a, ho.nested.kept, ho.nested.sandbox⟩
  have hrow : (m.contracts.insert k (c.withAccount a))[k]? = some (c.withAccount a) := by
    rw [getElem?_insert, if_pos rfl]
  exact ordered_newHandler (hw.withContracts _) ho' rfl hrow (copy_stored hrow rfl hd)

/-- When a handler goes, those that came after it were kept by it or by others. -/
theorem Ordered.alone (ho : Ordered init m) {id : ℕ} (hs : Shown m id)
    (hlast : ∀ id' : ℕ, ∀ g : Handler, m.handlers[id']? = some g → id < id' → g.keptBy ≠ none) :
    Alone m id := by
  intro id' g g' hg hg' hk
  rcases (ho.coherent.first id id' g g' hg hs hg' hk).lt_or_eq with hlt | he
  · obtain ⟨p, hp⟩ := Option.ne_none_iff_exists'.mp (hlast id' g' hg' hlt)
    have hs' := (ho.nested.kept id' p g' hg' hp).1
    exact le_antisymm (ho.coherent.first id' id g' g hg' hs' hg hk.symm) hlt.le
  · exact he.symm

theorem ordered_deleteHandler {id : ℕ} (hw : Wf m) (ho : Ordered init m)
    (hlast : ∀ id' : ℕ, ∀ g : Handler, m.handlers[id']? = some g → id < id' → g.keptBy ≠ none) :
    Ordered init (after (deleteHandler id) m) := by
  have hd := deletes id m
  refine ⟨?_, fun a p g hg hp ↦ ?_, fun k a e g ha he hg ↦ ?_⟩
  · refine Coherent.foldl_saveHandler (ho.coherent.saveHandler fun hs ↦ ho.alone hs hlast)
      fun a ha hs ↦ ?_
    obtain ⟨g, hg, hk⟩ := mem_subHandlers.mp ha
    refine Alone.saveHandler (ho.alone ((shown_saveHandler id a).mp hs) fun id' g' hg' hlt ↦ ?_) id
    exact hlast id' g' hg' (((hw.handler a g hg).2 id hk).trans hlt)
  · obtain ⟨hg, hne, hkept⟩ := (hd.handlers a g).mp hg
    obtain ⟨hs, g', hg', hnone⟩ := ho.nested.kept a p g hg hp
    refine ⟨(shown_congr hd.envs a).mpr hs, g', (hd.handlers p g').mpr ⟨hg', ?_, ?_⟩, hnone⟩
    · rintro rfl
      exact hkept hp
    · rw [hnone]
      exact fun h ↦ nomatch h
  · rw [hd.vm] at ha
    rw [hd.envs] at he
    exact ho.nested.sandbox k a e g ha he ((hd.handlers _ g).mp hg).1

theorem coheres_newHandler_error {a k : ℕ} {n p : Option ℕ} {eval : Bool} :
    ∀ err t, (newHandler a n k eval p).run m = .error err t → Coheres init m t := by
  refine Throws.bind_at (P := fun _ ↦ Coheres init m) (fun err t h ↦ ?_) fun _ t ht ↦ ?_
  · exact after_error h ▸ coheres_modifyContract m
  · have hmod : Coheres init m t := after_ok ht ▸ coheres_modifyContract m
    refine Throws.bind_at (fun err u h ↦ ?_) fun c u hu ↦ ?_
    · exact after_error h ▸ trans_of (Coheres init) hmod (moves_getContract t)
    · obtain ⟨-, rfl⟩ := getContract_ok hu
      refine Throws.bind_at (fun err s h ↦ ?_) fun d s _ err' s' h ↦ ?_
      · exact after_error h ▸ trans_of (Coheres init) hmod (moves_lookup u)
      · cases h

/-- What a call does with its handler is over when the handler goes. -/
theorem coheres_withHandler {a k : ℕ} {n : Option ℕ} {eval : Bool} {x : ℕ → Run Unit}
    (hx : ∀ id t, (newHandler a n k eval none).run m = .ok id t →
      Coheres init t (after (x id) t)) :
    Coheres init m (after (withHandler a n k eval x) m) := by
  intro hw hm
  have hnew : Steady none m (after (newHandler a n k eval none) m) :=
    steady_newHandler (fun _ h ↦ nomatch h) hw hm fun _ h ↦ nomatch h
  cases hr : (newHandler a n k eval none).run m with
  | error err t =>
    rw [withHandler, after_bind_error hr]
    exact coheres_newHandler_error err t hr hw hm
  | ok id t =>
    rw [after_ok hr] at hnew
    obtain ⟨hmx, hkx⟩ := hx id t hr hnew.wf hnew.metered
    obtain ⟨c, d, -, -, rfl, ht⟩ := newHandler_ok hr
    have hlt : t.fresh = m.fresh + 1 := by rw [ht]
    rw [withHandler, after_bind_ok hr]
    rcases after_unwind m.fresh (x m.fresh) t with he | ⟨hj, he⟩
    · rw [he]
      have hd := deletes m.fresh (after (x m.fresh) t)
      have hkept : ∀ g : Handler, (after (x m.fresh) t).handlers[m.fresh]? = some g →
          g.keptBy = none := fun g hg ↦ by
        obtain ⟨g', hg', hwho⟩ := hkx.keep.handler_back (by omega) hg
        rw [ht, getElem?_insert, if_pos rfl] at hg'
        cases hg'
        exact (congrArg (fun w ↦ w.2.2) hwho).symm
      have hsaves : saved init (log (after (deleteHandler m.fresh) (after (x m.fresh) t))) =
          saved init (log m) := by
        rw [log, hd.events]
        refine hkx.saves.trans ?_
        rw [ht]
        rfl
      refine ⟨hd.metered hmx, hd.wf hkx.wf hkept,
        hd.keep hw (hnew.keep.trans hkx.keep) le_rfl, hsaves, fun ho hom ↦ ?_⟩
      have hou : Orderly (after (x m.fresh) t) := fun e he ↦ ho e (hd.events ▸ he)
      obtain ⟨hin, hclear⟩ := hkx.ordered hou (ordered_newHandler_ok hw hom hr)
      have hnewer : ∀ a : ℕ, ∀ g : Handler, (after (x m.fresh) t).handlers[a]? = some g →
          a < m.fresh + 1 ∨ ∃ p, g.keptBy = some p ∧ p < m.fresh + 1 := fun a g hg ↦
        hlt ▸ hclear a g hg
      refine ⟨ordered_deleteHandler hkx.wf hin fun a g hg hlta hnone ↦ ?_, fun a g hg ↦ ?_⟩
      · obtain ha | ⟨p, hp, -⟩ := hnewer a g hg
        · omega
        · rw [hnone] at hp
          cases hp
      · obtain ⟨hg, hne, hne'⟩ := (hd.handlers a g).mp hg
        refine (hnewer a g hg).imp (by omega) ?_
        rintro ⟨p, hp, hpl⟩
        have : p ≠ m.fresh := fun hpe ↦ hne' (hpe ▸ hp)
        exact ⟨p, hp, by omega⟩
    · rw [after_error hj]
      have hleft : Keeping init (after (x m.fresh) t)
          { after (x m.fresh) t with
            events := .abandoned m.fresh :: (after (x m.fresh) t).events } :=
        (quiet_event rfl _).keeping hkx.wf
      have hsaves : saved init (log t) = saved init (log m) := by
        rw [ht]
        rfl
      exact ⟨hmx, hleft.wf, (hnew.keep.trans hkx.keep).trans hleft.keep,
        (hleft.saves.trans hkx.saves).trans hsaves, fun ho ↦ (ho _ List.mem_cons_self).elim⟩

end Handlers

section Sandboxes

variable {init : Cell → Data} {m m' : Machine} {current : Option ℕ} {c : Call} {frame : Frame}
  {cond : Conditions} {body : Frame → ℕ → Run Unit}

/-- Code gets at the handler of a call through the new sandbox. -/
theorem coheres_sandbox {k : ℕ} {e : Env} {g : Handler} (hi : e.imported = ∅)
    (hg : m.handlers[e.contractHelper]? = some g) (hk : g.keptBy = none)
    (hs : ¬Shown m e.contractHelper) (ha : Orderly m → Alone m e.contractHelper) :
    Coheres init m
      { m with
        envs := m.envs.insert m.fresh e
        fresh := m.fresh + 1
        vm := { m.vm with sandboxes := m.vm.sandboxes.insert k m.fresh } } := by
  intro hw hm
  have hst := steadily_sandbox (k := k) rfl hi hw hm fun a ha ↦
    Option.some.inj ha ▸ (hw.handler _ g hg).1
  have hshown : ∀ a, Shown m a → Shown
      { m with
        envs := m.envs.insert m.fresh e
        fresh := m.fresh + 1
        vm := { m.vm with sandboxes := m.vm.sandboxes.insert k m.fresh } } a := by
    rintro a ⟨b, e', he', hc⟩
    exact ⟨b, e', by rw [getElem?_insert, if_neg (Nat.ne_of_gt (hw.env b e' he').1), he'], hc⟩
  refine ⟨hst.metered, hst.wf, hst.keep, rfl, fun ho hom ↦ ⟨⟨hom.coherent.newEnv hw (ha ho) hs,
    fun id p g' hg' hp ↦ ?_, fun k' id e' g' hid he' hg' ↦ ?_⟩, fun id g' hg' ↦ ?_⟩⟩
  · exact (hom.nested.kept id p g' hg' hp).imp_left (hshown id)
  · rw [getElem?_insert] at he'
    split at he'
    · cases he'
      rw [hg] at hg'
      cases hg'
      exact hk
    · next hne =>
      rw [getElem?_insert] at hid
      split at hid
      · exact absurd (Option.some.inj hid) hne
      · exact hom.nested.sandbox k' id e' g' hid he' hg'
  · exact .inl (hw.handler id g' hg').1

theorem hasHandler_false {k : ℕ} (h : hasHandler m k = false) (id : ℕ) (g : Handler)
    (hg : m.handlers[id]? = some g) : g.contract ≠ k := by
  rintro rfl
  refine Bool.false_ne_true (h.symm.trans (List.any_eq_true.mpr ⟨(id, g), ?_, ?_⟩))
  · exact (mem_toList _ _ _).mpr hg
  · exact decide_eq_true rfl

/-- A call whose handler is not in the hands of code yet, and that was noted when there was none. -/
structure Called (current : Option ℕ) (k ch : ℕ) (m : Machine) : Prop where
  handler : ∃ g : Handler, m.handlers[ch]? = some g ∧ g.keptBy = none
  hidden : ¬Shown m ch
  built : ∃ live, Event.built k (showsHandler m current k) live ∈ m.events ∧
    (live = false → Alone m ch)

theorem coheres_ensureSandbox {k : ℕ} {e : Env} {setup : Setup} (hi : e.imported = ∅)
    (hk : current ≠ some k) (h : Called current k e.contractHelper m) :
    Coheres init m (after (ensureSandbox k e setup) m) := by
  refine Moves.bind_at (Moves.get m) fun _ _ hg ↦ ?_
  cases hg
  split
  · exact Moves.pure _ m
  · next hnone =>
    refine Moves.bind_at (coheres_of_quiet quiet_setup m) fun _ t ht ↦ ?_
    have hq : Quiet m t := after_ok ht ▸ quiet_setup m
    obtain ⟨⟨g, hg, hgk⟩, hhid, live, hb, halone⟩ := h
    have hshows : showsHandler m current k = true := by
      unfold showsHandler
      rw [hnone, decide_eq_true hk]
      rfl
    refine coheres_sandbox (g := g) hi (hq.within.handlers ▸ hg) hgk
      (mt (shown_congr hq.within.envs _).mp hhid) fun ho ↦ ?_
    have hlive := ho _ (hq.within.events _ hb) hshows
    unfold Alone
    rw [hq.within.handlers]
    exact halone hlive

theorem coheres_callInSandbox {ch : ℕ} (hbody : ∀ e, Moves (Coheres init) (body frame e))
    (h : Called current c.contract ch m) :
    Coheres init m (after (callInSandbox current c frame cond body ch) m) := by
  refine Moves.bind_at ?_ fun isNew t _ ↦ ?_
  · unfold enterSandbox
    split
    · exact Moves.pure _ m
    · next hk =>
      exact Moves.bind_at (coheres_ensureSandbox rfl hk h) fun isNew t _ ↦
        Moves.bind (coheres_of_quiet quiet_setCurrent) (fun _ ↦ .pure _) t
  · exact Moves.bind moves_require (fun _ ↦ .bind (coheres_of_quiet quiet_allocate) fun _ ↦
      .bind (coheres_luaPcall (moves_runFunction hbody)) fun _ ↦ .bind (coheres_of_quiet quiet_leaveSandbox)
      fun _ ↦
      .bind moves_raise fun _ ↦ moves_require) t

theorem coheres_callFunction (hbody : ∀ e, Moves (Coheres init) (body frame e)) :
    Moves (Coheres init) (callFunction current c frame cond body) := by
  intro m hw
  refine Moves.bind_at (R := Coheres init) (Moves.get m) (fun _ _ hg ↦ ?_) hw
  cases hg
  refine Moves.bind_at (coheres_event rfl m) fun _ t ht ↦ ?_
  cases ht
  refine Moves.bind_at (coheres_event rfl _) fun _ t ht ↦ ?_
  cases ht
  refine coheres_withHandler fun id t hn ↦ coheres_callInSandbox hbody ?_
  obtain ⟨row, d, -, -, rfl, rfl⟩ := newHandler_ok hn
  refine ⟨⟨_, by rw [getElem?_insert, if_pos rfl], rfl⟩, hw.not_shown, _,
    List.mem_cons_of_mem _ List.mem_cons_self, fun hlive id' g g' hg hg' hk ↦ ?_⟩
  rw [getElem?_insert, if_pos rfl] at hg
  cases hg
  rw [getElem?_insert] at hg'
  split at hg'
  · next he => exact he.symm
  · exact absurd hk (hasHandler_false hlive id' g' hg')

theorem coheres_call (hbody : ∀ e, Moves (Coheres init) (body frame e)) :
    Moves (Coheres init)
      (onAssertion (callFunction current c frame cond body) (restoreCurrent current)) :=
  moves_onAssertion (coheres_callFunction hbody) (coheres_of_quiet quiet_restoreCurrent)

end Sandboxes

end Taiyi.Contract
