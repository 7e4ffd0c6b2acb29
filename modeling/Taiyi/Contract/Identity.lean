import Taiyi.Contract.Stays

set_option autoImplicit false

namespace Taiyi.Contract

open Library.IdMap Library.Frame Library.Outcome

/-- Code that is called in a sandbox that was there before finds its own helpers in it. -/
def Fair (m : Machine) : Prop :=
  ∀ frame : Frame, ∀ v : View, Event.entered frame (some v) ∈ m.events → v = frame.view

/-- Whenever code used its helpers, they referred to whom it ran for. -/
def Right (m : Machine) : Prop :=
  ∀ frame : Frame, ∀ seen : Option View, Event.used frame seen ∈ m.events → seen = some frame.view

def Event.isUse : Event → Bool
  | .used .. => true
  | _ => false

def uses (m : Machine) : List Event := m.events.filter Event.isUse

theorem Right.of_uses {m m' : Machine} (h : Right m) (hu : uses m' = uses m) : Right m' := by
  intro frame seen he
  have hm : Event.used frame seen ∈ uses m' := List.mem_filter.mpr ⟨he, rfl⟩
  rw [hu] at hm
  exact h frame seen (List.mem_filter.mp hm).1

theorem Keep.fair {m m' : Machine} (h : Keep m m') (hf : Fair m') : Fair m :=
  fun frame v he ↦ hf frame v (h.events _ he)

/-- The contract that is noted as the one that runs runs for whom the code does. -/
def Leads (f : Frame) (m : Machine) : Prop :=
  m.vm.currentContract ≠ none ∧ ∀ k : ℕ, ∀ v : View, m.vm.currentContract = some k →
    boundView m k = some v → v.handler = none ∨ v = { f with contract := k }.view

structure Known (f : Frame) (e : ℕ) (m : Machine) : Prop where
  sees : (m.envs[e]?).map (viewOf m) = some f.view
  leads : Spent m ∨ Leads f m

section Stability

variable {m m' : Machine} {f : Frame} {e : ℕ}

theorem boundView_some {k : ℕ} {v : View} :
    boundView m k = some v ↔
      ∃ id g, m.vm.sandboxes[k]? = some id ∧ m.envs[id]? = some g ∧ viewOf m g = v := by
  unfold boundView
  simp only [Option.bind_eq_bind, Option.bind_eq_some_iff, Option.pure_def, Option.some.injEq]
  constructor
  · rintro ⟨id, hid, g, hg, hv⟩
    exact ⟨id, g, hid, hg, hv⟩
  · rintro ⟨id, g, hid, hg, hv⟩
    exact ⟨id, hid, g, hg, hv⟩

theorem boundView_eq (h : bindings m' = bindings m) (k : ℕ) : boundView m' k = boundView m k := by
  simp only [bindings, Prod.mk.injEq] at h
  obtain ⟨-, hs, he, hh⟩ := h
  have hv : viewOf m' = viewOf m := funext fun g ↦ by rw [viewOf_eq, viewOf_eq m, hh]
  unfold boundView
  rw [hs, he, hv]

/-- What a sandbox that stays is bound to stays. -/
theorem Keep.boundView (h : Keep m m') (hw : Wf m) {k id : ℕ} {v : View}
    (hs : m.vm.sandboxes[k]? = some id) (hs' : m'.vm.sandboxes[k]? = some id)
    (hv : boundView m' k = some v) : boundView m k = some v := by
  obtain ⟨g, hg⟩ := hw.sandbox k id hs
  obtain ⟨id', g', hid', hg', rfl⟩ := boundView_some.mp hv
  cases hs'.symm.trans hid'
  have hview := h.view hw hg
  rw [hg', Option.map_some] at hview
  exact boundView_some.mpr ⟨id, g, hs, hg, (Option.some.inj hview).symm⟩

theorem Leads.stay (hl : Leads f m) (hw : Wf m) (h : Stay m m') : Spent m' ∨ Leads f m' := by
  rcases h.current with hs | hn | hc
  · exact .inl hs
  · exact absurd hn hl.1
  refine h.steady.opens.imp_right fun ho ↦ ⟨hc ▸ hl.1, fun k v hk hv ↦ ?_⟩
  obtain ⟨id, g, hid, hg, rfl⟩ := boundView_some.mp hv
  rcases ho k id hid with hid' | ⟨-, hd | hd⟩
  · exact hl.2 k _ (hc ▸ hk) (h.steady.keep.boundView hw hid' hid hv)
  · exact .inl (by rw [viewOf, hd g hg, Option.map_none])
  · exact nomatch hd g hg

theorem Known.stay (hk : Known f e m) (hw : Wf m) (h : Stay m m') : Known f e m' := by
  refine ⟨?_, ?_⟩
  · obtain ⟨g, hg, hv⟩ := Option.map_eq_some_iff.mp hk.sees
    rw [h.steady.keep.view hw hg, hv]
  · rcases hk.leads with hs | hl
    · exact .inl (h.steady.spent hs)
    · exact hl.stay hw h

end Stability

/-- A run of code in a table for a frame. -/
structure Turn (f : Frame) (e : ℕ) (m m' : Machine) : Prop where
  stay : Stay m m'
  right : Known f e m → Fair m' → Right m → Right m'

def Turns (f : Frame) (e : ℕ) (m m' : Machine) : Prop := Wf m → metered m → Turn f e m m'

/-- A step that costs nothing. -/
def StillTurns (f : Frame) (e : ℕ) (m m' : Machine) : Prop :=
  Turns f e m m' ∧ m'.vm.drops = m.vm.drops

/-- A run that starts with budget left. -/
def LiveTurns (f : Frame) (e : ℕ) (m m' : Machine) : Prop := ¬Spent m → Turns f e m m'

section Turns

variable {f : Frame} {e : ℕ} {m m' m'' : Machine} {α β : Type}

theorem Turn.trans (hw : Wf m) (h : Turn f e m m') (h' : Turn f e m' m'') : Turn f e m m'' where
  stay := h.stay.trans h'.stay
  right hk hf hr :=
    h'.right (hk.stay hw h.stay) hf (h.right hk (h'.stay.steady.keep.fair hf) hr)

instance : IsPreorder Machine (Turns f e) where
  refl m hw hm := ⟨refl_of Stays m hw hm, fun _ _ ↦ id⟩
  trans _ _ _ h h' hw hm :=
    have ht := h hw hm
    ht.trans hw (h' ht.stay.steady.wf ht.stay.steady.metered)

instance : IsPreorder Machine (StillTurns f e) where
  refl m := ⟨refl_of (Turns f e) m, rfl⟩
  trans _ _ _ h h' := ⟨trans_of (Turns f e) h.1 h'.1, h'.2.trans h.2⟩

theorem turns_of_stays (h : Stays m m') (hu : uses m' = uses m) : Turns f e m m' :=
  fun hw hm ↦ ⟨h hw hm, fun _ _ hr ↦ hr.of_uses hu⟩

theorem turns_moves {x : Run α} (hs : Moves Stays x) (hu : Moves (Same uses) x) :
    Moves (Turns f e) x :=
  fun m ↦ turns_of_stays (hs m) (hu m)

theorem loose_still : Loose (StillTurns f e) where
  objects m o := ⟨turns_of_stays (loose_stays.objects m o) rfl, rfl⟩
  exePoint m p := ⟨turns_of_stays (loose_stays.exePoint m p) rfl, rfl⟩

theorem still_runZone (m : Machine) (z : Option ℕ) : StillTurns f e m { m with runZone := z } :=
  ⟨turns_of_stays (stays_runZone m z) rfl, rfl⟩

theorem still_contracts (m : Machine) (c : Table ContractObject) :
    StillTurns f e m { m with contracts := c } :=
  ⟨turns_of_stays (stays_contracts m c) rfl, rfl⟩

theorem still_event (m : Machine) {ev : Event} (he : ev.isUse = false) :
    StillTurns f e m { m with events := ev :: m.events } := by
  refine ⟨turns_of_stays (stays_events m ev) ?_, rfl⟩
  rw [uses, List.filter_cons, he]
  rfl

theorem pathless_turns : Pathless (Turns f e) where
  path _ _ _ :=
    turns_of_stays (stays_of_steadily (steadily_outside rfl rfl rfl rfl fun _ ↦ id) rfl) rfl
  invoked m _ _ := (still_event m rfl).1

theorem still_note {ev : Event} (he : ev.isUse = false) : Moves (StillTurns f e) (note ev) :=
  .update fun m ↦ still_event m he

/-- What the code sees when it uses its helpers. -/
theorem still_noteUse : Moves (StillTurns f e) (noteUse f e) := by
  intro m
  refine ⟨fun hw hm ↦ ⟨stays_events m _ hw hm, fun hk _ hr f' s he ↦ ?_⟩, rfl⟩
  rcases List.mem_cons.mp he with he | he
  · cases he
    exact hk.sees
  · exact hr f' s he

theorem Turns.live (h : Turns f e m m') : LiveTurns f e m m' := fun _ ↦ h

theorem live_bind {x : Run α} {g : α → Run β} (hx : Moves (StillTurns f e) x)
    (hg : ∀ a, Moves (LiveTurns f e) (g a)) : Moves (LiveTurns f e) (x >>= g) := by
  intro m hs
  refine Moves.bind_at (hx m).1 fun a t ht ↦ hg a t fun hst ↦ hs ?_
  have hd := (hx m).2
  rw [after_ok ht] at hd
  unfold Spent at *
  rwa [← hd]

theorem live_then {x : Run α} {g : α → Run β} (hx : Moves (LiveTurns f e) x)
    (hg : ∀ a, Moves (Turns f e) (g a)) : Moves (LiveTurns f e) (x >>= g) :=
  fun m hs ↦ Moves.bind_at (hx m hs) fun a t _ ↦ hg a t

/-- Behind the check of the interpreter there is budget left. -/
theorem turns_budget {x : Run α} (hx : Moves (LiveTurns f e) x) :
    Moves (Turns f e) (checkBudget >>= fun _ ↦ x) := by
  intro m hw hm
  refine Moves.bind_at (R := Turns f e) (moves_checkBudget m) (fun _ t ht ↦ ?_) hw hm
  obtain ⟨_, _, hg, hi⟩ := bind_ok.mp ht
  cases hg
  split at hi
  · cases hi
  · next hb =>
    cases hi
    exact hx m fun hs ↦ hb ⟨hm, hs⟩

end Turns

section Uses

variable {R : Machine → Machine → Prop}

theorem above_uses : Above (Same uses) := ⟨fun _ _ _ ↦ rfl, fun _ _ ↦ rfl, fun _ ↦ rfl⟩

theorem uses_newHandler {a k : ℕ} {n p : Option ℕ} {eval : Bool} :
    Moves (Same uses) (newHandler a n k eval p) :=
  moves_newHandler (fun _ _ ↦ rfl) fun _ _ _ ↦ rfl

theorem Deletes.uses {ch : ℕ} {m m' : Machine} (h : Deletes ch m m') : uses m' = uses m :=
  congrArg (List.filter Event.isUse) h.events

end Uses

/-- The objects of a call are made for the frame that it is meant to run in. -/
structure Matches (c : Call) (frame : Frame) : Prop where
  caller : c.caller = frame.caller
  contract : c.contract = frame.contract
  nfa : c.nfa = frame.nfa
  infoCaller : c.infoCaller = frame.caller

section Call

variable {current : Option ℕ} {c : Call} {frame : Frame} {cond : Conditions}
  {body : Frame → ℕ → Run Unit} {ch : ℕ} {m m' : Machine}

theorem viewOf_callEnv (hmatch : Matches c frame)
    (hch : (m.handlers[ch]?).map Handler.who = some (c.caller, c.contract, none)) :
    viewOf m (c.env ch) = frame.view := by
  rw [viewOf_eq, show (c.env ch).contractHelper = ch from rfl, hch]
  simp only [Env.helpers, Call.env, Frame.view, hmatch.caller, hmatch.contract, hmatch.nfa,
    hmatch.infoCaller, Option.map_map, Option.map_some]
  rfl

theorem handlers_setup {setup : Setup} : Moves (Same Machine.handlers) setup.run := by
  have h : Above (Same Machine.handlers) := ⟨fun _ _ _ ↦ rfl, fun _ _ ↦ rfl, fun _ ↦ rfl⟩
  exact moves_setup h

/-- What the sandbox is bound to that a call runs in. -/
theorem enterSandbox_ok {isNew : Bool} (hmatch : Matches c frame)
    (hch : (m.handlers[ch]?).map Handler.who = some (c.caller, c.contract, none))
    (hc : current = m.vm.currentContract)
    (h : (enterSandbox current c.contract (c.env ch) cond.setup).run m = .ok isNew m') :
    m'.vm.currentContract = some c.contract ∧
      ∀ v, boundView m' c.contract = some v →
        boundView m c.contract = some v ∨ v = frame.view := by
  unfold enterSandbox at h
  split at h
  · next hcur =>
    cases h
    exact ⟨hc ▸ hcur, fun v hv ↦ .inl hv⟩
  · obtain ⟨b, t, he, h₁⟩ := bind_ok.mp h
    obtain ⟨_, u, hs, h₂⟩ := bind_ok.mp h₁
    cases hs
    cases h₂
    refine ⟨rfl, fun v hv ↦ ?_⟩
    obtain ⟨_, _, hg, h₃⟩ := bind_ok.mp he
    cases hg
    split at h₃
    · cases h₃
      exact .inl hv
    · obtain ⟨_, t', hset, h₄⟩ := bind_ok.mp h₃
      obtain ⟨id, _, hnew, h₅⟩ := bind_ok.mp h₄
      cases hnew
      cases h₅
      obtain ⟨id, g, hid, hg, rfl⟩ := boundView_some.mp hv
      simp only [getElem?_insert, if_true] at hid
      cases hid
      simp only [getElem?_insert, if_true] at hg
      cases hg
      have hh : t'.handlers = m.handlers := after_ok hset ▸ handlers_setup m
      refine .inr (viewOf_callEnv hmatch ?_)
      dsimp only
      rw [hh]
      exact hch

/-- A part of a call that is made with a handler. -/
def Rightly (ch : ℕ) (m m' : Machine) : Prop :=
  Wf m → metered m → ch < m.fresh → Steady (some ch) m m' ∧ (Fair m' → Right m → Right m')

instance : IsPreorder Machine (Rightly ch) where
  refl m hw hm hc :=
    ⟨refl_of (Steadily (some ch)) m hw hm fun _ h ↦ Option.some.inj h ▸ hc, fun _ ↦ id⟩
  trans _ _ _ h h' hw hm hc := by
    obtain ⟨hs, hr⟩ := h hw hm hc
    obtain ⟨hs', hr'⟩ := h' hs.wf hs.metered (hc.trans_le hs.keep.fresh)
    exact ⟨hs.trans hs', fun hf ↦ hr' hf ∘ hr (hs'.keep.fair hf)⟩

theorem rightly_moves {α : Type} {x : Run α} (hs : Moves (Steadily (some ch)) x)
    (hu : Moves (Same uses) x) : Moves (Rightly ch) x :=
  fun m hw hm hc ↦
    ⟨hs m hw hm fun _ h ↦ Option.some.inj h ▸ hc, fun _ hr ↦ hr.of_uses (hu m)⟩

theorem rightly_setProtected (n : ℕ) : Moves (Rightly ch) (setProtected n) :=
  rightly_moves (.update fun _ ↦ steadily_vm rfl (fun _ ↦ le_rfl) fun _ _ ↦ id)
    (.update fun _ ↦ rfl)

variable (hbody : ∀ f e, Moves (Turns f e) (body f e))
include hbody

omit hbody in
theorem Turns.stays {f : Frame} {e : ℕ} (h : Turns f e m m') : Stays m m' :=
  fun hw hm ↦ (h hw hm).stay

/-- The function runs with helpers that are its own, when its sandbox is bound to them. -/
theorem rightly_runFunction (hmatch : Matches c frame)
    (hcur : m.vm.currentContract = some c.contract)
    (hbound : ∀ v, boundView m c.contract = some v → v = frame.view) :
    Rightly ch m (after (runFunction c frame body) m) := by
  refine Moves.bind_at (Moves.get m) fun _ _ hg ↦ ?_
  cases hg
  refine Moves.bind_at (moves_lookup m) fun id t ht ↦ ?_
  obtain ⟨hid, rfl⟩ := lookup_ok ht
  intro hw hm _
  have hturn := hbody frame id t hw hm
  refine ⟨hturn.stay.steady.weaken, hturn.right ⟨?_, .inr ⟨?_, fun k v hk hv ↦ ?_⟩⟩⟩
  · obtain ⟨g, hg⟩ := hw.sandbox _ id hid
    rw [hg, Option.map_some, hbound _ (boundView_some.mpr ⟨id, g, hid, hg, rfl⟩)]
  · rw [hcur]
    exact fun h ↦ nomatch h
  · cases hcur.symm.trans hk
    right
    rw [hbound v hv, hmatch.contract]

/-- The state before the function is run is as it is when the sandbox was entered. -/
theorem rightly_luaPcall (hmatch : Matches c frame)
    (hcur : m.vm.currentContract = some c.contract)
    (hbound : ∀ v, boundView m c.contract = some v → v = frame.view) :
    Rightly ch m (after (luaPcall (runFunction c frame body)) m) := by
  refine Moves.bind_at (Moves.get m) fun _ _ hg ↦ ?_
  cases hg
  refine Moves.bind_at (rightly_setProtected _ m) fun _ t ht ↦ ?_
  cases ht
  refine Moves.bind_at ?_ fun r t _ ↦
    Moves.bind (rightly_setProtected _) (fun _ ↦ .pure _) t
  rw [after_attempt]
  exact rightly_runFunction hbody hmatch hcur hbound

theorem rightly_callInSandbox (hmatch : Matches c frame) (hc : current = m.vm.currentContract)
    (hch : (m.handlers[ch]?).map Handler.who = some (c.caller, c.contract, none))
    (hbound : ∀ v, boundView m c.contract = some v → v = frame.view) :
    Rightly ch m (after (callInSandbox current c frame cond body ch) m) := by
  have henter : Moves (Rightly ch) (enterSandbox current c.contract (c.env ch) cond.setup) :=
    rightly_moves (steady_enterSandbox rfl rfl) (moves_enterSandbox above_uses)
  refine Moves.bind_at (henter m) fun isNew t ht ↦ ?_
  obtain ⟨hcur, hview⟩ := enterSandbox_ok hmatch hch hc ht
  refine Moves.bind_at (moves_require t) fun _ t' ht' ↦ ?_
  obtain rfl : t' = t := (after_ok ht').symm.trans ((moves_require : Moves (Same id) _) t)
  refine Moves.bind_at (rightly_moves steady_allocate (moves_allocate above_uses) t')
    fun _ u hu ↦ ?_
  have hb : bindings u = bindings t' := after_ok hu ▸ same_bindings_allocate t'
  refine Moves.bind_at (rightly_luaPcall hbody hmatch ((congrArg Prod.fst hb).trans hcur)
    fun v hv ↦ ?_) fun err s _ ↦ ?_
  · exact (hview v (boundView_eq hb c.contract ▸ hv)).elim (hbound v) id
  · exact Moves.bind (rightly_moves steady_leaveSandbox (moves_leaveSandbox above_uses))
      (fun _ ↦ .bind moves_raise fun _ ↦ moves_require) s

omit hbody in
theorem events_unwind (id : ℕ) (x : Run Unit) (m : Machine) :
    (after (attempt x >>= unwind id) m).events = (after x m).events ∨
      (after (attempt x >>= unwind id) m).events = .abandoned id :: (after x m).events := by
  rcases after_unwind id x m with he | ⟨hj, -⟩
  · rw [he]
    exact .inl (deletes id (after x m)).events
  · rw [after_error hj]
    exact .inr rfl

omit hbody in
theorem uses_eq (h : m'.events = m.events) : uses m' = uses m := congrArg (List.filter _) h

/-- A call whose sandbox was noted as it is. -/
theorem right_withHandler (hmatch : Matches c frame) (hc : current = m.vm.currentContract)
    (hw : Wf m) (hm : metered m) (hin : Event.entered frame (boundView m c.contract) ∈ m.events)
    (hf : Fair (after (withHandler c.caller c.nfaCaller c.contract c.isInEval
      (callInSandbox current c frame cond body)) m)) (hr : Right m) :
    Right (after (withHandler c.caller c.nfaCaller c.contract c.isInEval
      (callInSandbox current c frame cond body)) m) := by
  cases hn : (newHandler c.caller c.nfaCaller c.contract c.isInEval none).run m with
  | error err t =>
    rw [withHandler, after_bind_error hn]
    exact hr.of_uses (after_error hn ▸ uses_newHandler m)
  | ok id t =>
    rw [withHandler, after_bind_ok hn] at hf ⊢
    have hlast := events_unwind id (callInSandbox current c frame cond body id) t
    have hnew : Steady none m t := after_ok hn ▸
      steady_newHandler (fun _ h ↦ by cases h) hw hm fun _ h ↦ by cases h
    have hrt : Right t := hr.of_uses (after_ok hn ▸ uses_newHandler m)
    obtain ⟨_, d, -, -, rfl, ht⟩ := newHandler_ok hn
    have hfu : Fair (after (callInSandbox current c frame cond body m.fresh) t) :=
      fun f' v hv ↦ hf f' v (hlast.elim (· ▸ hv) fun he ↦ he ▸ List.mem_cons_of_mem _ hv)
    have hlt : m.fresh < t.fresh := by
      rw [ht]
      exact Nat.lt_succ_self _
    have hch : (t.handlers[m.fresh]?).map Handler.who = some (c.caller, c.contract, none) := by
      rw [ht, getElem?_insert, if_pos rfl]
      rfl
    have hsteady := @steady_callInSandbox current c frame cond body
      (fun e ↦ (hbody frame e).mono fun _ _ h ↦ h.stays) m.fresh t hnew.wf hnew.metered
      fun a ha ↦ Option.some.inj ha ▸ hlt
    have hbound : ∀ v, boundView t c.contract = some v → v = frame.view := fun v hv ↦ by
      obtain ⟨id, g, hid, -, -⟩ := boundView_some.mp hv
      have hid' : m.vm.sandboxes[c.contract]? = some id := by
        rw [ht] at hid
        exact hid
      have hv' := hnew.keep.boundView hw hid' hid hv
      exact hfu frame v (hsteady.keep.events _ (hnew.keep.events _ (hv' ▸ hin)))
    exact ((rightly_callInSandbox hbody hmatch (by rw [ht, hc]) hch hbound hnew.wf hnew.metered
      hlt).2 hfu hrt).of_uses
        (hlast.elim uses_eq fun he ↦ by rw [uses, he, List.filter_cons_of_neg Bool.false_ne_true, uses])

theorem right_callFunction (hmatch : Matches c frame) (hc : current = m.vm.currentContract)
    (hw : Wf m) (hm : metered m) (hf : Fair (after (callFunction current c frame cond body) m))
    (hr : Right m) : Right (after (callFunction current c frame cond body) m) := by
  have hs : Stay m
      { m with
        events := .entered frame (boundView m c.contract) :: .built c.contract
          (showsHandler m current c.contract) (hasHandler m c.contract) :: m.events } :=
    trans_of Stays (stays_events m _) (stays_events _ _) hw hm
  exact right_withHandler hbody hmatch hc hs.steady.wf hs.steady.metered List.mem_cons_self hf
    (hr.of_uses rfl)

omit hbody in
theorem events_onAssertion {x : Run Unit} :
    (after (onAssertion x (restoreCurrent current)) m).events = (after x m).events := by
  rcases after_onAssertion x (restoreCurrent current) m with
    ⟨t, hr, he⟩ | ⟨_, t, hr, he⟩ | ⟨_, t, hr, -, he⟩ <;> rw [he]
  · rw [after_ok hr]
  · rw [after_error hr]
    cases current <;> rfl
  · rw [after_error hr]

theorem right_call (hmatch : Matches c frame) (hc : current = m.vm.currentContract)
    (hw : Wf m) (hm : metered m)
    (hf : Fair (after (onAssertion (callFunction current c frame cond body)
      (restoreCurrent current)) m)) (hr : Right m) :
    Right (after (onAssertion (callFunction current c frame cond body) (restoreCurrent current))
      m) := by
  have he := @events_onAssertion current m (callFunction current c frame cond body)
  exact (right_callFunction hbody hmatch hc hw hm (fun f v hv ↦ hf f v (he ▸ hv)) hr).of_uses
    (uses_eq he)

end Call

end Taiyi.Contract
