import Taiyi.Contract.Pieces

set_option autoImplicit false

namespace Taiyi.Contract

open Library.IdMap Library.Frame

def Env.helpers (e : Env) : Env := { e with imported := ∅ }

/-- The table of an imported contract, and its handler as long as that of the importing one lives. -/
structure Imported (m : Machine) (e : Env) (k : ℕ) (i : Env) : Prop where
  nfaHelper : i.nfaHelper = e.nfaHelper
  caller : i.baseInfo.caller = e.baseInfo.caller
  contract : i.baseInfo.contract = k
  handler : ∀ w, (m.handlers[e.contractHelper]?).map Handler.who = some w →
    (m.handlers[i.contractHelper]?).map Handler.who =
      some (e.baseInfo.caller, k, some e.contractHelper)

structure Wf (m : Machine) : Prop where
  env : ∀ id : ℕ, ∀ e : Env, m.envs[id]? = some e → id < m.fresh ∧ e.contractHelper < m.fresh
  handler : ∀ id : ℕ, ∀ h : Handler, m.handlers[id]? = some h →
    id < m.fresh ∧ ∀ p, h.keptBy = some p → p < id
  sandbox : ∀ k id : ℕ, m.vm.sandboxes[k]? = some id → ∃ e, m.envs[id]? = some e
  imported : ∀ id k j : ℕ, ∀ e : Env, m.envs[id]? = some e → e.imported[k]? = some j →
    ∃ i, m.envs[j]? = some i ∧ Imported m e k i

/-- What a run leaves as it is: the helpers that there are, and whom the handlers are for. -/
structure Keep (m m' : Machine) : Prop where
  fresh : m.fresh ≤ m'.fresh
  env : ∀ id : ℕ, id < m.fresh →
    (m'.envs[id]?).map Env.helpers = (m.envs[id]?).map Env.helpers
  handler : ∀ id : ℕ, id < m.fresh →
    (m'.handlers[id]?).map Handler.who = (m.handlers[id]?).map Handler.who
  events : ∀ e ∈ m.events, e ∈ m'.events

namespace Keep

theorem refl (m : Machine) : Keep m m := ⟨le_rfl, fun _ _ ↦ rfl, fun _ _ ↦ rfl, fun _ ↦ id⟩

theorem trans {m m' m'' : Machine} (h : Keep m m') (h' : Keep m' m'') : Keep m m'' where
  fresh := h.fresh.trans h'.fresh
  env id hid := (h'.env id (hid.trans_le h.fresh)).trans (h.env id hid)
  handler id hid := (h'.handler id (hid.trans_le h.fresh)).trans (h.handler id hid)
  events e he := h'.events e (h.events e he)

end Keep

theorem viewOf_eq (m : Machine) (e : Env) :
    viewOf m e =
      { handler := ((m.handlers[e.contractHelper]?).map Handler.who).map fun w ↦ (w.1, w.2.1)
        info := (e.helpers.baseInfo.caller, e.helpers.baseInfo.contract)
        nfa := e.helpers.nfaHelper.map fun n ↦ (n.callerAccount, n.nfa) } := by
  rw [Option.map_map]
  rfl

/-- What the code that runs in a table sees stays the same. -/
theorem Keep.view {m m' : Machine} (h : Keep m m') (hw : Wf m) {id : ℕ} {e : Env}
    (he : m.envs[id]? = some e) : (m'.envs[id]?).map (viewOf m') = some (viewOf m e) := by
  have hid := hw.env id e he
  have hh := h.env id hid.1
  rw [he] at hh
  obtain ⟨e', he', hee⟩ := Option.map_eq_some_iff.mp hh
  have hc : e'.helpers.contractHelper = e.helpers.contractHelper := by rw [hee]
  rw [he', Option.map_some, viewOf_eq, viewOf_eq m e, hee,
    show e'.contractHelper = e.contractHelper from hc, h.handler _ hid.2]

def metered (m : Machine) : Prop := m.vm.enableDrops = true

def Spent (m : Machine) : Prop := m.vm.drops < 0

/-- A table whose handler is no more. -/
def Dead (m : Machine) (id : ℕ) : Prop :=
  ∀ e : Env, m.envs[id]? = some e → m.handlers[e.contractHelper]? = none

/-- The sandboxes are those of before, up to new ones that are dead or made for a handler. -/
def Opens (ch : Option ℕ) (m m' : Machine) : Prop :=
  ∀ k id : ℕ, m'.vm.sandboxes[k]? = some id → m.vm.sandboxes[k]? = some id ∨
    m.fresh ≤ id ∧ (Dead m' id ∨ ∀ e : Env, m'.envs[id]? = some e → some e.contractHelper = ch)

structure Steady (ch : Option ℕ) (m m' : Machine) : Prop where
  wf : Wf m'
  metered : metered m'
  keep : Keep m m'
  spent : Spent m → Spent m'
  opens : Spent m' ∨ Opens ch m m'

def Steadily (ch : Option ℕ) (m m' : Machine) : Prop :=
  Wf m → metered m → (∀ a ∈ ch, a < m.fresh) → Steady ch m m'

section Preorder

variable {ch : Option ℕ} {m m' m'' : Machine}

theorem Keep.env_back (h : Keep m m') {id : ℕ} (hid : id < m.fresh) {e' : Env}
    (he : m'.envs[id]? = some e') :
    ∃ e, m.envs[id]? = some e ∧ e'.contractHelper = e.contractHelper := by
  have hh := h.env id hid
  rw [he] at hh
  obtain ⟨e, hm, hee⟩ := Option.map_eq_some_iff.mp hh.symm
  have hc : e.helpers.contractHelper = e'.helpers.contractHelper := by rw [hee]
  exact ⟨e, hm, hc.symm⟩

theorem Keep.dead (h : Keep m m') (hw : Wf m) {id : ℕ} (hid : id < m.fresh) (hd : Dead m id) :
    Dead m' id := by
  intro e' he'
  obtain ⟨e, he, hc⟩ := h.env_back hid he'
  have hh := h.handler _ (hw.env id e he).2
  rw [hd e he] at hh
  rw [hc]
  exact Option.map_eq_none_iff.mp hh

theorem Opens.refl (m : Machine) : Opens ch m m := fun _ _ h ↦ .inl h

theorem Opens.trans (hw : Wf m') (hk : Keep m m') (hk' : Keep m' m'') (h : Opens ch m m')
    (h' : Opens ch m' m'') : Opens ch m m'' := by
  intro k id hid
  rcases h' k id hid with hid | ⟨hf, hd⟩
  · rcases h k id hid with hid | ⟨hf, hd⟩
    · exact .inl hid
    · obtain ⟨e, he⟩ := hw.sandbox k id hid
      have hlt := (hw.env id e he).1
      refine .inr ⟨hf, hd.imp (hk'.dead hw hlt) fun hc e' he' ↦ ?_⟩
      obtain ⟨e, he, hec⟩ := hk'.env_back hlt he'
      rw [hec]
      exact hc e he
  · exact .inr ⟨hk.fresh.trans hf, hd⟩

theorem Steady.trans (h : Steady ch m m') (h' : Steady ch m' m'') : Steady ch m m'' where
  wf := h'.wf
  metered := h'.metered
  keep := h.keep.trans h'.keep
  spent hs := h'.spent (h.spent hs)
  opens := by
    rcases h.opens with hs | ho
    · exact .inl (h'.spent hs)
    · exact h'.opens.imp_right (ho.trans h.wf h.keep h'.keep)

instance : IsPreorder Machine (Steadily ch) where
  refl m hw hm _ := ⟨hw, hm, .refl m, id, .inr (.refl m)⟩
  trans _ _ _ h h' hw hm hc :=
    have hs := h hw hm hc
    hs.trans (h' hs.wf hs.metered fun a ha ↦ (hc a ha).trans_le hs.keep.fresh)

end Preorder

section Parts

variable {ch : Option ℕ} {m m' : Machine}

/-- What touches no table and no handler, and opens no sandbox. -/
structure Within (m m' : Machine) : Prop where
  envs : m'.envs = m.envs
  handlers : m'.handlers = m.handlers
  fresh : m'.fresh = m.fresh
  events : ∀ e ∈ m.events, e ∈ m'.events
  sandboxes : ∀ k id : ℕ, m'.vm.sandboxes[k]? = some id → m.vm.sandboxes[k]? = some id

theorem Within.wf (h : Within m m') (hw : Wf m) : Wf m' where
  env := by
    rw [h.envs, h.fresh]
    exact hw.env
  handler := by
    rw [h.handlers, h.fresh]
    exact hw.handler
  sandbox k id hid := by
    rw [h.envs]
    exact hw.sandbox k id (h.sandboxes k id hid)
  imported id k j e he hj := by
    rw [h.envs] at he ⊢
    obtain ⟨i, hi, hii⟩ := hw.imported id k j e he hj
    refine ⟨i, hi, hii.nfaHelper, hii.caller, hii.contract, ?_⟩
    rw [h.handlers]
    exact hii.handler

theorem Within.keep (h : Within m m') : Keep m m' where
  fresh := h.fresh.ge
  env id _ := by rw [h.envs]
  handler id _ := by rw [h.handlers]
  events := h.events

theorem Within.steadily (h : Within m m') (he : metered m → metered m')
    (hs : metered m → Spent m → Spent m') : Steadily ch m m' := fun hw hm _ ↦
  ⟨h.wf hw, he hm, h.keep, hs hm, .inr fun k id hid ↦ .inl (h.sandboxes k id hid)⟩

end Parts

section Pieces

variable {ch : Option ℕ}

/-- What leaves the virtual machine, its tables and the handlers alone. -/
theorem steadily_outside {m m' : Machine} (hv : m'.vm = m.vm) (he : m'.envs = m.envs)
    (hh : m'.handlers = m.handlers) (hf : m'.fresh = m.fresh)
    (hl : ∀ e ∈ m.events, e ∈ m'.events) : Steadily ch m m' := by
  refine Within.steadily ⟨he, hh, hf, hl, fun k id hid ↦ hv ▸ hid⟩ (fun hm ↦ ?_) fun _ hs ↦ ?_
  · unfold metered
    rwa [hv]
  · unfold Spent
    rwa [hv]

theorem loose_steadily : Loose (Steadily ch) where
  objects _ _ := steadily_outside rfl rfl rfl rfl fun _ ↦ id
  exePoint _ _ := steadily_outside rfl rfl rfl rfl fun _ ↦ id

theorem steadily_runZone (m : Machine) (z : Option ℕ) : Steadily ch m { m with runZone := z } :=
  steadily_outside rfl rfl rfl rfl fun _ ↦ id

theorem steadily_contracts (m : Machine) (c : Table ContractObject) :
    Steadily ch m { m with contracts := c } :=
  steadily_outside rfl rfl rfl rfl fun _ ↦ id

theorem steadily_events (m : Machine) (e : Event) :
    Steadily ch m { m with events := e :: m.events } :=
  steadily_outside rfl rfl rfl rfl fun _ ↦ List.mem_cons_of_mem _

theorem steadily_vm {m : Machine} {vm : Vm} (he : vm.enableDrops = m.vm.enableDrops)
    (hd : metered m → vm.drops ≤ m.vm.drops)
    (hs : ∀ k id : ℕ, vm.sandboxes[k]? = some id → m.vm.sandboxes[k]? = some id) :
    Steadily ch m { m with vm := vm } :=
  Within.steadily ⟨rfl, rfl, rfl, fun _ ↦ id, hs⟩ (fun h ↦ he.trans h)
    fun hm h ↦ (hd hm).trans_lt h

theorem steady_setCurrent {current : Option ℕ} : Moves (Steadily ch) (setCurrent current) :=
  .update fun _ ↦ steadily_vm rfl (fun _ ↦ le_rfl) fun _ _ ↦ id

theorem steady_spend {cost : ℕ} : Moves (Steadily ch) (spend cost) := by
  refine .update fun m ↦ steadily_vm rfl (fun hm ↦ ?_) fun _ _ ↦ id
  simp only [metered] at hm
  simp only [hm, if_true]
  omega

theorem steady_memoryError : Moves (Steadily ch) memoryError :=
  .bind .get fun _ ↦ .ite (fun _ ↦ .throw _) fun _ ↦
    .bind (moves_note steadily_events) fun _ ↦ .throw _

theorem steady_allocate {cost : ℕ} : Moves (Steadily ch) (allocate cost) :=
  .bind steady_spend fun _ ↦ .bind .get fun _ ↦ .ite (fun _ ↦ steady_memoryError) fun _ ↦ .pure _

theorem steady_setup {setup : Setup} : Moves (Steadily ch) setup.run :=
  .bind steady_allocate fun _ ↦ moves_require

theorem steady_clearGlobal {k : ℕ} : Moves (Steadily ch) (clearGlobal k) := by
  refine .update fun m ↦ steadily_vm rfl (fun _ ↦ le_rfl) fun k' id hid ↦ ?_
  rw [getElem?_erase] at hid
  split at hid
  · cases hid
  · exact hid

theorem steady_luaPcall {x : Run Unit} (hx : Moves (Steadily ch) x) :
    Moves (Steadily ch) (luaPcall x) :=
  .bind .get fun _ ↦ .bind (.update fun _ ↦ steadily_vm rfl (fun _ ↦ le_rfl) fun _ _ ↦ id) fun _ ↦
    .bind hx.attempt fun _ ↦
      .bind (.update fun _ ↦ steadily_vm rfl (fun _ ↦ le_rfl) fun _ _ ↦ id) fun _ ↦ .pure _

theorem steady_closeSandbox {k : ℕ} : Moves (Steadily ch) (closeSandbox k) :=
  .bind steady_clearGlobal fun _ ↦ steady_allocate

theorem steady_leaveSandbox {current : Option ℕ} {k : ℕ} {close : Bool} :
    Moves (Steadily ch) (leaveSandbox current k close) := by
  refine .ite (fun _ ↦ .pure _) fun _ ↦ .bind ?_ fun _ ↦ steady_setCurrent
  exact .ite (fun _ ↦ steady_closeSandbox) fun _ ↦ .pure _

section New

variable {m : Machine}

theorem getElem?_fresh_env (hw : Wf m) : m.envs[m.fresh]? = none :=
  Option.eq_none_iff_forall_ne_some.mpr fun e he ↦ Nat.lt_irrefl _ (hw.env _ e he).1

theorem getElem?_fresh_handler (hw : Wf m) : m.handlers[m.fresh]? = none :=
  Option.eq_none_iff_forall_ne_some.mpr fun h hh ↦ Nat.lt_irrefl _ (hw.handler _ h hh).1

/-- A new handler, for nothing that there is yet. -/
theorem steadily_handler (h : Handler) (hp : ∀ p, h.keptBy = some p → p < m.fresh) :
    Steadily ch m
      { m with handlers := m.handlers.insert m.fresh h, fresh := m.fresh + 1 } := by
  intro hw hm _
  have hold : ∀ a : ℕ, a < m.fresh →
      (m.handlers.insert m.fresh h)[a]? = m.handlers[a]? := fun a ha ↦ by
    rw [getElem?_insert, if_neg (Nat.ne_of_gt ha)]
  refine ⟨⟨fun id e he ↦ ?_, fun id g hg ↦ ?_, hw.sandbox, fun id k j e he hj ↦ ?_⟩, hm,
    ⟨Nat.le_succ _, fun _ _ ↦ rfl, fun id hid ↦ ?_, fun _ ↦ id⟩, id, .inr fun _ _ hid ↦ .inl hid⟩
  · exact ⟨Nat.lt_succ_of_lt (hw.env id e he).1, Nat.lt_succ_of_lt (hw.env id e he).2⟩
  · rw [getElem?_insert] at hg
    split at hg
    · next hid =>
      cases hg
      exact ⟨hid ▸ Nat.lt_succ_self _, hid ▸ hp⟩
    · exact ⟨Nat.lt_succ_of_lt (hw.handler id g hg).1, (hw.handler id g hg).2⟩
  · obtain ⟨i, hi, hii⟩ := hw.imported id k j e he hj
    refine ⟨i, hi, hii.nfaHelper, hii.caller, hii.contract, fun w hwho ↦ ?_⟩
    rw [hold _ (hw.env id e he).2] at hwho
    rw [hold _ (hw.env j i hi).2]
    exact hii.handler w hwho
  · rw [hold id hid]

/-- A new table without imports, for a handler that there is. -/
theorem steadily_env (e : Env) (he : e.contractHelper < m.fresh) (hi : e.imported = ∅) :
    Steadily ch m { m with envs := m.envs.insert m.fresh e, fresh := m.fresh + 1 } := by
  intro hw hm _
  have hold : ∀ a : ℕ, a < m.fresh → (m.envs.insert m.fresh e)[a]? = m.envs[a]? := fun a ha ↦ by
    rw [getElem?_insert, if_neg (Nat.ne_of_gt ha)]
  refine ⟨⟨fun id g hg ↦ ?_, fun id g hg ↦ ?_, fun k id hid ↦ ?_, fun id k j g hg hj ↦ ?_⟩, hm,
    ⟨Nat.le_succ _, fun id hid ↦ ?_, fun _ _ ↦ rfl, fun _ ↦ id⟩, id, .inr fun _ _ hid ↦ .inl hid⟩
  · rw [getElem?_insert] at hg
    split at hg
    · next hid =>
      cases hg
      exact ⟨hid ▸ Nat.lt_succ_self _, Nat.lt_succ_of_lt he⟩
    · exact ⟨Nat.lt_succ_of_lt (hw.env id g hg).1, Nat.lt_succ_of_lt (hw.env id g hg).2⟩
  · exact ⟨Nat.lt_succ_of_lt (hw.handler id g hg).1, (hw.handler id g hg).2⟩
  · obtain ⟨g, hg⟩ := hw.sandbox k id hid
    exact ⟨g, (hold id (hw.env id g hg).1).trans hg⟩
  · rw [getElem?_insert] at hg
    split at hg
    · cases hg
      rw [hi] at hj
      cases hj
    · obtain ⟨i, hi', hii⟩ := hw.imported id k j g hg hj
      exact ⟨i, (hold j (hw.env j i hi').1).trans hi',
        hii.nfaHelper, hii.caller, hii.contract, hii.handler⟩
  · rw [hold id hid]

/-- The data of a handler are changed, not whom it is for. -/
theorem steadily_insert {id : ℕ} {h h' : Handler} (hh : m.handlers[id]? = some h)
    (hw : h'.who = h.who) : Steadily ch m { m with handlers := m.handlers.insert id h' } := by
  have hold : ∀ a : ℕ, ((m.handlers.insert id h')[a]?).map Handler.who =
      (m.handlers[a]?).map Handler.who := fun a ↦ by
    rw [getElem?_insert]
    split
    · next ha => rw [← ha, hh, Option.map_some, Option.map_some, hw]
    · rfl
  intro hwf hm _
  refine ⟨⟨hwf.env, fun a g hg ↦ ?_, hwf.sandbox, fun a k j e he hj ↦ ?_⟩, hm,
    ⟨le_rfl, fun _ _ ↦ rfl, fun a _ ↦ hold a, fun _ h ↦ h⟩, fun h ↦ h,
    .inr fun _ _ hid ↦ .inl hid⟩
  · rw [getElem?_insert] at hg
    split at hg
    · next ha =>
      cases hg
      have hk : h'.keptBy = h.keptBy := congrArg (fun w ↦ w.2.2) hw
      rw [hk]
      exact ha ▸ hwf.handler id h hh
    · exact hwf.handler a g hg
  · obtain ⟨i, hi, hii⟩ := hwf.imported a k j e he hj
    refine ⟨i, hi, hii.nfaHelper, hii.caller, hii.contract, fun w hwho ↦ ?_⟩
    rw [hold] at hwho ⊢
    exact hii.handler w hwho

end New

theorem steady_newHandler {a k : ℕ} {n p : Option ℕ} {eval : Bool} {m : Machine}
    (hp : ∀ q, p = some q → q < m.fresh) :
    Steadily ch m (after (newHandler a n k eval p) m) := by
  refine Moves.bind_at (moves_modifyContract steadily_contracts m) fun _ t ht ↦ ?_
  obtain ⟨_, _, rfl⟩ := modifyContract_ok ht
  refine Moves.bind_at (moves_getContract _) fun c t ht ↦ ?_
  obtain ⟨_, rfl⟩ := getContract_ok ht
  refine Moves.bind_at (moves_lookup _) fun d t ht ↦ ?_
  obtain ⟨_, rfl⟩ := lookup_ok ht
  exact steadily_handler _ hp

/-- A new sandbox is a new table for the handler that it is made for. -/
theorem steadily_sandbox {a k : ℕ} {m : Machine} {e : Env} (he : e.contractHelper = a)
    (hi : e.imported = ∅) :
    Steadily (some a) m
      { m with
        envs := m.envs.insert m.fresh e
        fresh := m.fresh + 1
        vm := { m.vm with sandboxes := m.vm.sandboxes.insert k m.fresh } } := by
  intro hw hm hc
  have ha := hc a rfl
  have hs : Steady (some a) m _ := steadily_env e (he ▸ ha) hi hw hm hc
  refine ⟨⟨hs.wf.env, hs.wf.handler, fun k' id hid ↦ ?_, fun id k' j g hg hj ↦ ?_⟩, hm,
    ⟨hs.keep.fresh, hs.keep.env, hs.keep.handler, hs.keep.events⟩, id, .inr fun k' id hid ↦ ?_⟩
  · simp only [getElem?_insert] at hid ⊢
    split at hid
    · obtain rfl := Option.some.inj hid
      exact ⟨e, if_pos rfl⟩
    · obtain ⟨g, hg⟩ := hs.wf.sandbox k' id hid
      rw [getElem?_insert] at hg
      exact ⟨g, hg⟩
  · obtain ⟨i, hi', hii⟩ := hs.wf.imported id k' j g hg hj
    exact ⟨i, hi', hii.nfaHelper, hii.caller, hii.contract, hii.handler⟩
  · simp only [getElem?_insert] at hid ⊢
    split at hid
    · obtain rfl := Option.some.inj hid
      refine .inr ⟨le_rfl, .inr fun g hg ↦ ?_⟩
      rw [if_pos rfl] at hg
      cases hg
      rw [he]
    · exact .inl hid

theorem steady_ensureSandbox {a k : ℕ} {e : Env} {setup : Setup} (he : e.contractHelper = a)
    (hi : e.imported = ∅) : Moves (Steadily (some a)) (ensureSandbox k e setup) := by
  refine .bind .get fun m ↦ ?_
  split
  · exact .pure _
  · exact .bind steady_setup fun _ t ↦ steadily_sandbox he hi

theorem steady_enterSandbox {current : Option ℕ} {a k : ℕ} {e : Env} {setup : Setup}
    (he : e.contractHelper = a) (hi : e.imported = ∅) :
    Moves (Steadily (some a)) (enterSandbox current k e setup) :=
  .ite (fun _ ↦ .pure _) fun _ ↦ .bind (steady_ensureSandbox he hi) fun _ ↦
    .bind steady_setCurrent fun _ ↦ .pure _

end Pieces

section Deletion

theorem saveHandler_handlers (m : Machine) (id a : ℕ) :
    (m.saveHandler id).handlers[a]? = if a = id then none else m.handlers[a]? := by
  unfold Machine.saveHandler
  split
  · next h =>
    split
    · next ha => rw [ha, h]
    · rfl
  · rw [getElem?_erase]
    simp only [eq_comm]

theorem foldl_saveHandler_handlers (l : List ℕ) (m : Machine) (a : ℕ) :
    (l.foldl Machine.saveHandler m).handlers[a]? = if a ∈ l then none else m.handlers[a]? := by
  induction l generalizing m with
  | nil => rfl
  | cons b l ih =>
    rw [List.foldl_cons, ih, saveHandler_handlers]
    simp only [List.mem_cons]
    split
    · next ha => rw [if_pos (Or.inr ha)]
    · next ha => simp [ha]

theorem mem_subHandlers {m : Machine} {id a : ℕ} :
    a ∈ subHandlers m id ↔ ∃ h, m.handlers[a]? = some h ∧ h.keptBy = some id := by
  unfold subHandlers
  simp only [List.mem_map, List.mem_filter, decide_eq_true_eq, Prod.exists, mem_toList]
  constructor
  · rintro ⟨b, h, ⟨hb, hk⟩, rfl⟩
    exact ⟨h, hb, hk⟩
  · rintro ⟨h, hb, hk⟩
    exact ⟨a, h, ⟨hb, hk⟩, rfl⟩

/-- What the destructor comes to for all but the contracts. -/
structure Deletes (ch : ℕ) (m m' : Machine) : Prop where
  envs : m'.envs = m.envs
  fresh : m'.fresh = m.fresh
  vm : m'.vm = m.vm
  events : m'.events = m.events
  handlers : ∀ a : ℕ, ∀ h : Handler, m'.handlers[a]? = some h ↔
    m.handlers[a]? = some h ∧ a ≠ ch ∧ h.keptBy ≠ some ch

theorem saveHandler_outside (m : Machine) (id : ℕ) :
    (m.saveHandler id).envs = m.envs ∧ (m.saveHandler id).fresh = m.fresh ∧
      (m.saveHandler id).vm = m.vm ∧ (m.saveHandler id).events = m.events := by
  unfold Machine.saveHandler
  split <;> exact ⟨rfl, rfl, rfl, rfl⟩

theorem foldl_saveHandler_outside (l : List ℕ) (m : Machine) :
    (l.foldl Machine.saveHandler m).envs = m.envs ∧
      (l.foldl Machine.saveHandler m).fresh = m.fresh ∧
      (l.foldl Machine.saveHandler m).vm = m.vm ∧
      (l.foldl Machine.saveHandler m).events = m.events := by
  induction l generalizing m with
  | nil => exact ⟨rfl, rfl, rfl, rfl⟩
  | cons b l ih =>
    obtain ⟨he, hf, hv, hl⟩ := ih (m.saveHandler b)
    obtain ⟨he', hf', hv', hl'⟩ := saveHandler_outside m b
    exact ⟨he.trans he', hf.trans hf', hv.trans hv', hl.trans hl'⟩

theorem deletes (ch : ℕ) (m : Machine) : Deletes ch m (after (deleteHandler ch) m) := by
  have ho := foldl_saveHandler_outside (subHandlers m ch) (m.saveHandler ch)
  have hs := saveHandler_outside m ch
  refine ⟨ho.1.trans hs.1, ho.2.1.trans hs.2.1, ho.2.2.1.trans hs.2.2.1,
    ho.2.2.2.trans hs.2.2.2, fun a h ↦ ?_⟩
  change (List.foldl Machine.saveHandler _ _).handlers[a]? = some h ↔ _
  rw [foldl_saveHandler_handlers, saveHandler_handlers]
  by_cases ha : a = ch
  · simp [ha]
  · by_cases hm : a ∈ subHandlers m ch
    · obtain ⟨g, hg, hk⟩ := mem_subHandlers.mp hm
      rw [if_pos hm]
      refine iff_of_false (fun h ↦ nomatch h) fun hh ↦ ?_
      rw [hg] at hh
      exact hh.2.2 (Option.some.inj hh.1 ▸ hk)
    · rw [if_neg hm, if_neg ha]
      refine ⟨fun hh ↦ ⟨hh, ha, fun hk ↦ hm (mem_subHandlers.mpr ⟨h, hh, hk⟩)⟩, And.left⟩

theorem Deletes.wf {ch : ℕ} {m m' : Machine} (h : Deletes ch m m') (hw : Wf m)
    (hp : ∀ g : Handler, m.handlers[ch]? = some g → g.keptBy = none) : Wf m' := by
  refine ⟨?_, fun id g hg ↦ ?_, fun k id hid ↦ ?_, fun id k j e he hj ↦ ?_⟩
  · rw [h.envs, h.fresh]
    exact hw.env
  · rw [h.fresh]
    exact hw.handler id g ((h.handlers id g).mp hg).1
  · rw [h.vm] at hid
    rw [h.envs]
    exact hw.sandbox k id hid
  · rw [h.envs] at he ⊢
    obtain ⟨i, hi, hii⟩ := hw.imported id k j e he hj
    refine ⟨i, hi, hii.nfaHelper, hii.caller, hii.contract, fun w hwho ↦ ?_⟩
    obtain ⟨g, hg, hgw⟩ := Option.map_eq_some_iff.mp hwho
    obtain ⟨hg, hne, -⟩ := (h.handlers _ g).mp hg
    obtain ⟨g', hg', hgw'⟩ := Option.map_eq_some_iff.mp
      (hii.handler g.who (by rw [hg, Option.map_some]))
    have hk : g'.keptBy = some e.contractHelper := congrArg (fun w ↦ w.2.2) hgw'
    -- what is kept by a handler that lives is not what was deleted
    have hold : m'.handlers[i.contractHelper]? = some g' := by
      refine (h.handlers _ g').mpr ⟨hg', fun hc ↦ ?_, fun hc ↦ hne ?_⟩
      · rw [hp g' (hc ▸ hg')] at hk
        cases hk
      · exact Option.some.inj (hk.symm.trans hc)
    rw [hold, Option.map_some, hgw']

/-- Only what was made in between is deleted. -/
theorem Deletes.keep {ch : ℕ} {m m₂ m₃ : Machine} (h : Deletes ch m₂ m₃) (hw : Wf m)
    (hk : Keep m m₂) (hc : m.fresh ≤ ch) : Keep m m₃ := by
  refine ⟨?_, fun id hid ↦ ?_, fun id hid ↦ ?_, fun e he ↦ ?_⟩
  · rw [h.fresh]
    exact hk.fresh
  · rw [h.envs]
    exact hk.env id hid
  · rw [← hk.handler id hid]
    cases hg : m₂.handlers[id]? with
    | none =>
      cases hg' : m₃.handlers[id]? with
      | none => rfl
      | some g' =>
        rw [((h.handlers id g').mp hg').1] at hg
        cases hg
    | some g =>
      have hold := hk.handler id hid
      rw [hg, Option.map_some] at hold
      obtain ⟨g₀, hg₀, hwho⟩ := Option.map_eq_some_iff.mp hold.symm
      have hkept : g₀.keptBy = g.keptBy := congrArg (fun w ↦ w.2.2) hwho
      have hlt := (hw.handler id g₀ hg₀).2
      rw [hkept] at hlt
      rw [(h.handlers id g).mpr ⟨hg, by omega, fun hkc ↦ ?_⟩]
      have := hlt ch hkc
      omega
  · rw [h.events]
    exact hk.events e he

theorem Deletes.metered {ch : ℕ} {m m' : Machine} (h : Deletes ch m m') (hm : metered m) :
    metered m' := by
  unfold Contract.metered at *
  rwa [h.vm]

/-- Without the handler that it was opened for, a sandbox is dead. -/
theorem Deletes.steady {ch : ℕ} {m m₁ m₂ m₃ : Machine} (h : Deletes ch m₂ m₃) (hw : Wf m)
    (h₁ : Steady none m m₁) (h₂ : Steady (some ch) m₁ m₂) (hc : m.fresh ≤ ch)
    (hv : m₁.vm.sandboxes = m.vm.sandboxes)
    (hp : ∀ g : Handler, m₂.handlers[ch]? = some g → g.keptBy = none) : Steady none m m₃ := by
  refine ⟨h.wf h₂.wf hp, h.metered h₂.metered, h.keep hw (h₁.keep.trans h₂.keep) hc,
    fun hs ↦ ?_, ?_⟩
  · have hs := h₂.spent (h₁.spent hs)
    unfold Spent at *
    rwa [h.vm]
  · refine h₂.opens.imp (fun hs ↦ ?_) fun ho k id hid ↦ ?_
    · unfold Spent at *
      rwa [h.vm]
    · rw [h.vm] at hid
      rcases ho k id hid with hid | ⟨hf, hd⟩
      · exact .inl (hv ▸ hid)
      · refine .inr ⟨h₁.keep.fresh.trans hf, .inl fun e he ↦ ?_⟩
        rw [h.envs] at he
        refine Option.eq_none_iff_forall_ne_some.mpr fun g hg ↦ ?_
        obtain ⟨hg, hne, -⟩ := (h.handlers _ g).mp hg
        rcases hd with hd | hd
        · rw [hd e he] at hg
          cases hg
        · exact hne (Option.some.inj (hd e he))

end Deletion

section WithHandler

/-- How a call can break off: with an error, or to an enclosing `lua_pcall` when the budget is
spent. -/
def Breaks (err : Err) (m : Machine) : Prop :=
  (∃ msg, err = .assertion msg) ∨ err = .jump ∧ Spent m ∧ m.vm.protectedCalls ≠ 0

theorem after_unwind (id : ℕ) (x : Run Unit) (m : Machine) :
    after (attempt x >>= unwind id) m = after (deleteHandler id) (after x m) ∨
      (attempt x >>= unwind id).run m =
          .error .jump { after x m with events := .abandoned id :: (after x m).events } ∧
        x.run m = .error .jump (after x m) := by
  cases h : x.run m with
  | ok _ t =>
    rw [after_bind_ok (attempt_ok h), after_ok h]
    exact .inl rfl
  | error err t =>
    rw [after_bind_ok (attempt_error h), after_error h]
    match err with
    | .assertion _ => exact .inl rfl
    | .truncated => exact .inl rfl
    | .jump =>
      refine .inr ⟨?_, rfl⟩
      rw [EStateM.run_bind, attempt_error h]
      rfl

theorem Steady.weaken {ch : Option ℕ} {m m' : Machine} (h : Steady none m m') : Steady ch m m' :=
  ⟨h.wf, h.metered, h.keep, h.spent, h.opens.imp_right fun ho k id hid ↦
    (ho k id hid).imp_right fun hd ↦ ⟨hd.1, hd.2.imp_right fun hc e he ↦ nomatch hc e he⟩⟩

/-- A sandbox that is left open behind a jump is never run again. -/
theorem Steady.spentOut {ch c : Option ℕ} {m m' : Machine} (h : Steady c m m') (hs : Spent m') :
    Steady ch m m' :=
  ⟨h.wf, h.metered, h.keep, h.spent, .inl hs⟩

theorem steady_withHandler {a k : ℕ} {n : Option ℕ} {eval : Bool} {x : ℕ → Run Unit}
    (hx : ∀ c, Moves (Steadily (some c)) (x c)) (hb : ∀ c, Throws Breaks (x c)) :
    Moves (Steadily none) (withHandler a n k eval x) := by
  intro m hw hm _
  have hnew : Steady none m (after (newHandler a n k eval none) m) :=
    steady_newHandler (fun _ h ↦ nomatch h) hw hm fun _ h ↦ nomatch h
  cases hr : (newHandler a n k eval none).run m with
  | error err t =>
    rw [withHandler, after_bind_error hr]
    exact after_error hr ▸ hnew
  | ok id t =>
    rw [after_ok hr] at hnew
    obtain ⟨c, d, -, -, rfl, ht⟩ := newHandler_ok hr
    have hlt : m.fresh < t.fresh := by
      rw [ht]
      exact Nat.lt_succ_self _
    have hin : Steady (some m.fresh) t (after (x m.fresh) t) :=
      hx m.fresh t hnew.wf hnew.metered fun _ ha ↦ Option.some.inj ha ▸ hlt
    rw [withHandler, after_bind_ok hr]
    rcases after_unwind m.fresh (x m.fresh) t with he | ⟨hj, he⟩
    · rw [he]
      refine (deletes m.fresh (after (x m.fresh) t)).steady hw hnew hin le_rfl ?_ fun g hg ↦ ?_
      · rw [ht]
      · have hwho := hin.keep.handler m.fresh hlt
        have ht' : (t.handlers[m.fresh]?).map Handler.who = some (a, k, none) := by
          rw [ht, getElem?_insert, if_pos rfl]
          rfl
        rw [hg, ht', Option.map_some] at hwho
        exact congrArg (fun w ↦ w.2.2) (Option.some.inj hwho)
    · rw [after_error hj]
      have hs : Spent (after (x m.fresh) t) := by
        obtain ⟨msg, hmsg⟩ | ⟨-, hs, -⟩ := hb m.fresh t _ _ he
        · cases hmsg
        · exact hs
      have hleft : Steady (some m.fresh) (after (x m.fresh) t) _ :=
        steadily_events _ (.abandoned m.fresh) hin.wf hin.metered fun _ ha ↦
          (Option.some.inj ha ▸ hlt).trans_le hin.keep.fresh
      exact (hnew.weaken.trans (hin.trans hleft)).spentOut hs

end WithHandler

section Breaking

theorem breaks_assertion {α : Type} {msg : String} :
    Throws Breaks (throw (.assertion msg) : Run α) :=
  .throw fun _ ↦ .inl ⟨msg, rfl⟩

theorem breaks_require {c : Prop} [Decidable c] {msg : String} : Throws Breaks (require c msg) :=
  .ite (fun _ ↦ .pure _) fun _ ↦ breaks_assertion

theorem breaks_lookup {V : Type} {t : Table V} {id : ℕ} : Throws Breaks (lookup t id) := by
  unfold lookup
  split
  · exact .pure _
  · exact breaks_assertion

theorem breaks_memoryError {m : Machine} (hs : Spent m) :
    ∀ err t, memoryError.run m = .error err t → Breaks err t := by
  refine Throws.bind_at (Throws.get m) fun _ _ hm ↦ ?_
  cases hm
  split
  · exact breaks_assertion m
  · next hp =>
    refine Throws.bind_at (Throws.update m) fun _ t ht err u hu ↦ ?_
    cases ht
    cases hu
    exact .inr ⟨rfl, hs, hp⟩

theorem breaks_allocate {cost : ℕ} : Throws Breaks (allocate cost) := by
  refine .bind .update fun _ m ↦ Throws.bind_at (Throws.get m) fun _ _ hm ↦ ?_
  cases hm
  split
  · next h => exact breaks_memoryError h.2
  · exact Throws.pure _ m

theorem breaks_setup {setup : Setup} : Throws Breaks setup.run :=
  .bind breaks_allocate fun _ ↦ breaks_require

theorem breaks_enterSandbox {current : Option ℕ} {k : ℕ} {e : Env} {setup : Setup} :
    Throws Breaks (enterSandbox current k e setup) := by
  refine .ite (fun _ ↦ .pure _) fun _ ↦ .bind (.bind .get fun m ↦ ?_) fun _ ↦
    .bind .update fun _ ↦ .pure _
  split
  · exact .pure _
  · exact .bind breaks_setup fun _ ↦ .bind (.bind .get fun _ ↦ .bind .update fun _ ↦ .pure _)
      fun _ ↦ .bind .update fun _ ↦ .pure _

theorem breaks_leaveSandbox {current : Option ℕ} {k : ℕ} {close : Bool} :
    Throws Breaks (leaveSandbox current k close) :=
  .ite (fun _ ↦ .pure _) fun _ ↦
    .bind (.ite (fun _ ↦ .bind .update fun _ ↦ breaks_allocate) fun _ ↦ .pure _) fun _ ↦ .update

theorem breaks_luaPcall {x : Run Unit} : Throws Breaks (luaPcall x) :=
  .bind .get fun _ ↦ .bind .update fun _ ↦ .bind .attempt fun _ ↦ .bind .update fun _ ↦ .pure _

theorem breaks_raise {err : Option String} : Throws Breaks (raise err) := by
  cases err with
  | some => exact breaks_assertion
  | none => exact .pure _

end Breaking

end Taiyi.Contract
