import Taiyi.Contract.Stays
import Taiyi.Library.Timeline

set_option autoImplicit false

namespace Taiyi.Contract

open Library.IdMap Library.Frame Library.Outcome Library.History

/-- A place for data: those of a contract, or those of an account in it. -/
abbrev Cell := ℕ × Option ℕ

def Event.entry : Event → Option (Entry Cell Data)
  | .wroteContract k entries => some (.write (k, none) fun d ↦ writeEntries d entries)
  | .wroteAccount a k entries => some (.write (k, some a) fun d ↦ writeEntries d entries)
  | .readContract k answer => some (.read (k, none) answer)
  | .readAccount a k answer => some (.read (k, some a) answer)
  | .startedSession => some .start
  | .squashed => some .squash
  | .undone => some .undo
  | _ => none

/-- The reads and writes of a run, in program order. -/
def log (m : Machine) : List (Entry Cell Data) := m.events.filterMap Event.entry

/-- What the database has in a cell. -/
def stored (contracts : Table ContractObject) : Cell → Data
  | (k, none) => ((contracts[k]?).map ContractObject.contractData).getD ∅
  | (k, some a) => ((contracts[k]?).bind fun c ↦ c.accountData[a]?).getD ∅

/-- What a handler has a copy of. -/
def Handler.copy (h : Handler) : Cell → Option Data
  | (k, none) => if k = h.contract then some h.contractData else none
  | (k, some a) => if k = h.contract ∧ a = h.caller then some h.accountData else none

/-- A handler that some table is made with, so that code can get at it. -/
def Shown (m : Machine) (id : ℕ) : Prop :=
  ∃ a : ℕ, ∃ e : Env, m.envs[a]? = some e ∧ e.contractHelper = id

/-- Each cell is right in one place: in the handler that code can get at, else in the database. All
other handlers have what the database has, and will have gone when that changes. -/
structure Coherent (init : Cell → Data) (m : Machine) : Prop where
  row : ∀ id : ℕ, ∀ h : Handler, m.handlers[id]? = some h → ∃ c, m.contracts[h.contract]? = some c
  hidden : ∀ id : ℕ, ∀ h : Handler, m.handlers[id]? = some h → ¬Shown m id →
    ∀ c d, h.copy c = some d → d = stored m.contracts c
  shown : ∀ id : ℕ, ∀ h : Handler, m.handlers[id]? = some h → Shown m id →
    ∀ c d, h.copy c = some d → d = value init (log m) c
  first : ∀ id id' : ℕ, ∀ h h' : Handler, m.handlers[id]? = some h → Shown m id →
    m.handlers[id']? = some h' → h'.contract = h.contract → id ≤ id'
  stored : ∀ c, (∀ id : ℕ, ∀ h : Handler, m.handlers[id]? = some h → Shown m id → h.copy c = none) →
    stored m.contracts c = value init (log m) c
  consistent : Consistent init (log m)

/-- What is made for an import is kept by the handler of a call. -/
structure Nested (m : Machine) : Prop where
  kept : ∀ id p : ℕ, ∀ h : Handler, m.handlers[id]? = some h → h.keptBy = some p →
    Shown m id ∧ ∃ g : Handler, m.handlers[p]? = some g ∧ g.keptBy = none
  sandbox : ∀ k id : ℕ, ∀ e : Env, ∀ h : Handler, m.vm.sandboxes[k]? = some id → m.envs[id]? = some e →
    m.handlers[e.contractHelper]? = some h → h.keptBy = none

section Stored

variable {contracts : Table ContractObject} {k : ℕ} {c : ContractObject} {h : Handler}

theorem stored_withAccount (hc : contracts[k]? = some c) (a : ℕ) :
    stored (contracts.insert k (c.withAccount a)) = stored contracts := by
  funext cell
  obtain ⟨k', _ | b⟩ := cell <;> simp only [stored, getElem?_insert] <;> split
  · next hk => rw [← hk, hc]; rfl
  · rfl
  · next hk =>
    rw [← hk, hc]
    simp only [ContractObject.withAccount, Option.bind_some, getElem?_insertIfNew]
    split
    · cases c.accountData[b]? <;> rfl
    · rfl
  · rfl

theorem stored_save (hc : contracts[h.contract]? = some c) (cell : Cell) :
    stored (contracts.modify h.contract fun c ↦ c.save h) cell =
      (h.copy cell).getD (stored contracts cell) := by
  obtain ⟨k', _ | b⟩ := cell <;> simp only [stored, Handler.copy, Std.ExtTreeMap.getElem?_modify]
  · by_cases hk : k' = h.contract
    · subst hk
      simp [hc, ContractObject.save]
    · simp [hk, Ne.symm hk]
  · by_cases hk : k' = h.contract
    · subst hk
      by_cases hb : b = h.caller
      · subst hb
        simp [hc, ContractObject.save]
      · simp [hc, ContractObject.save, getElem?_insert, hb, Ne.symm hb]
    · simp [hk, Ne.symm hk]

theorem copy_contract {cell : Cell} {d : Data} (hd : h.copy cell = some d) :
    cell.1 = h.contract := by
  obtain ⟨k', _ | b⟩ := cell <;> simp only [Handler.copy, Option.ite_none_right_eq_some] at hd
  · exact hd.1
  · exact hd.1.1

end Stored

section Steps

variable {init : Cell → Data} {m m' : Machine}

theorem shown_congr (h : m'.envs = m.envs) (id : ℕ) : Shown m' id ↔ Shown m id := by
  unfold Shown
  rw [h]

/-- What leaves handlers and what is stored alone, and adds nothing to the cells. -/
theorem Coherent.congr (h : Coherent init m)
    (hr : ∀ k : ℕ, ∀ c : ContractObject, m.contracts[k]? = some c →
      ∃ c' : ContractObject, m'.contracts[k]? = some c')
    (hc : Contract.stored m'.contracts = Contract.stored m.contracts)
    (hh : m'.handlers = m.handlers) (he : ∀ id, Shown m' id ↔ Shown m id)
    (hv : value init (log m') = value init (log m)) (hl : Consistent init (log m')) :
    Coherent init m' where
  row id g hg := by
    rw [hh] at hg
    obtain ⟨c, hc⟩ := h.row id g hg
    exact hr _ c hc
  hidden id g hg hs := by
    rw [hc]
    exact h.hidden id g (hh ▸ hg) (mt (he id).mpr hs)
  shown id g hg hs := by
    rw [hv]
    exact h.shown id g (hh ▸ hg) ((he id).mp hs)
  first id id' g g' hg hs hg' := h.first id id' g g' (hh ▸ hg) ((he id).mp hs) (hh ▸ hg')
  stored cell hno := by
    rw [hc, hv]
    exact h.stored cell fun id g hg hs ↦ hno id g (hh ▸ hg) ((he id).mpr hs)
  consistent := hl

theorem Coherent.of_same (h : Coherent init m) (hc : m'.contracts = m.contracts)
    (hh : m'.handlers = m.handlers) (he : m'.envs = m.envs) (hl : log m' = log m) :
    Coherent init m' :=
  h.congr (fun k c hk ↦ ⟨c, hc ▸ hk⟩) (by rw [hc]) hh (shown_congr he) (by rw [hl])
    (hl ▸ h.consistent)

theorem Coherent.withAccount (h : Coherent init m) {k : ℕ} {c : ContractObject}
    (hc : m.contracts[k]? = some c) (a : ℕ) :
    Coherent init { m with contracts := m.contracts.insert k (c.withAccount a) } := by
  refine h.congr (fun k' c' hk' ↦ ?_) (stored_withAccount hc a) rfl (shown_congr rfl) rfl
    h.consistent
  rw [getElem?_insert]
  split
  · exact ⟨_, rfl⟩
  · exact ⟨c', hk'⟩

/-- The handlers of a contract are one. -/
def Alone (m : Machine) (id : ℕ) : Prop :=
  ∀ id' : ℕ, ∀ h h' : Handler, m.handlers[id]? = some h → m.handlers[id']? = some h' →
    h'.contract = h.contract → id' = id

/-- The last handler of a contract, or one that code could not get at, writes back its copies. -/
theorem Coherent.saveHandler (h : Coherent init m) {id : ℕ} (ha : Shown m id → Alone m id) :
    Coherent init (m.saveHandler id) := by
  unfold Machine.saveHandler
  cases hg : m.handlers[id]? with
  | none => exact h
  | some g =>
    obtain ⟨row, hrow⟩ := h.row id g hg
    have hsave := stored_save hrow
    have hback : ∀ a : ℕ, ∀ g' : Handler, (m.handlers.erase id)[a]? = some g' →
        a ≠ id ∧ m.handlers[a]? = some g' := fun a g' hg' ↦ by
      rw [getElem?_erase] at hg'
      split at hg'
      · cases hg'
      · next hne => exact ⟨Ne.symm hne, hg'⟩
    -- where a shown handler is the only one, no other handler has a copy
    have hother : ∀ a : ℕ, ∀ g' : Handler, a ≠ id → m.handlers[a]? = some g' → ∀ c d,
        g'.copy c = some d → (g.copy c).getD (Contract.stored m.contracts c) =
          Contract.stored m.contracts c := fun a g' hne hg' c d hd ↦ by
      by_cases hs : Shown m id
      · cases hc : g.copy c with
        | none => rfl
        | some =>
          exact absurd (ha hs a g g' hg hg' ((copy_contract hd).symm.trans (copy_contract hc))) hne
      · cases hc : g.copy c with
        | none => rfl
        | some d' => exact h.hidden id g hg hs c d' hc
    refine ⟨fun a g' hg' ↦ ?_, fun a g' hg' hs c d hd ↦ ?_, fun a g' hg' hs ↦ ?_,
      fun a a' g' g'' hg' hs hg'' ↦ ?_, fun c hno ↦ ?_, h.consistent⟩
    · obtain ⟨-, hg'⟩ := hback a g' hg'
      obtain ⟨row', hrow'⟩ := h.row a g' hg'
      rw [Std.ExtTreeMap.getElem?_modify]
      split
      · exact ⟨_, by rw [hrow]; rfl⟩
      · exact ⟨row', hrow'⟩
    · obtain ⟨hne, hg'⟩ := hback a g' hg'
      rw [hsave, hother a g' hne hg' c d hd]
      exact h.hidden a g' hg' hs c d hd
    · exact h.shown a g' (hback a g' hg').2 hs
    · exact h.first a a' g' g'' (hback a g' hg').2 hs (hback a' g'' hg'').2
    · have hrest : ∀ a : ℕ, ∀ g' : Handler, a ≠ id → m.handlers[a]? = some g' → Shown m a →
          g'.copy c = none := fun a g' hne hg' hs ↦
        hno a g' (by rw [getElem?_erase, if_neg (Ne.symm hne), hg']) hs
      rw [hsave]
      by_cases hs : Shown m id
      · cases hc : g.copy c with
        | some d => exact h.shown id g hg hs c d hc
        | none =>
          refine h.stored c fun a g' hg' hs' ↦ ?_
          by_cases hai : a = id
          · subst hai
            rw [hg] at hg'
            cases hg'
            exact hc
          · exact hrest a g' hai hg' hs'
      · have hst : (g.copy c).getD (Contract.stored m.contracts c) =
            Contract.stored m.contracts c := by
          cases hc : g.copy c with
          | none => rfl
          | some d => exact h.hidden id g hg hs c d hc
        rw [hst]
        refine h.stored c fun a g' hg' hs' ↦ hrest a g' (fun hai ↦ hs (hai ▸ hs')) hg' hs'

theorem Alone.saveHandler {id : ℕ} (h : Alone m id) (a : ℕ) : Alone (m.saveHandler a) id := by
  intro id' g g' hg hg'
  rw [saveHandler_handlers] at hg hg'
  split at hg
  · cases hg
  · split at hg'
    · cases hg'
    · exact h id' g g' hg hg'

theorem shown_saveHandler (a id : ℕ) : Shown (m.saveHandler a) id ↔ Shown m id :=
  shown_congr (saveHandler_outside m a).1 id

theorem Coherent.foldl_saveHandler (h : Coherent init m) {l : List ℕ}
    (ha : ∀ a ∈ l, Shown m a → Alone m a) : Coherent init (l.foldl Machine.saveHandler m) := by
  induction l generalizing m with
  | nil => exact h
  | cons a l ih =>
    refine ih (h.saveHandler (ha a List.mem_cons_self)) fun b hb hs ↦ ?_
    exact (ha b (List.mem_cons_of_mem _ hb) ((shown_saveHandler a b).mp hs)).saveHandler a

theorem Wf.not_shown (hw : Wf m) : ¬Shown m m.fresh := by
  rintro ⟨a, e, he, hc⟩
  have := (hw.env a e he).2
  omega

/-- A new handler has copies of what is stored. -/
theorem Coherent.newHandler (h : Coherent init m) (hw : Wf m) {g : Handler} {c : ContractObject}
    (hc : m.contracts[g.contract]? = some c)
    (hg : ∀ cell d, g.copy cell = some d → d = Contract.stored m.contracts cell) :
    Coherent init { m with handlers := m.handlers.insert m.fresh g, fresh := m.fresh + 1 } := by
  have hcase : ∀ a : ℕ, ∀ g' : Handler, (m.handlers.insert m.fresh g)[a]? = some g' →
      a = m.fresh ∧ g' = g ∨ m.handlers[a]? = some g' := fun a g' hg' ↦ by
    rw [getElem?_insert] at hg'
    split at hg'
    · next ha =>
      cases hg'
      exact .inl ⟨ha.symm, rfl⟩
    · exact .inr hg'
  have hold : ∀ a : ℕ, Shown m a → ∀ g' : Handler, (m.handlers.insert m.fresh g)[a]? = some g' →
      m.handlers[a]? = some g' := fun a hs g' hg' ↦
    (hcase a g' hg').resolve_left fun ha ↦ hw.not_shown (ha.1 ▸ hs)
  refine ⟨fun a g' hg' ↦ ?_, fun a g' hg' hs ↦ ?_, fun a g' hg' hs ↦ ?_,
    fun a a' g' g'' hg' hs hg'' hk ↦ ?_, fun cell hno ↦ ?_, h.consistent⟩
  · rcases hcase a g' hg' with ⟨-, rfl⟩ | hg'
    · exact ⟨c, hc⟩
    · exact h.row a g' hg'
  · rcases hcase a g' hg' with ⟨-, rfl⟩ | hg'
    · exact hg
    · exact h.hidden a g' hg' hs
  · exact h.shown a g' (hold a hs g' hg') hs
  · rcases hcase a' g'' hg'' with ⟨ha', -⟩ | hg''
    · rw [ha']
      exact (hw.handler a g' (hold a hs g' hg')).1.le
    · exact h.first a a' g' g'' (hold a hs g' hg') hs hg'' hk
  · refine h.stored cell fun a g' hg' hs ↦ hno a g' ?_ hs
    rw [getElem?_insert, if_neg (Nat.ne_of_gt (hw.handler a g' hg').1)]
    exact hg'

/-- Code gets at the only handler of a contract through a new table. -/
theorem Coherent.newEnv (h : Coherent init m) (hw : Wf m) {e : Env} {vm : Vm}
    (ha : Alone m e.contractHelper) (hs : ¬Shown m e.contractHelper) :
    Coherent init { m with envs := m.envs.insert m.fresh e, fresh := m.fresh + 1, vm := vm } := by
  have hshown : ∀ a, Shown { m with envs := m.envs.insert m.fresh e, fresh := m.fresh + 1, vm := vm } a ↔
      a = e.contractHelper ∨ Shown m a := fun a ↦ by
    constructor
    · rintro ⟨b, e', he', hc⟩
      rw [getElem?_insert] at he'
      split at he'
      · cases he'
        exact .inl hc.symm
      · exact .inr ⟨b, e', he', hc⟩
    · rintro (rfl | ⟨b, e', he', hc⟩)
      · exact ⟨m.fresh, e, by rw [getElem?_insert, if_pos rfl], rfl⟩
      · exact ⟨b, e', by rw [getElem?_insert, if_neg (Nat.ne_of_gt (hw.env b e' he').1), he'], hc⟩
  -- nothing of the contract was in the hands of code
  have hfree : ∀ g : Handler, m.handlers[e.contractHelper]? = some g → ∀ c d, g.copy c = some d →
      Contract.stored m.contracts c = value init (log m) c := fun g hg c d hd ↦ by
    refine h.stored c fun a g' hg' hsa ↦ Option.eq_none_iff_forall_ne_some.mpr fun d' hd' ↦ ?_
    exact hs (ha a g g' hg hg' ((copy_contract hd').symm.trans (copy_contract hd)) ▸ hsa)
  refine ⟨h.row, fun a g hg hsa ↦ h.hidden a g hg fun hs' ↦ hsa ((hshown a).mpr (.inr hs')),
    fun a g hg hsa c d hd ↦ ?_, fun a a' g g' hg hsa hg' hk ↦ ?_, fun c hno ↦ ?_, h.consistent⟩
  · rcases (hshown a).mp hsa with rfl | hsa
    · exact (h.hidden _ g hg hs c d hd).trans (hfree g hg c d hd)
    · exact h.shown a g hg hsa c d hd
  · rcases (hshown a).mp hsa with rfl | hsa
    · exact (ha a' g g' hg hg' hk).ge
    · exact h.first a a' g g' hg hsa hg' hk
  · exact h.stored c fun a g hg hsa ↦ hno a g hg ((hshown a).mpr (.inr hsa))

/-- Code reads what it has got at. -/
theorem Coherent.read (h : Coherent init m) {e : Event} {c : Cell} {d : Data}
    (he : e.entry = some (.read c d)) (hd : d = value init (log m) c) :
    Coherent init { m with events := e :: m.events } := by
  have hl : log { m with events := e :: m.events } = .read c d :: log m := by
    rw [log, List.filterMap_cons, he]
    rfl
  refine ⟨h.row, h.hidden, fun id g hg hs ↦ ?_, h.first, fun c' hno ↦ ?_, ?_⟩
  · rw [hl]
    exact h.shown id g hg hs
  · rw [hl]
    exact h.stored c' hno
  · rw [hl]
    exact ⟨hd, h.consistent⟩

/-- Code writes to the handler that it has got at. -/
theorem Coherent.write (h : Coherent init m) {e : Event} {c : Cell} {f : Data → Data} {id : ℕ}
    {g g' : Handler} (he : e.entry = some (.write c f)) (hg : m.handlers[id]? = some g)
    (hs : Shown m id) (hw : g'.who = g.who) (hc : (g.copy c).isSome = true)
    (hcopy : ∀ c', g'.copy c' = (g.copy c').map fun d ↦ if c' = c then f d else d) :
    Coherent init { m with handlers := m.handlers.insert id g', events := e :: m.events } := by
  have hl : log { m with handlers := m.handlers.insert id g', events := e :: m.events } =
      .write c f :: log m := by
    rw [log, List.filterMap_cons, he]
    rfl
  have hk : g'.contract = g.contract := congrArg (fun w ↦ w.2.1) hw
  have hcase : ∀ a : ℕ, ∀ t : Handler, (m.handlers.insert id g')[a]? = some t →
      a = id ∧ t = g' ∨ a ≠ id ∧ m.handlers[a]? = some t := fun a t ht ↦ by
    rw [getElem?_insert] at ht
    split at ht
    · next ha =>
      cases ht
      exact .inl ⟨ha.symm, rfl⟩
    · next ha => exact .inr ⟨Ne.symm ha, ht⟩
  -- the same handlers, up to copies
  have hold : ∀ a : ℕ, ∀ t : Handler, (m.handlers.insert id g')[a]? = some t →
      ∃ t' : Handler, m.handlers[a]? = some t' ∧ t'.contract = t.contract := fun a t ht ↦ by
    rcases hcase a t ht with ⟨rfl, rfl⟩ | ⟨-, ht⟩
    · exact ⟨g, hg, hk.symm⟩
    · exact ⟨t, ht, rfl⟩
  obtain ⟨d₀, hd₀⟩ := Option.isSome_iff_exists.mp hc
  refine ⟨fun a t ht ↦ ?_, fun a t ht hsa ↦ ?_, fun a t ht hsa c' d hd ↦ ?_,
    fun a a' t t' ht hsa ht' htt ↦ ?_, fun c' hno ↦ ?_, ?_⟩
  · obtain ⟨t', ht', hkk⟩ := hold a t ht
    exact hkk ▸ h.row a t' ht'
  · rcases hcase a t ht with ⟨rfl, -⟩ | ⟨-, ht⟩
    · exact absurd hs hsa
    · exact h.hidden a t ht hsa
  · rw [hl]
    rcases hcase a t ht with ⟨rfl, rfl⟩ | ⟨hne, ht⟩
    · rw [hcopy] at hd
      obtain ⟨d', hd', rfl⟩ := Option.map_eq_some_iff.mp hd
      have hval := h.shown a g hg hs c' d' hd'
      by_cases hcc : c' = c
      · subst hcc
        rw [if_pos rfl, value_write_self, hval]
      · rw [if_neg hcc, value_write_other (Ne.symm hcc), hval]
    · by_cases hcc : c = c'
      · subst hcc
        have hkk : t.contract = g.contract := (copy_contract hd).symm.trans (copy_contract hd₀)
        exact absurd (le_antisymm (h.first a id t g ht hsa hg hkk.symm)
          (h.first id a g t hg hs ht hkk)) hne
      · rw [value_write_other hcc]
        exact h.shown a t ht hsa c' d hd
  · obtain ⟨u, hu, huu⟩ := hold a t ht
    obtain ⟨u', hu', huu'⟩ := hold a' t' ht'
    exact h.first a a' u u' hu hsa hu' (huu'.trans (htt.trans huu.symm))
  · rw [hl]
    have hcc : c ≠ c' := by
      rintro rfl
      have hnone := hno id g' (by rw [getElem?_insert, if_pos rfl]) hs
      rw [hcopy, hd₀] at hnone
      cases hnone
    rw [value_write_other hcc]
    refine h.stored c' fun a t ht hsa ↦ ?_
    by_cases ha : a = id
    · subst ha
      have hnone := hno a g' (by rw [getElem?_insert, if_pos rfl]) hs
      rw [hcopy, Option.map_eq_none_iff] at hnone
      rw [hg] at ht
      exact Option.some.inj ht ▸ hnone
    · exact hno a t (by rw [getElem?_insert, if_neg (Ne.symm ha), ht]) hsa
  · rw [hl]
    exact h.consistent

end Steps

end Taiyi.Contract
