import Taiyi.Contract.RightHelpers

set_option autoImplicit false

namespace Taiyi.Contract

open Library.IdMap Library.Frame Library.Outcome

/-- An action that sets the run zone is known and its NFA is in the zone of the outermost one, and
no jump passes by an action that has set it. -/
def Event.Tidy : Event → Prop
  | .acted outer location zone before known =>
    (known = true ∨ zone = before) ∧ (before = none → location = outer.getD location)
  | .jumpedOut zone before => zone = before
  | _ => True

instance : DecidablePred Event.Tidy
  | .acted outer location zone before known =>
    inferInstanceAs (Decidable
      ((known = true ∨ zone = before) ∧ (before = none → location = outer.getD location)))
  | .jumpedOut zone before => inferInstanceAs (Decidable (zone = before))
  | .entered .. | .used .. | .built .. | .fetched .. | .wroteContract .. | .wroteAccount ..
  | .readContract .. | .readAccount .. | .jumped | .abandoned .. | .invoked .. | .startedSession
  | .squashed | .undone => isTrue trivial

def Tidy (m : Machine) : Prop := ∀ e ∈ m.events, e.Tidy

/-- Every NFA that acted did so in the zone of the outermost one. -/
def Placed (m : Machine) : Prop :=
  ∀ outer location zone before known,
    Event.acted outer location zone before known ∈ m.events → zone = outer.getD location

def Grows (m m' : Machine) : Prop := ∀ e ∈ m.events, e ∈ m'.events

instance : IsPreorder Machine Grows where
  refl _ _ := id
  trans _ _ _ h h' e he := h' e (h e he)

/-- From a run zone that is allowed, the run leads back to it. -/
def Zoned (P : Option ℕ → Prop) (m m' : Machine) : Prop :=
  Grows m m' ∧ (Tidy m' → P m.runZone → m'.runZone = m.runZone ∧ (Placed m → Placed m'))

/-- No zone is set, or that of the outermost NFA. -/
def InZone (outer : Option (Option ℕ)) (zone : Option ℕ) : Prop := zone = none ∨ outer = some zone

section Zoned

variable {P Q : Option ℕ → Prop} {m m' : Machine}

theorem Grows.tidy (h : Grows m m') (ht : Tidy m') : Tidy m := fun e he ↦ ht e (h e he)

instance : IsPreorder Machine (Zoned P) where
  refl m := ⟨refl_of Grows m, fun _ _ ↦ ⟨rfl, id⟩⟩
  trans m m' m'' h h' := by
    refine ⟨trans_of Grows h.1 h'.1, fun ht hp ↦ ?_⟩
    obtain ⟨hz, hpl⟩ := h.2 (h'.1.tidy ht) hp
    obtain ⟨hz', hpl'⟩ := h'.2 ht (hz ▸ hp)
    exact ⟨hz'.trans hz, hpl' ∘ hpl⟩

theorem Zoned.weaken (h : Zoned P m m') (hq : ∀ z, Q z → P z) : Zoned Q m m' :=
  ⟨h.1, fun ht hz ↦ h.2 ht (hq _ hz)⟩

/-- What sets no zone and notes no action. -/
theorem zoned_of_same (hz : m'.runZone = m.runZone) (he : m'.events = m.events) : Zoned P m m' :=
  ⟨fun _ h ↦ he ▸ h, fun _ _ ↦ ⟨hz, fun hp outer location zone before known h ↦
    hp outer location zone before known (he ▸ h)⟩⟩

theorem loose_zoned : Loose (Zoned P) :=
  ⟨fun _ _ ↦ zoned_of_same rfl rfl, fun _ _ ↦ zoned_of_same rfl rfl⟩

theorem zoned_event {e : Event} (he : ∀ outer location zone before known,
    e ≠ .acted outer location zone before known) (m : Machine) :
    Zoned P m { m with events := e :: m.events } := by
  refine ⟨fun _ ↦ List.mem_cons_of_mem _, fun _ _ ↦ ⟨rfl, fun hp outer location zone before known h ↦
    ?_⟩⟩
  rcases List.mem_cons.mp h with h | h
  · exact absurd h.symm (he _ _ _ _ _)
  · exact hp outer location zone before known h

theorem pathless_zoned : Pathless (Zoned P) :=
  ⟨fun _ _ _ ↦ zoned_of_same rfl rfl, fun m _ _ ↦ zoned_event (fun _ _ _ _ _ h ↦ by cases h) m⟩

theorem above_zoned : Above (Zoned P) :=
  ⟨fun _ _ _ ↦ zoned_of_same rfl rfl, fun _ _ ↦ zoned_of_same rfl rfl,
    zoned_event fun _ _ _ _ _ h ↦ nomatch h⟩

theorem zoned_deleteHandler (m : Machine) (id : ℕ) : Zoned P m (after (deleteHandler id) m) := by
  have hz : ∀ m : Machine, ∀ a, (m.saveHandler a).runZone = m.runZone := fun m a ↦ by
    unfold Machine.saveHandler
    split <;> rfl
  refine zoned_of_same ?_ (deletes id m).events
  change Machine.runZone (List.foldl _ _ _) = _
  generalize subHandlers m id = l
  suffices h : ∀ t : Machine, (l.foldl Machine.saveHandler t).runZone = t.runZone from
    (h _).trans (hz m id)
  induction l with
  | nil => exact fun _ ↦ rfl
  | cons a l ih => exact fun t ↦ (ih _).trans (hz t a)

theorem zoned_abandoned (m : Machine) (id : ℕ) :
    Zoned P m { m with events := .abandoned id :: m.events } :=
  zoned_event (e := .abandoned id) (fun _ _ _ _ _ h ↦ nomatch h) m

variable {current : Option ℕ} {c : Call} {frame : Frame} {cond : Conditions}
  {body : Frame → ℕ → Run Unit}

theorem zoned_callFunction (hbody : ∀ e, Moves (Zoned P) (body frame e)) :
    Moves (Zoned P) (callFunction current c frame cond body) :=
  .bind .get fun _ ↦ .bind (.update (zoned_event fun _ _ _ _ _ h ↦ nomatch h)) fun _ ↦
    .bind (.update (zoned_event fun _ _ _ _ _ h ↦ nomatch h)) fun _ ↦
    moves_withHandler (fun _ _ ↦ zoned_of_same rfl rfl) (fun _ _ ↦ zoned_of_same rfl rfl)
      zoned_deleteHandler zoned_abandoned fun _ ↦
      moves_callInSandbox above_zoned
        (moves_luaPcall (fun _ _ ↦ zoned_of_same rfl rfl) (moves_runFunction hbody))

theorem zoned_call (hbody : ∀ e, Moves (Zoned P) (body frame e)) :
    Moves (Zoned P)
      (onAssertion (callFunction current c frame cond body) (restoreCurrent current)) :=
  moves_onAssertion (zoned_callFunction hbody) (moves_restoreCurrent above_zoned)

end Zoned

section Action

variable {f : Frame} {cond : Conditions} {body : Frame → ℕ → Run Unit}
  {location before nfaCaller : Option ℕ} {points : ℤ} {k nfa action n : ℕ} {m m' : Machine}

theorem InZone.callee {outer : Option (Option ℕ)} {z : Option ℕ} (h : InZone outer z) :
    InZone (some (outer.getD location)) z := by
  rcases h with h | h
  · exact .inl h
  · rw [h]
    exact .inr rfl

/-- Where the run zone is once an action was entered. -/
theorem InZone.entered {outer : Option (Option ℕ)} (h : InZone outer before)
    (hl : before = none → location = outer.getD location) :
    before.or location = outer.getD location := by
  cases before with
  | none => exact hl rfl
  | some z =>
    rcases h with h | h
    · cases h
    · rw [h]
      rfl

/-- What is so of the actions that are noted while one is entered. -/
def Places (outer : Option (Option ℕ)) (before : Option ℕ) (m m' : Machine) : Prop :=
  Grows m m' ∧ (Tidy m' → InZone outer before → Placed m → Placed m')

instance {outer : Option (Option ℕ)} {before : Option ℕ} :
    IsPreorder Machine (Places outer before) where
  refl m := ⟨refl_of Grows m, fun _ _ ↦ id⟩
  trans _ _ _ h h' := ⟨trans_of Grows h.1 h'.1, fun ht hz ↦ h'.2 ht hz ∘ h.2 (h'.1.tidy ht) hz⟩

section Breaking

theorem breaks_onObjects {α : Type} {x : Access α} : Throws Breaks (onObjects x) := by
  intro m err t h
  unfold onObjects EStateM.run at h
  dsimp only at h
  split at h
  · cases h
  · next msg _ _ =>
    cases h
    exact .inl ⟨msg, rfl⟩

theorem breaks_onLedger {α : Type} {x : Ledger.Call α} : Throws Breaks (onLedger x) :=
  breaks_onObjects

theorem breaks_getContract {k : ℕ} : Throws Breaks (getContract k) :=
  .bind .get fun _ ↦ breaks_lookup

theorem breaks_getMainContract {nfa : ℕ} : Throws Breaks (getMainContract nfa) :=
  .bind .get fun _ ↦ .bind breaks_lookup fun _ ↦ .bind breaks_getContract fun _ ↦ .pure _

theorem breaks_requireArguments {n : ℕ} {entry : Option AbiEntry} :
    Throws Breaks (requireArguments n entry) := by
  unfold requireArguments
  split
  · exact .bind breaks_require fun _ ↦ breaks_require
  · exact breaks_assertion
  · exact breaks_assertion

theorem breaks_readCurrent : Throws Breaks readCurrent := by
  refine .bind .get fun m ↦ ?_
  split
  · exact breaks_assertion
  · exact .bind breaks_lookup fun _ ↦ .bind breaks_lookup fun _ ↦ .bind breaks_lookup fun _ ↦
      .pure _

theorem breaks_onAssertion {x cleanup : Run Unit} (hx : Throws Breaks x)
    (hc : Throws Breaks cleanup) : Throws Breaks (onAssertion x cleanup) := by
  intro m
  cases hr : x.run m with
  | ok _ t =>
    intro err u h
    rw [onAssertion, EStateM.run_bind, attempt_ok hr] at h
    cases h
  | error err t =>
    intro err' u h
    rw [onAssertion, EStateM.run_bind, attempt_error hr] at h
    match err with
    | .assertion _ => exact Throws.bind hc (fun _ ↦ breaks_assertion) t err' u h
    | .jump =>
      cases h
      exact hx m .jump t hr
    | .truncated =>
      cases h
      exact hx m .truncated t hr

theorem breaks_restoreCurrent {current : Option ℕ} : Throws Breaks (restoreCurrent current) := by
  cases current with
  | some => exact .update
  | none => exact .pure _

theorem breaks_callForNfa {caller : Option ℕ} {isInEval : Bool} :
    Throws Breaks (callForNfa f location caller nfaCaller k nfa isInEval cond body) :=
  .bind breaks_readCurrent fun _ ↦ breaks_onAssertion breaks_callFunction breaks_restoreCurrent

theorem breaks_performAction {c : ContractObject} {d : Option (Option Bool)} :
    Throws Breaks (performAction f nfaCaller points nfa action n cond body location k c d) := by
  cases d with
  | none => exact .pure _
  | some =>
    exact .bind breaks_require fun _ ↦ .bind breaks_requireArguments fun _ ↦
      .bind .update fun _ ↦ .bind breaks_callForNfa fun _ ↦ .pure _

theorem breaks_admitAction {known : Bool} :
    Throws Breaks (admitAction f location before k known) :=
  .bind .get fun _ ↦ .bind breaks_require fun _ ↦ .update

theorem breaks_enterZone {zone : Option ℕ} : Throws Breaks (enterZone before zone) := by
  unfold enterZone
  split
  · exact .update
  · exact .pure _

theorem breaks_enterAction {hash : ℕ → ℕ} {caller seed : ℕ} : Throws Breaks
    (enterAction hash f caller nfaCaller points nfa action n seed cond body before) :=
  .bind .update fun _ ↦ .bind breaks_onLedger fun _ ↦ .bind .get fun _ ↦
    .bind breaks_enterZone fun _ ↦ .bind breaks_onLedger fun _ ↦ .bind breaks_onLedger fun _ ↦
    .bind breaks_getMainContract fun _ ↦ .bind breaks_admitAction fun _ ↦ breaks_performAction

end Breaking

variable (hbody : ∀ f e, Moves (Zoned (InZone f.outer)) (body f e))
include hbody

theorem zoned_callForNfa {caller : Option ℕ} {isInEval : Bool} :
    Moves (Zoned (InZone (some (f.outer.getD location))))
      (callForNfa f location caller nfaCaller k nfa isInEval cond body) :=
  .bind moves_readCurrent fun _ ↦ zoned_call fun e ↦ hbody _ e

theorem zoned_evalAction :
    Moves (Zoned (InZone f.outer)) (evalAction f nfaCaller points nfa action n cond body) := by
  refine .bind (moves_addExePoint loose_zoned) fun _ ↦ .bind (moves_onLedger loose_zoned) fun _ ↦
    .bind moves_getMainContract fun c ↦ ?_
  split
  · exact .pure _
  · exact .bind moves_require fun _ ↦ .bind moves_requireArguments fun _ ↦
      .bind (moves_addExePoint loose_zoned) fun _ ↦ .bind moves_readCurrent fun _ ↦
      .bind .get fun _ ↦ (zoned_callForNfa hbody).mono fun _ _ h ↦ h.weaken fun _ ↦ InZone.callee

theorem zoned_callNfaFunction {caller : Option ℕ} {function : FunctionName} {assertExists : Bool} :
    Moves (Zoned (InZone f.outer))
      (callNfaFunction f caller nfa function n assertExists cond body) := by
  refine .bind (moves_addExePoint loose_zoned) fun _ ↦ .bind (moves_onLedger loose_zoned) fun _ ↦
    .bind moves_getMainContract fun c ↦ ?_
  split
  · exact moves_require
  · exact .bind moves_requireArguments fun _ ↦
      .bind (moves_addExePoint loose_zoned) fun _ ↦ .bind moves_readCurrent fun _ ↦
      .bind .get fun _ ↦ (zoned_callForNfa hbody).mono fun _ _ h ↦ h.weaken fun _ ↦ InZone.callee

theorem zoned_performAction {c : ContractObject} {d : Option (Option Bool)} :
    Moves (Zoned (InZone (some (f.outer.getD location))))
      (performAction f nfaCaller points nfa action n cond body location k c d) := by
  cases d with
  | none => exact .pure _
  | some =>
    exact .bind moves_require fun _ ↦ .bind moves_requireArguments fun _ ↦
      .bind (moves_addExePoint loose_zoned) fun _ ↦ .bind (zoned_callForNfa hbody) fun _ ↦ .pure _

omit hbody in
theorem admitAction_ok {known : Bool} (h : (admitAction f location before k known).run m = .ok ⟨⟩ m') :
    m' = { m with events := .acted f.outer location m.runZone before known :: m.events } := by
  obtain ⟨_, _, hg, h₁⟩ := bind_ok.mp h
  cases hg
  obtain ⟨_, t, hr, h₂⟩ := bind_ok.mp h₁
  obtain rfl : t = m := (after_ok hr).symm.trans ((moves_require : Moves (Same id) _) m)
  cases h₂
  rfl

/-- An action that was entered in some zone is noted there, and runs in it. -/
theorem zoned_admitted {known : Bool} {c : ContractObject} {d : Option (Option Bool)} :
    Moves (Zoned fun z ↦ z = before.or location ∧ InZone f.outer before) (do
      admitAction f location before k known
      performAction f nfaCaller points nfa action n cond body location k c d) := by
  have hperform := @zoned_performAction f cond body location nfaCaller points k nfa action n hbody c d
  by_cases hl : before = none → location = f.outer.getD location
  · refine .bind (moves_admitAction fun m ↦ ?_) fun _ ↦
      hperform.mono fun _ _ h ↦ h.weaken fun z hz ↦ .inr ?_
    · refine ⟨fun _ ↦ List.mem_cons_of_mem _, fun _ hz ↦ ⟨rfl, fun hp o l z b kn he ↦ ?_⟩⟩
      rcases List.mem_cons.mp he with he | he
      · cases he
        exact hz.1.trans (hz.2.entered hl)
      · exact hp o l z b kn he
    · rw [hz.1, hz.2.entered hl]
  · -- an action that is noted outside of the zone of the outermost NFA is not tidy
    have huntidy : ∀ t z, Event.acted f.outer location z before known ∈ t.events → ¬Tidy t :=
      fun t z he ht ↦ hl (ht _ he).2
    intro m
    refine Moves.bind_at (moves_admitAction (fun m ↦ ?_) m) fun _ t ht ↦ ?_
    · exact ⟨fun _ ↦ List.mem_cons_of_mem _, fun ht ↦ absurd ht (huntidy _ _ List.mem_cons_self)⟩
    · have he : Event.acted f.outer location m.runZone before known ∈ t.events := by
        rw [admitAction_ok ht]
        exact List.mem_cons_self
      exact ⟨(hperform t).1, fun htidy ↦ absurd htidy (huntidy _ _ ((hperform t).1 _ he))⟩

theorem zoned_actInZone {hash : ℕ → ℕ} {seed : ℕ} :
    Moves (Zoned fun z ↦ z = before.or location ∧ InZone f.outer before)
      (actInZone hash f nfaCaller points nfa action n seed cond body location before) :=
  .bind (moves_onLedger loose_zoned) fun _ ↦ .bind (moves_onLedger loose_zoned) fun _ ↦
    .bind moves_getMainContract fun _ ↦ zoned_admitted hbody

omit hbody in
theorem enterZone_ok (h : (enterZone before location).run m = .ok ⟨⟩ m') (hb : m.runZone = before) :
    m' = { m with runZone := before.or location } := by
  unfold enterZone at h
  split at h
  · cases h
    rfl
  · next hne =>
    cases h
    match before, location with
    | some _, _ =>
      rw [Option.some_or, ← hb]
    | none, none =>
      rw [Option.none_or, ← hb]
    | none, some z => exact absurd rfl (hne z rfl)

omit hbody in
theorem Zoned.places {P : Option ℕ → Prop} {outer : Option (Option ℕ)} (h : Zoned P m m')
    (hp : InZone outer before → P m.runZone) : Places outer before m m' :=
  ⟨h.1, fun ht hz ↦ (h.2 ht (hp hz)).2⟩

theorem places_enterAction {hash : ℕ → ℕ} {caller seed : ℕ} (hb : m.runZone = before) :
    Places f.outer before m
      (after (enterAction hash f caller nfaCaller points nfa action n seed cond body before) m) := by
  have hquiet : ∀ t t' : Machine, Zoned (fun _ ↦ True) t t' → Places f.outer before t t' :=
    fun t t' h ↦ h.places fun _ ↦ trivial
  refine Moves.bind_at (hquiet _ _ (moves_addExePoint loose_zoned m)) fun _ t ht ↦ ?_
  cases ht
  refine Moves.bind_at (hquiet _ _ (moves_onLedger loose_zoned _)) fun _ t ht ↦ ?_
  have hz : t.runZone = m.runZone :=
    after_ok ht ▸ (moves_onLedger ⟨fun _ _ ↦ rfl, fun _ _ ↦ rfl⟩ :
      Moves (Same Machine.runZone) _) _
  refine Moves.bind_at (Moves.get t) fun _ _ hg ↦ ?_
  cases hg
  refine Moves.bind_at ?_ fun _ u hu ↦ ?_
  · unfold enterZone
    split
    · exact ⟨fun _ ↦ id, fun _ _ ↦ id⟩
    · exact refl_of (Places f.outer _) t
  · cases enterZone_ok hu (hz.trans hb)
    exact Zoned.places (zoned_actInZone hbody _) fun h ↦ ⟨rfl, h⟩

omit hbody in
/-- An action that is not known is noted in the zone that it is left in. -/
theorem enterAction_unknown {hash : ℕ → ℕ} {caller seed : ℕ}
    (h : (enterAction hash f caller nfaCaller points nfa action n seed cond body before).run m =
      .ok false m') :
    ∃ location, Event.acted f.outer location m'.runZone before false ∈ m'.events := by
  obtain ⟨_, t₁, -, h₁⟩ := bind_ok.mp h
  obtain ⟨_, t₂, -, h₂⟩ := bind_ok.mp h₁
  obtain ⟨_, t₃, -, h₃⟩ := bind_ok.mp h₂
  obtain ⟨_, t₄, -, h₄⟩ := bind_ok.mp h₃
  obtain ⟨_, t₅, -, h₅⟩ := bind_ok.mp h₄
  obtain ⟨_, t₆, -, h₆⟩ := bind_ok.mp h₅
  obtain ⟨c, t₇, -, h₇⟩ := bind_ok.mp h₆
  obtain ⟨_, t₈, ha, h₈⟩ := bind_ok.mp h₇
  have he := admitAction_ok ha
  cases hd : c.2.actionDef action with
  | none =>
    rw [hd] at h₈ he
    cases h₈
    rw [he]
    exact ⟨_, List.mem_cons_self⟩
  | some =>
    rw [hd] at h₈
    obtain ⟨_, t₉, -, h₉⟩ := bind_ok.mp h₈
    obtain ⟨_, t₁₀, -, h₁₀⟩ := bind_ok.mp h₉
    obtain ⟨_, t₁₁, -, h₁₁⟩ := bind_ok.mp h₁₀
    obtain ⟨_, t₁₂, -, h₁₂⟩ := bind_ok.mp h₁₁
    cases h₁₂

omit hbody in
theorem Places.zoned {outer : Option (Option ℕ)} (h : Places outer m.runZone m m')
    (hz : Tidy m' → m'.runZone = m.runZone) : Zoned (InZone outer) m m' :=
  ⟨h.1, fun ht hin ↦ ⟨hz ht, h.2 ht hin⟩⟩

theorem zoned_doAction {hash : ℕ → ℕ} {caller seed : ℕ} :
    Moves (Zoned (InZone f.outer))
      (doAction hash f caller nfaCaller points nfa action n seed cond body) := by
  intro m
  refine Moves.bind_at (Moves.get m) fun _ _ hg ↦ ?_
  cases hg
  have hplaces : Places f.outer m.runZone m (after
      (enterAction hash f caller nfaCaller points nfa action n seed cond body m.runZone) m) :=
    places_enterAction hbody rfl
  have hset : ∀ t z, Places f.outer m.runZone t { t with runZone := z } := fun _ _ ↦
    ⟨fun _ ↦ id, fun _ _ ↦ id⟩
  cases hr : (enterAction hash f caller nfaCaller points nfa action n seed cond body m.runZone).run m
    with
  | ok known t =>
    rw [after_bind_ok (attempt_ok hr)]
    rw [after_ok hr] at hplaces
    cases known with
    | true => exact (trans_of (Places f.outer m.runZone) hplaces (hset t _)).zoned fun _ ↦ rfl
    | false =>
      obtain ⟨location, he⟩ := enterAction_unknown hr
      exact hplaces.zoned fun ht ↦ (ht _ he).1.resolve_left Bool.false_ne_true
  | error err t =>
    rw [after_bind_ok (attempt_error hr)]
    rw [after_error hr] at hplaces
    match err with
    | .assertion _ =>
      exact (trans_of (Places f.outer m.runZone) hplaces (hset t _)).zoned fun _ ↦ rfl
    | .jump =>
      refine (trans_of (Places f.outer m.runZone) hplaces ((zoned_event (P := fun _ ↦ True)
        (e := .jumpedOut t.runZone m.runZone) (fun _ _ _ _ _ h ↦ nomatch h) t).places
          fun _ ↦ trivial)).zoned fun ht ↦ ?_
      exact ht _ List.mem_cons_self
    | .truncated =>
      obtain ⟨_, he⟩ | ⟨he, -⟩ := breaks_enterAction m _ t hr
      · cases he
      · cases he

end Action

end Taiyi.Contract
