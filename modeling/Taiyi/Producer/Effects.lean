import Taiyi.Producer.Apply

set_option autoImplicit false

namespace Taiyi.Producer

open Transactions

variable {Op Sig TrxId Result World Global Plugin Key Digest : Type} [DecidableEq TrxId]
  [TransactionId Op TrxId] [DecidableEq Key] [DecidableEq Digest]
  [Engine Op Sig Result World Global Plugin Key Digest]

variable {producing : Bool} {skip : SkipFlags} {now : Head} {op : Op} {ops : List Op}
  {c : Content World Global Plugin} {p : Process} {t : SignedTransaction Op Sig}
  {ts : List (SignedTransaction Op Sig)} {s : State Op Sig TrxId Result (Content World Global Plugin)}
  {b : SignedBlock Op Sig (Header Key Digest)}

section Follows

omit [DecidableEq Key] [DecidableEq Digest]

theorem applyOperation_follows (p : Process) :
    p.Follows (applyOperation Sig producing now op c p).2 := by
  unfold applyOperation
  split
  · exact .refl p
  · exact .andThen (Evaluator.apply_follows ..) fun r q ↦ .refl q

theorem applyOperations_follows (p : Process) :
    p.Follows (applyOperations Sig producing now ops c p).2 := by
  induction ops generalizing c p with
  | nil => exact .refl p
  | cons op ops ih =>
    exact .andThen (applyOperation_follows p) fun r q ↦ .andThen (ih q) fun rs q ↦ .refl q

end Follows

theorem applyTransaction_follows (p : Process) :
    p.Follows (applyTransaction producing skip t s p).2 := by
  have h : p.Follows (applyOperations Sig producing s.head t.operations s.world p).2 :=
    applyOperations_follows p
  unfold applyTransaction
  split
  · exact .refl p
  split
  · exact .refl p
  split
  · exact .refl p
  split
  · exact .refl p
  split
  · next hops =>
    rw [hops] at h
    exact h
  · next hops =>
    rw [hops] at h
    split <;> exact h

theorem applyTransactions_follows (p : Process) : p.Follows (applyTransactions producing skip ts s p).2 := by
  induction ts generalizing s p with
  | nil => exact .refl p
  | cons t ts ih => exact .andThen (applyTransaction_follows p) fun s q ↦ ih q

theorem applyBlock_follows (p : Process) : p.Follows (applyBlock producing skip b s p).2 := by
  unfold applyBlock
  split
  · exact .refl p
  · exact .andThen (applyTransactions_follows p) fun s q ↦ .refl q

section Result

omit [DecidableEq Key] [DecidableEq Digest] in
theorem applyOperation_fst (hp : p.invokingPath = []) :
    (applyOperation Sig producing now op c p).1 = (applyOperation Sig producing now op c {}).1 := by
  unfold applyOperation
  split
  · rfl
  · exact andThen_fst (Evaluator.apply_eq hp) fun r _ ↦ rfl

/-- In a process between operations a block is applied as if no process were there. -/
theorem applyOperations_fst (hp : p.invokingPath = []) :
    (applyOperations Sig false now ops c p).1 = Transactions.applyOperations Sig now ops c := by
  induction ops generalizing c p with
  | nil => rfl
  | cons op ops ih =>
    have h : (applyOperation Sig false now op c p).1 = Protocol.applyOperation Sig now op c :=
      applyOperation_fst hp
    have hq : p.Follows (applyOperation Sig false now op c p).2 := applyOperation_follows p
    rw [applyOperations, Transactions.applyOperations, ← h]
    revert hq
    generalize applyOperation Sig false now op c p = x
    obtain ⟨_ | ⟨r, d⟩, q⟩ := x <;> intro hq
    · rfl
    · dsimp only [andThen]
      rw [← ih (hq.path hp)]
      generalize applyOperations Sig false now ops d q = y
      obtain ⟨_ | ⟨rs, d'⟩, q'⟩ := y <;> rfl

theorem applyTransaction_fst (hp : p.invokingPath = []) :
    (applyTransaction false skip t s p).1 = Transactions.applyTransaction skip t s := by
  have hops : (applyOperations Sig false s.head t.operations s.world p).1 =
      Transactions.applyOperations Sig s.head t.operations s.world := applyOperations_fst hp
  unfold applyTransaction Transactions.applyTransaction
  rw [← hops]
  generalize applyOperations Sig false s.head t.operations s.world p = x
  split
  · rfl
  split
  · rfl
  split
  · rfl
  cases s.checkTime skip t with
  | error e => rfl
  | ok _ =>
    obtain ⟨_ | ⟨results, c⟩, q⟩ := x
    · rfl
    · dsimp only
      split <;> rfl

theorem applyTransactions_fst (hp : p.invokingPath = []) :
    (applyTransactions false skip ts s p).1 = Transactions.applyTransactions skip ts s := by
  induction ts generalizing s p with
  | nil => rfl
  | cons t ts ih =>
    have hq : p.Follows (applyTransaction false skip t s p).2 := applyTransaction_follows p
    rw [applyTransactions, Transactions.applyTransactions, ← applyTransaction_fst hp]
    revert hq
    generalize applyTransaction false skip t s p = x
    obtain ⟨_ | s', q⟩ := x <;> intro hq
    · rfl
    · exact ih (hq.path hp)

/-- Between operations the process does not show in what a block does. -/
theorem applyBlock_fst (hp : p.invokingPath = []) :
    (applyBlock false skip b s p).1 = Transactions.applyBlock skip b s := by
  unfold applyBlock Transactions.applyBlock
  cases startBlock skip b s with
  | error e => rfl
  | ok s₁ =>
    dsimp only
    rw [← applyTransactions_fst hp]
    generalize applyTransactions false skip b.transactions s₁ p = x
    obtain ⟨_ | s₂, q⟩ := x <;> rfl

end Result

/-- The same content for every evaluator. -/
structure Same (s s₁ : State Op Sig TrxId Result (Content World Global Plugin)) : Prop where
  head : s₁.head = s.head
  blockSummary : s₁.blockSummary = s.blockSummary
  transactions : s₁.transactions = s.transactions
  world : s₁.world.world = s.world.world
  currentSiming : s₁.world.currentSiming = s.world.currentSiming
  global : s₁.world.global = s.world.global

section Producing

omit [DecidableEq Key] [DecidableEq Digest]

variable {c' d : Content World Global Plugin} {p' q : Process}

/-- Operations reach nothing but what evaluators change and the table of the plugin. -/
theorem applyOperation_keeps {r : Result}
    (h : applyOperation Sig producing now op c p = (.ok (r, c'), p')) :
    c' = { c with world := c'.world, customOps := c'.customOps } := by
  unfold applyOperation at h
  split at h
  · cases h
  obtain ⟨⟨r', w⟩, p₁, -, hpost⟩ := andThen_ok.mp h
  cases hpost
  rfl

theorem applyOperations_keeps {results : List Result}
    (h : applyOperations Sig producing now ops c p = (.ok (results, c'), p')) :
    c' = { c with world := c'.world, customOps := c'.customOps } := by
  induction ops generalizing c p results with
  | nil =>
    cases h
    rfl
  | cons op ops ih =>
    obtain ⟨⟨r, c₁⟩, p₁, hop, h⟩ := andThen_ok.mp h
    obtain ⟨⟨rs, c₂⟩, p₂, hops, h⟩ := andThen_ok.mp h
    cases h
    rw [ih hops, applyOperation_keeps hop]

theorem applyOperation_of_producing {r : Result} (hpq : Process.Alike p q)
    (hw : d.world = c.world) (hs : d.currentSiming = c.currentSiming) (hg : d.global = c.global)
    (h : applyOperation Sig true now op c p = (.ok (r, c'), p')) :
    ∃ q', applyOperation Sig false now op d q = (.ok (r, { d with world := c'.world }), q') ∧
      Process.Alike p' q' := by
  unfold applyOperation at h
  rw [if_pos rfl] at h
  split at h
  · cases h
  obtain ⟨⟨r', w⟩, p₁, hv, hpost⟩ := andThen_ok.mp h
  cases hpost
  obtain ⟨q', hq, halike⟩ := Evaluator.exists_of_producing hpq hv
  refine ⟨q', ?_, halike⟩
  unfold applyOperation
  rw [if_neg Bool.false_ne_true, hw, hs, hg]
  exact andThen_ok_eq hq

theorem applyOperations_of_producing {results : List Result} (hpq : Process.Alike p q)
    (hw : d.world = c.world) (hs : d.currentSiming = c.currentSiming) (hg : d.global = c.global)
    (h : applyOperations Sig true now ops c p = (.ok (results, c'), p')) :
    ∃ q', applyOperations Sig false now ops d q = (.ok (results, { d with world := c'.world }), q') ∧
      Process.Alike p' q' := by
  induction ops generalizing c d p q results with
  | nil =>
    cases h
    refine ⟨q, ?_, hpq⟩
    rw [← hw]
    rfl
  | cons op ops ih =>
    obtain ⟨⟨r, c₁⟩, p₁, hop, h⟩ := andThen_ok.mp h
    obtain ⟨⟨rs, c₂⟩, p₂, hops, h⟩ := andThen_ok.mp h
    cases h
    obtain ⟨q₁, hq₁, halike₁⟩ := applyOperation_of_producing hpq hw hs hg hop
    have hc₁ := applyOperation_keeps hop
    have hs₁ : d.currentSiming = c₁.currentSiming := by rw [hc₁]; exact hs
    have hg₁ : d.global = c₁.global := by rw [hc₁]; exact hg
    obtain ⟨q₂, hq₂, halike₂⟩ :=
      ih (c := c₁) (d := { d with world := c₁.world }) halike₁ rfl hs₁ hg₁ hops
    exact ⟨q₂, (andThen_ok_eq hq₁).trans (andThen_ok_eq hq₂), halike₂⟩

end Producing

/-- A transaction reaches neither the head nor what only the rest of a block changes. -/
theorem applyTransaction_keeps {s' : State Op Sig TrxId Result (Content World Global Plugin)}
    {p' : Process} (h : applyTransaction producing skip t s p = (.ok s', p')) :
    s'.head = s.head ∧
      s'.world = { s.world with world := s'.world.world, customOps := s'.world.customOps } := by
  unfold applyTransaction at h
  split at h
  · cases h
  split at h
  · cases h
  split at h
  · cases h
  split at h
  · cases h
  split at h
  · cases h
  next hops =>
  have hc := applyOperations_keeps hops
  split at h <;> cases h <;> exact ⟨rfl, hc⟩

/-- A transaction that applies during production has the same effect in a state that is the
same for every evaluator, and leaves the rest of that state as it is. -/
theorem applyTransaction_of_producing
    {s' s₁ : State Op Sig TrxId Result (Content World Global Plugin)} {p' q : Process}
    (hpq : Process.Alike p q) (hs : Same s s₁)
    (h : applyTransaction true skip t s p = (.ok s', p')) :
    ∃ s₁' q', applyTransaction false skip t s₁ q = (.ok s₁', q') ∧ Process.Alike p' q' ∧
      Same s' s₁' ∧ s₁'.world = { s₁.world with world := s'.world.world } := by
  obtain ⟨d, rfl⟩ : ∃ d, s₁ = { s with world := d } := by
    obtain ⟨head, summary, transactions, d⟩ := s₁
    obtain ⟨rfl, rfl, rfl, -, -, -⟩ := hs
    exact ⟨d, rfl⟩
  have hw : d.world = s.world.world := hs.world
  have hverify : (Protocol.verifyAuthority t d : Bool) = Protocol.verifyAuthority t s.world :=
    congrArg (Engine.verifyAuthority t) hw
  have hknown : State.isKnownTransaction { s with world := d } t.id = s.isKnownTransaction t.id := rfl
  have htime : State.checkTime { s with world := d } skip t = s.checkTime skip t := rfl
  unfold applyTransaction at h ⊢
  rw [hknown, htime]
  simp only [hverify]
  split at h
  · cases h
  next hvalid =>
  split at h
  · cases h
  next hdupe =>
  split at h
  · cases h
  next hauth =>
  rw [if_neg hvalid, if_neg hdupe, if_neg hauth]
  split at h
  · cases h
  split at h
  · cases h
  next results c' p₁ hops =>
  obtain ⟨q', hq, halike⟩ := applyOperations_of_producing hpq hw hs.currentSiming hs.global hops
  have hc := applyOperations_keeps hops
  have hcur : d.currentSiming = c'.currentSiming := by rw [hc]; exact hs.currentSiming
  have hglobal : d.global = c'.global := by rw [hc]; exact hs.global
  simp only [hq]
  split at h
  · next hskip =>
    cases h
    exact ⟨_, q', if_pos hskip, halike, ⟨rfl, rfl, rfl, rfl, hcur, hglobal⟩, rfl⟩
  · next hskip =>
    cases h
    exact ⟨_, q', if_neg hskip, halike, ⟨rfl, rfl, rfl, rfl, hcur, hglobal⟩, rfl⟩

end Taiyi.Producer
