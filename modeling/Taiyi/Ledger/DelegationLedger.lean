import Taiyi.Ledger.Takes

set_option autoImplicit false

namespace Taiyi.Ledger

open Library.IdMap Library.Outcome Library.Frame Library.RowList

def State.delegated (s : State) (a : ℕ) : ℤ := (s.account a).delegatedQi

section Frame

variable {hash : ℕ → ℕ} {a : ℕ} {s t : State}

theorem delegated_of_spends {k : ℕ → ℤ} (h : Spends k s t) : t.delegated = s.delegated :=
  funext fun a ↦ congrArg Prod.fst (h.promised a)

theorem keepsDelegated_of_spends {α : Type} {x : Call α} {k : ℕ → ℤ}
    (h : ∀ s, Spends k s (after x s)) : Moves (Same State.delegated) x :=
  fun s ↦ delegated_of_spends (h s)

theorem keepsDelegated_of_spares {α : Type} {x : Call α} (h : Spares x) :
    Moves (Same State.delegated) x := keepsDelegated_of_spends h

theorem keepsDelegated_modifyAccount {f : Account → Account}
    (h : ∀ acc, (f acc).delegatedQi = acc.delegatedQi) :
    Moves (Same State.delegated) (modifyAccount a f) :=
  moves_modifyIn fun s acc hacc ↦ funext fun b ↦ by
    rw [State.delegated, account_insert hacc rfl b]
    split
    · exact h _
    · rfl

theorem keepsDelegated_withdrawQi {qi : ℤ} : Moves (Same State.delegated) (withdrawQi a qi) := by
  refine .bind moves_require fun _ ↦
    .bind (keepsDelegated_of_spends fun _ ↦ spends_chargeTreasury) fun _ ↦
    .bind moves_getAccount fun _ ↦ .bind moves_require fun _ ↦ .ite (fun _ ↦ ?_) fun _ ↦ ?_
  · exact .bind moves_require fun _ ↦ keepsDelegated_modifyAccount fun _ ↦ rfl
  · exact .bind moves_require fun _ ↦ .bind .get fun _ ↦ keepsDelegated_modifyAccount fun _ ↦ rfl

theorem keepsDelegated_withdrawTurn : Moves (Same State.delegated) (withdrawTurn a) := by
  have hproxied : ∀ {b : ℕ} {delta : ℤ},
      Moves (Same State.delegated) (adjustProxiedSimingAdores b delta) :=
    keepsDelegated_of_spares spares_adjustProxied
  have hprops : ∀ {f : Props → Props}, Moves (Same State.delegated) (modifyProps f) :=
    .update fun _ ↦ rfl
  refine .bind moves_getAccount fun _ ↦ .bind (.forM fun _ _ ↦ ?_) fun _ ↦
    .bind (.forM fun _ _ ↦ ?_) fun _ ↦ .bind moves_require fun _ ↦ .bind moves_timesPrice fun _ ↦
    .bind (keepsDelegated_modifyAccount fun _ ↦ rfl) fun _ ↦ .bind hprops fun _ ↦
    .ite (fun _ ↦ hproxied) fun _ ↦ .pure _
  · exact .ite (fun _ ↦ .bind (keepsDelegated_modifyAccount fun _ ↦ rfl) fun _ ↦ hproxied)
      fun _ ↦ .pure _
  · exact .bind moves_getAccount fun _ ↦ .bind moves_timesPrice fun _ ↦
      .ite (fun _ ↦ .bind (keepsDelegated_modifyAccount fun _ ↦ rfl) fun _ ↦ hprops) fun _ ↦ .pure _

theorem keepsDelegated_withdrawFrom {turns : ℕ} {current : Option ℕ} :
    Moves (Same State.delegated) (withdrawFrom turns current) := by
  induction turns generalizing current with
  | zero =>
    cases current <;> exact .throw _
  | succ turns ih =>
    cases current with
    | none => exact .pure _
    | some a =>
      exact .bind moves_getAccount fun _ ↦ .bind .get fun _ ↦
        .ite (fun _ ↦ .bind keepsDelegated_withdrawTurn fun _ ↦ ih) fun _ ↦ .pure _

/-- Only delegations write the delegated QI of an account. -/
theorem delegated_step {act : Action} (h : act.step hash s = some t) (hp : act.plain) :
    t.delegated = s.delegated := by
  by_cases hw : act.Withdraws
  · have ht := after_of_step h
    cases hw with
    | withdrawQi a qi =>
      rw [← after_ok ht]
      exact keepsDelegated_withdrawQi s
    | processQiWithdrawals =>
      rw [← after_ok ht]
      exact (Moves.bind .get fun _ ↦ keepsDelegated_withdrawFrom) s
    | headBlock n time siming vt =>
      funext a
      rw [State.delegated, State.account, (headBlock_ok ht).1]
      rfl
  · exact delegated_of_spends (spends_step h hp hw)

end Frame

section Deeds

variable {a b fee : ℕ} {qi delta : ℤ} {d d' : Delegating} {u : Unit}

theorem onLedger_ok {α : Type} {x : Call α} {v : α} :
    (onLedger x).run d = .ok v d' ↔ ∃ s, x.run d.ledger = .ok v s ∧ d' = { d with ledger := s } := by
  unfold onLedger EStateM.run
  dsimp only
  split
  · next v' s h => simp [h, eq_comm]
  · next e s h => simp [h]

/-- The ledger after an account has delegated so much more. -/
def State.promise (s : State) (a : ℕ) (delta : ℤ) : State :=
  { s with
    accounts := s.accounts.insert a
      { s.account a with delegatedQi := (s.account a).delegatedQi + delta } }

theorem account_promise (s : State) (a : ℕ) (delta : ℤ) (c : ℕ) :
    (s.promise a delta).account c = if a = c then
      { s.account c with delegatedQi := (s.account c).delegatedQi + delta } else s.account c := by
  unfold State.account State.promise
  rw [getElem?_insert]
  split
  · next h => rw [← h]; rfl
  · rfl

theorem modifyDelegated_ok : (modifyDelegated a delta).run d = .ok u d' →
    d' = { d with ledger := d.ledger.promise a delta } := by
  intro h
  obtain ⟨s, hs, rfl⟩ := onLedger_ok.mp h
  obtain ⟨acc, hacc, rfl⟩ := modifyIn_ok.mp hs
  have : d.ledger.account a = acc := by rw [State.account, hacc]; rfl
  rw [State.promise, this]

theorem modifyReceived_ok : (modifyReceived a delta).run d = .ok u d' →
    d' = { d with receivedQi := Function.update d.receivedQi a (d.receivedQi a + delta) } := by
  intro h
  cases h
  rfl

/-- The four cases of `delegate_qi`, where a decrease and a cancellation return alike. -/
inductive Delegated (a b : ℕ) (qi : ℤ) (d : Delegating) : Delegating → Prop
  | create : d.delegations.find? (QiDelegation.between a b) = none →
      qi ≤ (d.ledger.account a).availableShares (d.receivedQi a) →
      Delegated a b qi d
        { d with
          ledger := d.ledger.promise a qi
          receivedQi := Function.update d.receivedQi b (d.receivedQi b + qi)
          delegations := d.delegations ++ [⟨a, b, qi, d.ledger.props.time⟩] }
  | increase (x : QiDelegation) : d.delegations.find? (QiDelegation.between a b) = some x →
      x.qi ≤ qi → qi - x.qi ≤ (d.ledger.account a).availableShares (d.receivedQi a) →
      Delegated a b qi d
        { d with
          ledger := d.ledger.promise a (qi - x.qi)
          receivedQi := Function.update d.receivedQi b (d.receivedQi b + (qi - x.qi))
          delegations :=
            modifyFirst (QiDelegation.between a b) (fun y ↦ { y with qi := qi }) d.delegations }
  | decrease (x : QiDelegation) (expiration : ℕ) :
      d.delegations.find? (QiDelegation.between a b) = some x → qi < x.qi → 0 < qi →
      Delegated a b qi d
        { d with
          receivedQi := Function.update d.receivedQi b (d.receivedQi b + -(x.qi - qi))
          expirations :=
            insertBy QiDelegationExpiration.expiration ⟨a, x.qi - qi, expiration⟩ d.expirations
          delegations :=
            modifyFirst (QiDelegation.between a b) (fun y ↦ { y with qi := qi }) d.delegations }
  | cancel (x : QiDelegation) (expiration : ℕ) :
      d.delegations.find? (QiDelegation.between a b) = some x → qi < x.qi → qi = 0 →
      Delegated a b qi d
        { d with
          receivedQi := Function.update d.receivedQi b (d.receivedQi b + -(x.qi - qi))
          expirations :=
            insertBy QiDelegationExpiration.expiration ⟨a, x.qi - qi, expiration⟩ d.expirations
          delegations := d.delegations.eraseP (QiDelegation.between a b) }

section Sequence

variable {α β : Type} {x : Deed α} {f : α → Deed β} {v : β}

theorem require_then {c : Prop} [Decidable c] {msg : String} {f : Unit → Deed β}
    (h : (onLedger (require c msg) >>= f).run d = .ok v d') : c ∧ (f ⟨⟩).run d = .ok v d' := by
  obtain ⟨_, d₁, h₁, h⟩ := bind_ok.mp h
  obtain ⟨s, hs, rfl⟩ := onLedger_ok.mp h₁
  obtain ⟨hc, rfl⟩ := require_ok.mp hs
  exact ⟨hc, h⟩

theorem getAccount_then {f : Account → Deed β}
    (h : (onLedger (getAccount a) >>= f).run d = .ok v d') :
    (f (d.ledger.account a)).run d = .ok v d' := by
  obtain ⟨acc, d₁, h₁, h⟩ := bind_ok.mp h
  obtain ⟨s, hs, rfl⟩ := onLedger_ok.mp h₁
  obtain ⟨hacc, rfl⟩ := getAccount_ok.mp hs
  have : d.ledger.account a = acc := by rw [State.account, hacc]; rfl
  rwa [this]

/-- A first part that leaves one state whenever it succeeds. -/
theorem deed_then {d₁ : Delegating} {x : Deed Unit} {f : Unit → Deed β}
    (h : (x >>= f).run d = .ok v d') (hx : ∀ u e, x.run d = .ok u e → e = d₁) :
    (f ⟨⟩).run d₁ = .ok v d' := by
  obtain ⟨u, e, h₁, h⟩ := bind_ok.mp h
  obtain rfl := hx u e h₁
  exact h

end Sequence

theorem modify_ok {g : Delegating → Delegating} {e : Delegating}
    (h : (modify g : Deed Unit).run d = .ok u e) : e = g d := by
  cases h
  rfl

theorem delegateQi_ok (h : (delegateQi fee a b qi).run d = .ok u d') :
    a ≠ b ∧ 0 ≤ qi ∧ Delegated a b qi d d' := by
  obtain ⟨hne, h⟩ := require_then h
  obtain ⟨hqi, h⟩ := require_then h
  replace h := getAccount_then (getAccount_then h)
  refine ⟨hne, hqi, ?_⟩
  obtain ⟨_, _, hget, h⟩ := bind_ok.mp h
  cases hget
  dsimp only at h
  split at h
  · next hnone =>
    obtain ⟨havail, h⟩ := require_then h
    obtain ⟨-, h⟩ := require_then h
    replace h := deed_then (deed_then h fun _ _ ↦ modify_ok) fun _ _ ↦ modifyDelegated_ok
    obtain rfl := modifyReceived_ok h
    exact .create hnone havail
  · next x hx =>
    split at h
    · next hle =>
      obtain ⟨-, h⟩ := require_then h
      obtain ⟨havail, h⟩ := require_then h
      replace h := deed_then (deed_then h fun _ _ ↦ modifyDelegated_ok) fun _ _ ↦ modifyReceived_ok
      obtain rfl := modify_ok h
      exact .increase x hx hle havail
    · next hlt =>
      obtain ⟨-, h⟩ := require_then h
      obtain ⟨-, h⟩ := require_then h
      obtain ⟨-, h⟩ := require_then h
      replace h := deed_then (deed_then h fun _ _ ↦ modify_ok) fun _ _ ↦ modifyReceived_ok
      obtain rfl := modify_ok h
      by_cases hpos : 0 < qi
      · simp only [if_pos hpos]
        exact .decrease x _ hx (not_le.mp hlt) hpos
      · simp only [if_neg hpos]
        exact .cancel x _ hx (not_le.mp hlt) (by omega)

end Deeds

/-- The part of a list of rows that a test accepts, summed up. -/
def totalOf {α : Type} (p : α → Bool) (qi : α → ℤ) (l : List α) : ℤ :=
  total (fun x ↦ if p x then qi x else 0) l

/-- The delegation ledger: what an account has delegated is what stands in its delegations and
in those that are on their way back, what it has received is what stands in the delegations to
it, and no two delegations join the same accounts. -/
structure Balanced (d : Delegating) : Prop where
  delegated : ∀ a, (d.ledger.account a).delegatedQi =
    totalOf (·.delegator = a) QiDelegation.qi d.delegations +
      totalOf (·.delegator = a) QiDelegationExpiration.qi d.expirations
  received : ∀ a, d.receivedQi a = totalOf (·.delegatee = a) QiDelegation.qi d.delegations
  unique : (d.delegations.map fun x ↦ (x.delegator, x.delegatee)).Nodup

section Preserved

variable {a b : ℕ} {qi : ℤ} {d d' : Delegating} {x : QiDelegation}

theorem between_of_find (h : d.delegations.find? (QiDelegation.between a b) = some x) :
    x.delegator = a ∧ x.delegatee = b := by
  simpa [QiDelegation.between] using List.find?_some h

/-- A delegation that is given another amount. -/
theorem totalOf_changed (p : QiDelegation → Bool)
    (hp : ∀ y : QiDelegation, p { y with qi := qi } = p y)
    (h : d.delegations.find? (QiDelegation.between a b) = some x) :
    totalOf p QiDelegation.qi
        (modifyFirst (QiDelegation.between a b) (fun y ↦ { y with qi := qi }) d.delegations) =
      totalOf p QiDelegation.qi d.delegations + if p x then qi - x.qi else 0 := by
  unfold totalOf
  rw [total_modifyFirst h, hp]
  split <;> simp

theorem totalOf_erased (p : QiDelegation → Bool)
    (h : d.delegations.find? (QiDelegation.between a b) = some x) :
    totalOf p QiDelegation.qi (d.delegations.eraseP (QiDelegation.between a b)) =
      totalOf p QiDelegation.qi d.delegations - if p x then x.qi else 0 := by
  rw [totalOf, total_eraseP h]
  rfl

theorem totalOf_added (p : QiDelegation → Bool) (l : List QiDelegation) :
    totalOf p QiDelegation.qi (l ++ [x]) = totalOf p QiDelegation.qi l + if p x then x.qi else 0 := by
  rw [totalOf, total_append]
  simp [total, totalOf]

theorem totalOf_returning (p : QiDelegationExpiration → Bool) (e : QiDelegationExpiration)
    (l : List QiDelegationExpiration) :
    totalOf p QiDelegationExpiration.qi (insertBy QiDelegationExpiration.expiration e l) =
      (if p e then e.qi else 0) + totalOf p QiDelegationExpiration.qi l := total_insertBy

theorem unique_changed (h : d.delegations.find? (QiDelegation.between a b) = some x) :
    (modifyFirst (QiDelegation.between a b) (fun y ↦ { y with qi := qi }) d.delegations).map
      (fun y ↦ (y.delegator, y.delegatee)) =
    d.delegations.map fun y ↦ (y.delegator, y.delegatee) := by
  obtain ⟨l₁, l₂, hl, hm, -⟩ := split_of_find (f := fun y : QiDelegation ↦ { y with qi := qi }) h
  rw [hm, hl]
  simp

/-- The delegatee's side of a change. -/
theorem Balanced.received_changed {l : List QiDelegation} {delta : ℤ} (h : Balanced d)
    (hl : ∀ c, totalOf (·.delegatee = c) QiDelegation.qi l =
      totalOf (·.delegatee = c) QiDelegation.qi d.delegations + if b = c then delta else 0) (c : ℕ) :
    Function.update d.receivedQi b (d.receivedQi b + delta) c =
      totalOf (·.delegatee = c) QiDelegation.qi l := by
  rw [hl, ← h.received, Function.update_apply]
  by_cases hc : c = b
  · rw [if_pos hc, if_pos hc.symm, hc]
  · rw [if_neg hc, if_neg (Ne.symm hc), add_zero]

/-- Each case of the evaluator keeps the delegation ledger. -/
theorem Balanced.delegated_step (h : Balanced d) (hd : Delegated a b qi d d') : Balanced d' := by
  cases hd with
  | create hnone =>
    refine ⟨fun c ↦ ?_, h.received_changed fun c ↦ ?_, ?_⟩
    · have := h.delegated c
      simp only [account_promise, totalOf_added, decide_eq_true_eq]
      split
      · dsimp only
        omega
      · omega
    · simp only [totalOf_added, decide_eq_true_eq]
    · rw [List.map_append, List.nodup_append]
      refine ⟨h.unique, List.nodup_singleton _, ?_⟩
      rintro _ hy _ hz rfl
      obtain ⟨y, hy, he⟩ := List.mem_map.mp hy
      rw [List.map_singleton, List.mem_singleton] at hz
      obtain ⟨hya, hyb⟩ := Prod.mk.inj (he.trans hz)
      refine List.find?_eq_none.mp hnone y hy ?_
      rw [QiDelegation.between, hya, hyb]
      simp
  | increase x hx hle =>
    obtain ⟨rfl, rfl⟩ := between_of_find hx
    refine ⟨fun c ↦ ?_, h.received_changed fun c ↦ ?_, ?_⟩
    · have := h.delegated c
      simp only [account_promise]
      rw [totalOf_changed _ (fun _ ↦ rfl) hx]
      simp only [decide_eq_true_eq]
      split
      · dsimp only
        omega
      · omega
    · rw [totalOf_changed _ (fun _ ↦ rfl) hx]
      simp only [decide_eq_true_eq]
    · rw [unique_changed hx]
      exact h.unique
  | decrease x expiration hx hlt =>
    obtain ⟨rfl, rfl⟩ := between_of_find hx
    refine ⟨fun c ↦ ?_, h.received_changed fun c ↦ ?_, ?_⟩
    · have := h.delegated c
      dsimp only
      rw [totalOf_changed _ (fun _ ↦ rfl) hx, totalOf_returning]
      simp only [decide_eq_true_eq]
      split <;> omega
    · rw [totalOf_changed _ (fun _ ↦ rfl) hx]
      simp only [decide_eq_true_eq]
      split <;> omega
    · rw [unique_changed hx]
      exact h.unique
  | cancel x expiration hx hlt hqi =>
    obtain ⟨rfl, rfl⟩ := between_of_find hx
    refine ⟨fun c ↦ ?_, h.received_changed fun c ↦ ?_, ?_⟩
    · have := h.delegated c
      dsimp only
      rw [totalOf_erased _ hx, totalOf_returning]
      simp only [decide_eq_true_eq]
      split <;> omega
    · rw [totalOf_erased _ hx]
      simp only [decide_eq_true_eq]
      split <;> omega
    · exact h.unique.sublist (List.eraseP_sublist.map _)

/-- The loop of `clear_expired_delegations` moves QI back from the head of the index. -/
theorem returnExpired_ok {now : ℕ} {es left : List QiDelegationExpiration} {s t : State}
    (h : (returnExpired now es).run s = .ok left t) (c : ℕ) :
    (t.account c).delegatedQi + totalOf (·.delegator = c) QiDelegationExpiration.qi es =
      (s.account c).delegatedQi + totalOf (·.delegator = c) QiDelegationExpiration.qi left := by
  induction es generalizing s with
  | nil =>
    cases h
    rfl
  | cons e es ih =>
    rw [returnExpired] at h
    split at h
    · obtain ⟨_, u, hu, h⟩ := bind_ok.mp h
      obtain ⟨acc, hacc, hu⟩ := modifyIn_ok.mp hu
      have hstep := ih h
      have hcons : totalOf (·.delegator = c) QiDelegationExpiration.qi (e :: es) =
          (if e.delegator = c then e.qi else 0) +
            totalOf (·.delegator = c) QiDelegationExpiration.qi es := by
        rw [totalOf, total_cons]
        simp only [decide_eq_true_eq, totalOf]
      rw [account_insert
        (f := fun acc : Account ↦ { acc with delegatedQi := acc.delegatedQi - e.qi }) hacc
        (congrArg State.accounts hu) c] at hstep
      rw [hcons]
      split at hstep
      · next hc =>
        rw [if_pos hc]
        dsimp only at hstep
        omega
      · next hc =>
        rw [if_neg hc]
        omega
    · cases h
      rfl

theorem clearExpiredDelegations_ok {u : Unit} (h : clearExpiredDelegations.run d = .ok u d') :
    ∃ left s, (returnExpired d.ledger.props.time d.expirations).run d.ledger = .ok left s ∧
      d' = { d with ledger := s, expirations := left } := by
  obtain ⟨_, _, hget, h⟩ := bind_ok.mp h
  cases hget
  obtain ⟨left, d₁, h₁, h⟩ := bind_ok.mp h
  obtain ⟨s, hs, rfl⟩ := onLedger_ok.mp h₁
  obtain rfl := modify_ok h
  exact ⟨left, s, hs, rfl⟩

theorem Balanced.cleared (h : Balanced d) {left : List QiDelegationExpiration} {s : State}
    (hs : (returnExpired d.ledger.props.time d.expirations).run d.ledger = .ok left s) :
    Balanced { d with ledger := s, expirations := left } where
  delegated c := by
    have := h.delegated c
    have := returnExpired_ok hs c
    dsimp only
    omega
  received := h.received
  unique := h.unique

theorem Balanced.action (h : Balanced d) {s : State} (hs : s.delegated = d.ledger.delegated) :
    Balanced { d with ledger := s } where
  delegated c := (congrFun hs c).trans (h.delegated c)
  received := h.received
  unique := h.unique

theorem Balanced.step {hash : ℕ → ℕ} {st : Step} (h : Balanced d)
    (hst : ∀ act, st = .action act → act.plain) (hd : d.step hash st = some d') :
    Balanced d' := by
  cases st with
  | action act =>
    obtain ⟨s, hs, rfl⟩ := Option.map_eq_some_iff.mp hd
    exact h.action (Ledger.delegated_step hs (hst act rfl))
  | delegateQi fee a b qi =>
    simp only [Delegating.step] at hd
    split at hd
    · next u e he =>
      cases hd
      exact h.delegated_step (delegateQi_ok he).2.2
    · cases hd
  | clearExpiredDelegations =>
    simp only [Delegating.step] at hd
    split at hd
    · next u e he =>
      cases hd
      obtain ⟨left, s, hs, rfl⟩ := clearExpiredDelegations_ok he
      exact h.cleared hs
    · cases hd

end Preserved

/-- The first state, in which nothing is delegated. -/
def delegatingGenesis (initSupply initQiSupply : ℕ) : Delegating :=
  { ledger := genesis initSupply initQiSupply }

theorem balanced_genesis (initSupply initQiSupply : ℕ) :
    Balanced (delegatingGenesis initSupply initQiSupply) where
  delegated c := by
    unfold delegatingGenesis State.account genesis
    simp only [getElem?_insert]
    repeat' split
    all_goals rfl
  received _ := rfl
  unique := List.nodup_nil

/-- The delegation ledger is balanced in every reachable state. -/
theorem balanced_of_reaches {hash : ℕ → ℕ} {P : Delegating → Step → Prop}
    {initSupply initQiSupply : ℕ} {d : Delegating}
    (h : (delegatingGenesis initSupply initQiSupply).Reaches hash P d) : Balanced d := by
  induction h with
  | start => exact balanced_genesis _ _
  | step st _ hst _ hd ih => exact ih.step hst hd

theorem delegation_applies :
    ((delegatingGenesis 0 1000).step (· + 1) (.delegateQi 0 initSiming danuo 100)).isSome = true := by
  decide +kernel

theorem balanced_delegation :
    Balanced (((delegatingGenesis 0 1000).step (· + 1) (.delegateQi 0 initSiming danuo 100)).get
      delegation_applies) := by
  refine balanced_of_reaches (P := fun _ _ ↦ True)
    (.step _ .start ?_ trivial (Option.some_get delegation_applies).symm)
  intro act h
  cases h

end Taiyi.Ledger
