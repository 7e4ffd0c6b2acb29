import Taiyi.Ledger.Reserved

set_option autoImplicit false

namespace Taiyi.Ledger

open Library.IdMap Library.Outcome Library.Frame Library.RowList

namespace Account

variable {a : Account}

/-- Another amount is delegated. -/
theorem Covered.repledge (h : a.Covered) {v : ℤ} (hv : 0 ≤ v) (hle : v ≤ a.delegatedQi + a.freeQi) :
    ({ a with delegatedQi := v } : Account).Covered := by
  refine ⟨hv, h.time, h.running, ?_⟩
  change 0 ≤ a.assets.qi - v - a.pendingWithdrawal
  unfold freeQi at hle
  omega

theorem Covered.effective_nonneg (h : a.Covered) {receivedQi : ℤ} (hr : 0 ≤ receivedQi) :
    0 ≤ a.getEffectiveQi receivedQi := by
  have hfree := h.free
  unfold freeQi pendingWithdrawal at hfree
  unfold getEffectiveQi
  split at hfree
  · next hn =>
    rw [if_pos hn]
    omega
  · next hn =>
    rw [if_neg hn]
    omega

end Account

/-- The QI of no delegation and of none on its way back is negative. -/
structure Positive (d : Delegating) : Prop where
  delegations : ∀ x ∈ d.delegations, 0 ≤ x.qi
  expirations : ∀ e ∈ d.expirations, 0 ≤ e.qi

section Rows

variable {a b : ℕ} {qi : ℤ} {d d' : Delegating} {x : QiDelegation}

theorem positive_changed (h : ∀ y ∈ d.delegations, 0 ≤ y.qi) (hqi : 0 ≤ qi)
    (hx : d.delegations.find? (QiDelegation.between a b) = some x) :
    ∀ y ∈ modifyFirst (QiDelegation.between a b) (fun y ↦ { y with qi := qi }) d.delegations,
      0 ≤ y.qi := by
  obtain ⟨l₁, l₂, hl, hm, -⟩ := split_of_find (f := fun y : QiDelegation ↦ { y with qi := qi }) hx
  rw [hm]
  intro y hy
  rw [List.mem_append, List.mem_cons] at hy
  obtain hy | rfl | hy := hy
  · exact h y (hl ▸ List.mem_append_left _ hy)
  · exact hqi
  · exact h y (hl ▸ List.mem_append_right _ (List.mem_cons_of_mem _ hy))

theorem Positive.returning (h : Positive d) {v : ℤ} {time : ℕ} (hv : 0 ≤ v) :
    ∀ e ∈ insertBy QiDelegationExpiration.expiration ⟨a, v, time⟩ d.expirations, 0 ≤ e.qi := by
  intro e he
  obtain rfl | he := mem_insertBy.mp he
  · exact hv
  · exact h.expirations e he

theorem Positive.delegated_step (h : Positive d) (hqi : 0 ≤ qi) (hd : Delegated a b qi d d') :
    Positive d' := by
  cases hd with
  | create hnone =>
    refine ⟨fun y hy ↦ ?_, h.expirations⟩
    obtain hy | hy := List.mem_append.mp hy
    · exact h.delegations y hy
    · obtain rfl := List.mem_singleton.mp hy
      exact hqi
  | increase x hx => exact ⟨positive_changed h.delegations hqi hx, h.expirations⟩
  | decrease x expiration hx hlt =>
    exact ⟨positive_changed h.delegations hqi hx, h.returning (by omega)⟩
  | cancel x expiration hx hlt =>
    exact ⟨fun y hy ↦ h.delegations y (List.mem_of_mem_eraseP hy), h.returning (by omega)⟩

theorem totalOf_nonneg {α : Type} {p : α → Bool} {w : α → ℤ} {l : List α}
    (h : ∀ y ∈ l, 0 ≤ w y) : 0 ≤ totalOf p w l := by
  induction l with
  | nil => exact le_rfl
  | cons y l ih =>
    have hy := h y List.mem_cons_self
    have hl := ih fun z hz ↦ h z (List.mem_cons_of_mem _ hz)
    rw [totalOf, total_cons]
    change 0 ≤ (if p y then w y else 0) + totalOf p w l
    split <;> omega

theorem Balanced.delegated_nonneg (h : Balanced d) (hp : Positive d) (c : ℕ) :
    0 ≤ (d.ledger.account c).delegatedQi := by
  have h₁ := totalOf_nonneg (p := (·.delegator = c)) hp.delegations
  have h₂ := totalOf_nonneg (p := (·.delegator = c)) hp.expirations
  rw [h.delegated c]
  omega

theorem Balanced.received_nonneg (h : Balanced d) (hp : Positive d) (c : ℕ) :
    0 ≤ d.receivedQi c :=
  h.received c ▸ totalOf_nonneg hp.delegations

/-- Delegated QI that is back only makes the account freer. -/
theorem returnExpired_lowers {now : ℕ} {es left : List QiDelegationExpiration} {s t : State}
    (hes : ∀ e ∈ es, 0 ≤ e.qi) (h : (returnExpired now es).run s = .ok left t) :
    (∀ e ∈ left, e ∈ es) ∧ t.props.time = s.props.time ∧
      ∀ c, ∃ v ≤ (s.account c).delegatedQi, t.account c = { s.account c with delegatedQi := v } := by
  induction es generalizing s with
  | nil =>
    cases h
    exact ⟨fun e he ↦ he, rfl, fun c ↦ ⟨_, le_rfl, rfl⟩⟩
  | cons e es ih =>
    rw [returnExpired] at h
    split at h
    · obtain ⟨_, u, hu, hrest⟩ := bind_ok.mp h
      obtain ⟨hafter, htime⟩ := modifyAccount_ok hu
      obtain ⟨hleft, ht, hacc⟩ := ih (fun e he ↦ hes e (List.mem_cons_of_mem _ he)) hrest
      refine ⟨fun e he ↦ List.mem_cons_of_mem _ (hleft e he), ht.trans htime, fun c ↦ ?_⟩
      obtain ⟨v, hv, hc⟩ := hacc c
      have he := hes e List.mem_cons_self
      rw [hafter c] at hv hc
      split at hv
      · next heq =>
        rw [if_pos heq] at hc
        dsimp only at hv
        exact ⟨v, by omega, hc⟩
      · next hne =>
        rw [if_neg hne] at hc
        exact ⟨v, hv, hc⟩
    · cases h
      exact ⟨fun e he ↦ he, rfl, fun c ↦ ⟨_, le_rfl, rfl⟩⟩

end Rows

/-- The account pays what an action takes from its free QI, unless it has pledged nothing; and
the end of time is more than a week away. -/
def Step.WithinFree (d : Delegating) : Step → Prop
  | .action act => ∀ a, (d.ledger.account a).Pledged →
      act.takes d.ledger a ≤ (d.ledger.account a).freeQi
  | _ => True

/-- The block times from which a week can be counted in seconds of 32 bits. -/
def Step.InTime : Step → Prop
  | .action (.outside (.headBlock _ time _ _)) => time + weekInSeconds < maximum
  | _ => True

structure Reserved (d : Delegating) : Prop where
  balanced : Balanced d
  positive : Positive d
  time : d.ledger.props.time + weekInSeconds < maximum
  covered : ∀ a, (d.ledger.account a).Covered

section Preserved

variable {hash : ℕ → ℕ} {d d' : Delegating} {st : Step}

theorem covered_action {act : Action} {s t : State} (h : ∀ c, (s.account c).Covered)
    (htime : s.props.time + weekInSeconds < maximum) (hp : act.plain)
    (hfree : ∀ c, (s.account c).Pledged → act.takes s c ≤ (s.account c).freeQi)
    (hact : act.step hash s = some t) : ∀ c, (t.account c).Covered := by
  by_cases hw : act.Withdraws
  · have ht := after_of_step hact
    cases hw with
    | withdrawQi a qi => exact (covered_withdrawQi h htime ht).1
    | processQiWithdrawals => exact (covered_withdrawFrom h htime (after_get ht)).1
    | headBlock n time siming vt =>
      intro c
      rw [State.account, (headBlock_ok ht).1]
      exact h c
  · exact covered_spends h (spends_step hact hp hw) hfree

theorem inTime_action {act : Action} {s t : State} (h : ∀ c, (s.account c).Covered)
    (htime : s.props.time + weekInSeconds < maximum) (hp : act.plain)
    (hin : (Step.action act).InTime) (hact : act.step hash s = some t) :
    t.props.time + weekInSeconds < maximum := by
  by_cases hw : act.Withdraws
  · have ht := after_of_step hact
    cases hw with
    | withdrawQi a qi => exact (covered_withdrawQi h htime ht).2 ▸ htime
    | processQiWithdrawals => exact (covered_withdrawFrom h htime (after_get ht)).2 ▸ htime
    | headBlock n time siming vt => exact (headBlock_ok ht).2 ▸ hin
  · exact (spends_step hact hp hw).time ▸ htime

/-- What an account delegates comes from its free QI. -/
theorem Reserved.delegated_step {a b : ℕ} {qi : ℤ} (h : Reserved d) (hqi : 0 ≤ qi)
    (hd : Delegated a b qi d d') : Reserved d' := by
  have hbalanced := h.balanced.delegated_step hd
  have hpositive := h.positive.delegated_step hqi hd
  have hpromise : ∀ delta : ℤ, delta ≤ (d.ledger.account a).availableShares (d.receivedQi a) →
      (∀ c, 0 ≤ ((d.ledger.promise a delta).account c).delegatedQi) →
      ∀ c, ((d.ledger.promise a delta).account c).Covered := by
    intro delta hle hnonneg c
    have hc := hnonneg c
    rw [account_promise] at hc ⊢
    split at hc
    · next heq =>
      rw [if_pos heq]
      subst heq
      have hshares := (h.covered a).availableShares_le (d.receivedQi a)
      exact (h.covered a).repledge hc (by omega)
    · next hne =>
      rw [if_neg hne]
      exact h.covered c
  refine ⟨hbalanced, hpositive, ?_, ?_⟩
  · cases hd <;> exact h.time
  · have hnonneg := hbalanced.delegated_nonneg hpositive
    cases hd with
    | create _ hle => exact hpromise _ hle hnonneg
    | increase x _ _ hle => exact hpromise _ hle hnonneg
    | decrease => exact h.covered
    | cancel => exact h.covered

theorem Reserved.cleared {left : List QiDelegationExpiration} {s : State} (h : Reserved d)
    (hs : (returnExpired d.ledger.props.time d.expirations).run d.ledger = .ok left s) :
    Reserved { d with ledger := s, expirations := left } := by
  obtain ⟨hleft, htime, hlower⟩ := returnExpired_lowers h.positive.expirations hs
  have hbalanced := h.balanced.cleared hs
  have hpositive : Positive { d with ledger := s, expirations := left } :=
    ⟨h.positive.delegations, fun e he ↦ h.positive.expirations e (hleft e he)⟩
  refine ⟨hbalanced, hpositive, htime ▸ h.time, fun c ↦ ?_⟩
  obtain ⟨v, hv, hc⟩ := hlower c
  have hnonneg : 0 ≤ (s.account c).delegatedQi := hbalanced.delegated_nonneg hpositive c
  have hfree := (h.covered c).free
  change (s.account c).Covered
  rw [hc] at hnonneg ⊢
  exact (h.covered c).repledge hnonneg (by omega)

theorem Reserved.step (h : Reserved d) (hst : ∀ act, st = .action act → act.plain)
    (hfree : st.WithinFree d) (hin : st.InTime) (hd : d.step hash st = some d') : Reserved d' := by
  cases st with
  | action act =>
    obtain ⟨s, hs, rfl⟩ := Option.map_eq_some_iff.mp hd
    exact ⟨h.balanced.step hst hd, ⟨h.positive.delegations, h.positive.expirations⟩,
      inTime_action h.covered h.time (hst act rfl) hin hs,
      covered_action h.covered h.time (hst act rfl) hfree hs⟩
  | delegateQi fee a b qi =>
    simp only [Delegating.step] at hd
    split at hd
    · next u e he =>
      cases hd
      obtain ⟨-, hqi, hcase⟩ := delegateQi_ok he
      exact h.delegated_step hqi hcase
    · cases hd
  | clearExpiredDelegations =>
    simp only [Delegating.step] at hd
    split at hd
    · next u e he =>
      cases hd
      obtain ⟨left, s, hs, rfl⟩ := clearExpiredDelegations_ok he
      exact h.cleared hs
    · cases hd

theorem reserved_genesis (initSupply initQiSupply : ℕ) :
    Reserved (delegatingGenesis initSupply initQiSupply) := by
  refine ⟨balanced_genesis _ _, ⟨nofun, nofun⟩,
    show 1762840800 + weekInSeconds < maximum by decide, fun c ↦ ?_⟩
  have hp : ¬((delegatingGenesis initSupply initQiSupply).ledger.account c).Pledged := by
    unfold delegatingGenesis State.account genesis
    simp only [getElem?_insert]
    repeat' split
    all_goals rintro (h | h) <;> exact h rfl
  refine Account.covered_of_not_pledged hp ?_
  unfold delegatingGenesis State.account genesis
  simp only [getElem?_insert]
  repeat' split
  all_goals simp

end Preserved

end Taiyi.Ledger
