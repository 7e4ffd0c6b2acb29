import Taiyi.Ledger.DelegationLedger

set_option autoImplicit false

namespace Taiyi.Ledger

open Library.IdMap Library.Outcome Library.Frame Library.RowList

namespace Account

/-- The QI that is neither delegated nor in a running withdrawal. -/
def freeQi (a : Account) : ℤ := a.assets.qi - a.delegatedQi - a.pendingWithdrawal

/-- The account holds what it has promised, and a running withdrawal has paid whole rates. -/
structure Covered (a : Account) : Prop where
  delegated : 0 ≤ a.delegatedQi
  time : a.nextQiWithdrawalTime ≤ maximum
  running : a.nextQiWithdrawalTime ≠ maximum →
    0 < a.qiWithdrawRate ∧ a.qiWithdrawRate ∣ a.withdrawn ∧ a.withdrawn < a.toWithdraw
  free : 0 ≤ a.freeQi

variable {a b : Account}

theorem pendingWithdrawal_congr (h : b.promised = a.promised) :
    b.pendingWithdrawal = a.pendingWithdrawal := by
  simp only [promised, Prod.mk.injEq] at h
  obtain ⟨-, -, h₁, h₂, h₃⟩ := h
  rw [pendingWithdrawal, pendingWithdrawal, h₁, h₂, h₃]

/-- What is taken from the free part uncovers nothing. -/
theorem Covered.spend (h : a.Covered) (hp : b.promised = a.promised)
    (hqi : a.assets.qi - a.freeQi ≤ b.assets.qi) : b.Covered := by
  have hw := pendingWithdrawal_congr hp
  simp only [promised, Prod.mk.injEq] at hp
  obtain ⟨hd, hr, hn, hw', ht⟩ := hp
  refine ⟨hd ▸ h.delegated, hn ▸ h.time, fun hne ↦ ?_, ?_⟩
  · rw [hr, hw', ht]
    exact h.running (hn ▸ hne)
  · unfold freeQi at hqi ⊢
    omega

theorem Covered.more (h : a.Covered) (hp : b.promised = a.promised)
    (hqi : a.assets.qi ≤ b.assets.qi) : b.Covered := by
  refine h.spend hp ?_
  have := h.free
  omega

/-- The evaluator of delegations lets only free QI be delegated. -/
theorem Covered.availableShares_le (h : a.Covered) (receivedQi : ℤ) :
    a.availableShares receivedQi ≤ a.freeQi := by
  have htime := h.time
  unfold availableShares getEffectiveQi freeQi pendingWithdrawal
  by_cases hn : a.nextQiWithdrawalTime = maximum
  · simp only [hn, ne_eq, not_true_eq_false, if_false, lt_irrefl, false_and]
    omega
  · have hlt : a.nextQiWithdrawalTime < maximum := lt_of_le_of_ne htime hn
    simp only [ne_eq, hn, not_false_eq_true, if_true, hlt, true_and]
    split <;> omega

/-- A running withdrawal that is due takes a positive part of what is left of it, and a whole
rate unless it takes all. -/
theorem Covered.dueAmount (h : a.Covered) (hn : a.nextQiWithdrawalTime ≠ maximum) :
    0 < a.dueAmount ∧ a.dueAmount ≤ a.toWithdraw - a.withdrawn ∧
      (a.dueAmount = a.toWithdraw - a.withdrawn ∨ a.dueAmount = a.qiWithdrawRate) := by
  obtain ⟨hr, ⟨k, hk⟩, hlt⟩ := h.running hn
  have hfree := h.free
  have hdel := h.delegated
  rw [freeQi, pendingWithdrawal, if_pos hn] at hfree
  unfold Account.dueAmount
  split
  · next hrem =>
    have hmod : a.toWithdraw % a.qiWithdrawRate = a.toWithdraw - a.withdrawn := by
      have he : a.toWithdraw = (a.toWithdraw - a.withdrawn) + a.qiWithdrawRate * k := by omega
      rw [he, Int.add_mul_emod_self_left]
      rw [← he]
      exact Int.emod_eq_of_lt (by omega) hrem
    omega
  · omega

/-- The account after a turn of its withdrawal. -/
theorem Covered.afterWithdrawal (h : a.Covered) (hn : a.nextQiWithdrawalTime ≠ maximum)
    (htime : a.nextQiWithdrawalTime + weekInSeconds < maximum) {due yang : ℤ}
    (hle : due ≤ a.toWithdraw - a.withdrawn)
    (hwhole : due = a.toWithdraw - a.withdrawn ∨ due = a.qiWithdrawRate) :
    (a.afterWithdrawal due yang).Covered := by
  obtain ⟨hr, hdvd, hlt⟩ := h.running hn
  have hfree := h.free
  rw [freeQi, pendingWithdrawal, if_pos hn] at hfree
  have hqi : ((a.assets.add (-due) .qi).add yang .yang).qi = a.assets.qi - due := rfl
  unfold Account.afterWithdrawal
  by_cases hdone : a.toWithdraw ≤ a.withdrawn + due ∨ a.assets.qi - due = 0
  · simp only [hqi, hdone, if_true]
    refine ⟨h.delegated, le_rfl, fun hne ↦ absurd rfl hne, ?_⟩
    simp only [freeQi, pendingWithdrawal, hqi, ne_eq, not_true_eq_false, if_false]
    omega
  · simp only [hqi, hdone, if_false]
    rw [not_or, not_le] at hdone
    obtain rfl := hwhole.resolve_left (by omega)
    have hne : a.nextQiWithdrawalTime + weekInSeconds ≠ maximum := by omega
    refine ⟨h.delegated, htime.le, fun _ ↦ ⟨hr, dvd_add_self_right.mpr hdvd, hdone.1⟩, ?_⟩
    simp only [freeQi, pendingWithdrawal, hqi, ne_eq, hne, not_false_eq_true, if_true]
    omega

/-- An account that has delegated QI or is withdrawing it. -/
def Pledged (a : Account) : Prop := a.delegatedQi ≠ 0 ∨ a.nextQiWithdrawalTime ≠ maximum

theorem Covered.pending_nonneg (h : a.Covered) : 0 ≤ a.pendingWithdrawal := by
  unfold pendingWithdrawal
  split
  · next hn =>
    have := (h.running hn).2.2
    omega
  · exact le_rfl

theorem Covered.qi_nonneg (h : a.Covered) : 0 ≤ a.assets.qi := by
  have hfree := h.free
  have hdel := h.delegated
  have hpending := h.pending_nonneg
  unfold freeQi at hfree
  omega

/-- An account that pledged nothing has only to stay solvent. -/
theorem covered_of_not_pledged (hp : ¬a.Pledged) (hqi : 0 ≤ a.assets.qi) : a.Covered := by
  rw [Pledged, not_or, not_not, not_not] at hp
  obtain ⟨hdel, hn⟩ := hp
  refine ⟨hdel.ge, hn.le, fun hne ↦ absurd hn hne, ?_⟩
  rw [freeQi, pendingWithdrawal, if_neg (not_not.mpr hn), hdel]
  omega

theorem pledged_congr {b : Account} (h : b.promised = a.promised) : b.Pledged ↔ a.Pledged := by
  simp only [promised, Prod.mk.injEq] at h
  rw [Pledged, Pledged, h.1, h.2.2.1]

end Account

section Ledger

variable {hash : ℕ → ℕ} {a : ℕ} {qi : ℤ} {s t : State} {u : Unit}

theorem covered_spends {k : ℕ → ℤ} (h : ∀ c, (s.account c).Covered) (hs : Spends k s t)
    (hk : ∀ c, (s.account c).Pledged → k c ≤ (s.account c).freeQi) (c : ℕ) :
    (t.account c).Covered := by
  by_cases hp : (s.account c).Pledged
  · have hqi := hs.qi c
    have hle := hk c hp
    exact (h c).spend (hs.promised c) (by omega)
  · exact Account.covered_of_not_pledged (fun ht ↦ hp ((Account.pledged_congr (hs.promised c)).mp ht))
      (hs.solvent c (h c).qi_nonneg)

theorem covered_spares (h : ∀ c, (s.account c).Covered) (hs : Spends 0 s t) (c : ℕ) :
    (t.account c).Covered := covered_spends h hs (fun c _ ↦ (h c).free) c

theorem withdrawRate_pos (h : 0 < qi) : 0 < withdrawRate qi := by
  unfold withdrawRate
  dsimp only
  split <;> split <;> omega

/-- The evaluator of withdrawals looks at what the account holds after its fee. -/
theorem covered_withdrawQi (h : ∀ c, (s.account c).Covered)
    (htime : s.props.time + weekInSeconds < maximum) (hrun : (withdrawQi a qi).run s = .ok u t) :
    (∀ c, (t.account c).Covered) ∧ t.props.time = s.props.time := by
  obtain ⟨hqi, hrest⟩ := after_require hrun
  obtain ⟨_, r₀, hfee, hrest₁⟩ := bind_ok.mp hrest
  have hs : Spends (taken a 10) s r₀ := after_ok hfee ▸ spends_chargeTreasury
  obtain ⟨acc, r, hacc, hrest₂⟩ := bind_ok.mp hrest₁
  obtain ⟨rfl, rfl⟩ := account_of_getAccount hacc
  obtain ⟨henough, hrest₃⟩ := after_require hrest₂
  have hother : ∀ c, a ≠ c → (r.account c).Covered := fun c hc ↦
    (h c).more (hs.promised c) (by have := hs.qi c; rw [taken, if_neg hc] at this; omega)
  have hdel : 0 ≤ (r.account a).delegatedQi := by
    have heq : (r.account a).delegatedQi = (s.account a).delegatedQi :=
      congrArg Prod.fst (hs.promised a)
    exact heq ▸ (h a).delegated
  split at hrest₃
  · next hzero =>
    obtain ⟨hafter, htime'⟩ := modifyAccount_ok (after_require hrest₃).2
    refine ⟨fun c ↦ ?_, htime'.trans hs.time⟩
    rw [hafter c]
    split
    · next hc =>
      subst hc
      refine ⟨hdel, le_rfl, fun hne ↦ absurd rfl hne, ?_⟩
      simp only [Account.freeQi, Account.pendingWithdrawal, ne_eq, not_true_eq_false, if_false]
      omega
    · next hc => exact hother c hc
  · next hne =>
    obtain ⟨hafter, htime'⟩ := modifyAccount_ok (after_get (after_require hrest₃).2)
    have hpos : 0 < qi := by omega
    refine ⟨fun c ↦ ?_, htime'.trans hs.time⟩
    rw [hafter c]
    split
    · next hc =>
      subst hc
      have hnext : r.props.time + weekInSeconds < maximum := hs.time ▸ htime
      refine ⟨hdel, hnext.le, fun _ ↦ ⟨withdrawRate_pos hpos, dvd_zero _, hpos⟩, ?_⟩
      simp only [Account.freeQi, Account.pendingWithdrawal]
      split <;> omega
    · next hc => exact hother c hc

theorem spares_vestPart {due : ℤ} {r : ℕ × Route} : Spares (vestPart due r) := by
  refine .ite (fun hpos ↦ .bind (spares_modifyAccount fun acc ↦ ⟨rfl, ?_⟩) fun _ ↦
    spares_adjustProxied) fun _ ↦ .pure _
  change acc.assets.qi ≤ acc.assets.qi + _
  omega

theorem spares_convertPart {due : ℤ} {r : ℕ × Route} : Spares (convertPart due r) :=
  .bind moves_getAccount fun _ ↦ .bind moves_timesPrice fun _ ↦
    .ite (fun _ ↦ .bind (spares_modifyAccount fun _ ↦ ⟨rfl, le_rfl⟩) fun _ ↦
      spares_modifyProps fun _ ↦ rfl) fun _ ↦ .pure _

/-- A turn for an account whose withdrawal is due. -/
theorem covered_withdrawTurn (h : ∀ c, (s.account c).Covered)
    (hdue : (s.account a).nextQiWithdrawalTime ≤ s.props.time)
    (htime : s.props.time + weekInSeconds < maximum) (hrun : (withdrawTurn a).run s = .ok u t) :
    (∀ c, (t.account c).Covered) ∧ t.props.time = s.props.time := by
  obtain ⟨acc, s₀, hacc, h₀⟩ := bind_ok.mp hrun
  obtain ⟨rfl, rfl⟩ := account_of_getAccount hacc
  have hn : (s₀.account a).nextQiWithdrawalTime ≠ maximum := by omega
  obtain ⟨-, hle, hwhole⟩ := (h a).dueAmount hn
  obtain ⟨_, s₁, hvest, h₁⟩ := bind_ok.mp h₀
  obtain ⟨_, s₂, hyang, h₂⟩ := bind_ok.mp h₁
  have hs : Spends 0 s₀ s₂ := trans_of (Spends 0)
    (after_ok hvest ▸ Moves.forM (fun _ _ ↦ spares_vestPart) s₀)
    (after_ok hyang ▸ Moves.forM (fun _ _ ↦ spares_convertPart) s₁)
  have hcovered := covered_spares h hs
  obtain ⟨yang, s₃, hprice, h₃⟩ := bind_ok.mp (after_require h₂).2
  obtain ⟨-, rfl⟩ := qiToYang_ok.mp hprice
  obtain ⟨_, s₄, hmod, h₄⟩ := bind_ok.mp h₃
  obtain ⟨hafter, htime₄⟩ := modifyAccount_ok hmod
  have hp := hs.promised a
  simp only [Account.promised, Prod.mk.injEq] at hp
  obtain ⟨-, hrate, hnext, hwithdrawn, hto⟩ := hp
  have hfour : ∀ c, (s₄.account c).Covered := by
    intro c
    rw [hafter c]
    split
    · next hc =>
      subst hc
      refine (hcovered a).afterWithdrawal ?_ ?_ ?_ ?_
      · rwa [hnext]
      · rw [hnext]
        omega
      · rwa [hto, hwithdrawn]
      · rwa [hto, hwithdrawn, hrate]
    · exact hcovered c
  have hlast : Spends 0 s₄ t := by
    rw [← after_ok h₄]
    refine (?_ : Spares _) s₄
    exact .bind (spares_modifyProps fun _ ↦ rfl) fun _ ↦
      .ite (fun _ ↦ spares_adjustProxied) fun _ ↦ .pure _
  exact ⟨covered_spares hfour hlast, hlast.time.trans (htime₄.trans hs.time)⟩

theorem covered_withdrawFrom {turns : ℕ} {current : Option ℕ} (h : ∀ c, (s.account c).Covered)
    (htime : s.props.time + weekInSeconds < maximum)
    (hrun : (withdrawFrom turns current).run s = .ok u t) :
    (∀ c, (t.account c).Covered) ∧ t.props.time = s.props.time := by
  induction turns generalizing s current with
  | zero => cases current <;> cases hrun
  | succ turns ih =>
    cases current with
    | none =>
      cases hrun
      exact ⟨h, rfl⟩
    | some a =>
      obtain ⟨acc, s₀, hacc, hrest⟩ := bind_ok.mp hrun
      obtain ⟨rfl, rfl⟩ := account_of_getAccount hacc
      replace hrest := after_get hrest
      split at hrest
      · next hdue =>
        obtain ⟨_, s₁, hturn, hrest₁⟩ := bind_ok.mp hrest
        obtain ⟨h₁, htime₁⟩ := covered_withdrawTurn h hdue htime hturn
        obtain ⟨h₂, htime₂⟩ := ih h₁ (htime₁ ▸ htime) hrest₁
        exact ⟨h₂, htime₂.trans htime₁⟩
      · cases hrest
        exact ⟨h, rfl⟩

end Ledger

end Taiyi.Ledger
