import Mathlib.Algebra.Group.Pi.Lemmas
import Mathlib.Algebra.Order.Pi
import Taiyi.Ledger.Sound
import Taiyi.Ledger.Weigh

set_option autoImplicit false

namespace Taiyi.Ledger

open Library.IdMap Library.Outcome Library.Frame

/-- The account of an id; an account that is not there yet holds nothing. -/
def State.account (s : State) (a : ℕ) : Account := (s.accounts[a]?).getD {}

/-- What an account has promised: its delegated QI and its withdrawal. -/
def Account.promised (a : Account) : ℤ × ℤ × ℕ × ℤ × ℤ :=
  (a.delegatedQi, a.qiWithdrawRate, a.nextQiWithdrawalTime, a.withdrawn, a.toWithdraw)

/-- No account loses more QI than it may or than it has, all keep their promises, and no time
passes. -/
structure Spends (take : ℕ → ℤ) (s t : State) : Prop where
  time : t.props.time = s.props.time
  promised : ∀ a, (t.account a).promised = (s.account a).promised
  solvent : ∀ a, 0 ≤ (s.account a).assets.qi → 0 ≤ (t.account a).assets.qi
  qi : ∀ a, (s.account a).assets.qi - take a ≤ (t.account a).assets.qi

instance : IsPreorder State (Spends 0) where
  refl s := ⟨rfl, fun _ ↦ rfl, fun _ h ↦ h, fun a ↦ by simp⟩
  trans s t u h h' := by
    refine ⟨h'.time.trans h.time, fun a ↦ (h'.promised a).trans (h.promised a),
      fun a ha ↦ h'.solvent a (h.solvent a ha), fun a ↦ ?_⟩
    have h₁ := h.qi a
    have h₂ := h'.qi a
    simp only [Pi.zero_apply] at h₁ h₂ ⊢
    omega

/-- A call that takes no QI from any account. -/
abbrev Spares {α : Type} (x : Call α) : Prop := Moves (Spends 0) x

theorem Spends.trans {k k' : ℕ → ℤ} {s t u : State} (h : Spends k s t) (h' : Spends k' t u) :
    Spends (k + k') s u := by
  refine ⟨h'.time.trans h.time, fun a ↦ (h'.promised a).trans (h.promised a),
    fun a ha ↦ h'.solvent a (h.solvent a ha), fun a ↦ ?_⟩
  have h₁ := h.qi a
  have h₂ := h'.qi a
  rw [Pi.add_apply]
  omega

theorem Spends.mono {k k' : ℕ → ℤ} {s t : State} (h : Spends k s t) (hk : k ≤ k') :
    Spends k' s t := by
  refine ⟨h.time, h.promised, h.solvent, fun a ↦ ?_⟩
  have hle : k a ≤ k' a := hk a
  have hqi := h.qi a
  omega

section Rules

variable {α β : Type} {x : Call α} {f : α → Call β} {k k' : ℕ → ℤ} {s : State}

/-- What comes first takes its part, also when what comes second is not reached. -/
theorem spends_bind (hk : 0 ≤ k') (hx : Spends k s (after x s))
    (hf : ∀ a t, x.run s = .ok a t → Spends k' t (after (f a) t)) :
    Spends (k + k') s (after (x >>= f) s) := by
  cases hr : x.run s with
  | ok a t =>
    rw [after_bind_ok hr]
    exact (after_ok hr ▸ hx).trans (hf a t hr)
  | error err t =>
    rw [after_bind_error hr]
    refine (after_error hr ▸ hx).mono fun a ↦ ?_
    have hle : 0 ≤ k' a := hk a
    change k a ≤ k a + k' a
    omega

theorem spends_read (hk : 0 ≤ k) (hx : Moves (Same id) x)
    (hf : ∀ a, x.run s = .ok a s → Spends k s (after (f a) s)) :
    Spends k s (after (x >>= f) s) := by
  have hs : after x s = s := hx s
  have h₀ : Spends 0 s (after x s) := hs.symm ▸ refl_of (Spends 0) s
  rw [← zero_add k]
  refine spends_bind hk h₀ fun a t ht ↦ ?_
  obtain rfl : t = s := (after_ok ht).symm.trans hs
  exact hf a ht

theorem spends_then_spares (hx : Spends k s (after x s)) (hf : ∀ a, Spares (f a)) :
    Spends k s (after (x >>= f) s) := by
  rw [← add_zero k]
  exact spends_bind le_rfl hx fun a t _ ↦ hf a t

theorem Spares.spends (hx : Spares x) (hk : 0 ≤ k) : Spends k s (after x s) := (hx s).mono hk

end Rules

section Leaves

variable {id : ℕ} {s : State}

theorem account_insert {f : Account → Account} {acc : Account} {t : State}
    (hs : s.accounts[id]? = some acc) (ht : t.accounts = s.accounts.insert id (f acc)) (a : ℕ) :
    t.account a = if id = a then f (s.account a) else s.account a := by
  unfold State.account
  rw [ht, getElem?_insert]
  split
  · next h => rw [← h, hs]; rfl
  · rfl

theorem account_of_getAccount {acc : Account} {t : State}
    (h : (getAccount id).run s = .ok acc t) : s.account id = acc ∧ t = s := by
  obtain ⟨hacc, rfl⟩ := getAccount_ok.mp h
  exact ⟨by rw [State.account, hacc]; rfl, rfl⟩

theorem modifyAccount_ok {f : Account → Account} {t : State} {u : Unit}
    (h : (modifyAccount id f).run s = .ok u t) :
    (∀ c, t.account c = if id = c then f (s.account c) else s.account c) ∧
      t.props.time = s.props.time := by
  obtain ⟨acc, hacc, rfl⟩ := modifyIn_ok.mp h
  exact ⟨account_insert hacc rfl, rfl⟩

theorem spends_modifyAccount {f : Account → Account} {k : ℕ → ℤ} (hk : 0 ≤ k)
    (h : ∀ acc, s.accounts[id]? = some acc →
      (f acc).promised = acc.promised ∧ (0 ≤ acc.assets.qi → 0 ≤ (f acc).assets.qi) ∧
        acc.assets.qi - k id ≤ (f acc).assets.qi) :
    Spends k s (after (modifyAccount id f) s) := by
  cases hacc : s.accounts[id]? with
  | none =>
    have hs : after (modifyAccount id f) s = s := by
      refine modifyIn_at (R := Same fun u : State ↦ u) fun v hv ↦ ?_
      rw [hacc] at hv
      cases hv
    rw [hs]
    exact (refl_of (Spends 0) s).mono hk
  | some acc =>
    have hs : after (modifyAccount id f) s = { s with accounts := s.accounts.insert id (f acc) } :=
      after_ok (a := ()) (modifyIn_ok.mpr ⟨acc, hacc, rfl⟩)
    rw [hs]
    have hat : s.account id = acc := by rw [State.account, hacc]; rfl
    have hins := account_insert (t := { s with accounts := s.accounts.insert id (f acc) }) hacc rfl
    refine ⟨rfl, fun a ↦ ?_, fun a hqi ↦ ?_, fun a ↦ ?_⟩
    · rw [hins a]
      split
      · next ha => rw [← ha, hat]; exact (h acc hacc).1
      · rfl
    · rw [hins a]
      split
      · next ha => rw [← ha, hat] at hqi ⊢; exact (h acc hacc).2.1 hqi
      · exact hqi
    · rw [hins a]
      split
      · next ha => rw [← ha, hat]; exact (h acc hacc).2.2
      · have hle : 0 ≤ k a := hk a
        omega

theorem spares_modifyAccount {f : Account → Account}
    (h : ∀ acc, (f acc).promised = acc.promised ∧ acc.assets.qi ≤ (f acc).assets.qi) :
    Spares (modifyAccount id f) := fun s ↦
  spends_modifyAccount le_rfl fun acc _ ↦
    ⟨(h acc).1, fun hqi ↦ hqi.trans (h acc).2, by simpa using (h acc).2⟩

theorem spends_of_accounts {t : State} (h : ∀ a, t.account a = s.account a)
    (htime : t.props.time = s.props.time) : Spends 0 s t :=
  ⟨htime, fun a ↦ congrArg Account.promised (h a), fun a hqi ↦ h a ▸ hqi, fun a ↦ by rw [h a]; simp⟩

end Leaves

section Charges

variable {a b n : ℕ} {delta f : ℤ} {symbol : Symbol} {s : State}

theorem spares_modifyNfa {g : Nfa → Nfa} : Spares (modifyNfa n g) :=
  moves_modifyIn fun _ _ _ ↦ spends_of_accounts (fun _ ↦ rfl) rfl

theorem spares_modifyFund {g : RewardFund → RewardFund} : Spares (modifyFund n g) :=
  moves_modifyIn fun _ _ _ ↦ spends_of_accounts (fun _ ↦ rfl) rfl

theorem spares_modifySiming {g : Siming → Siming} : Spares (modifySiming n g) :=
  moves_modifyIn fun _ _ _ ↦ spends_of_accounts (fun _ ↦ rfl) rfl

theorem spares_modifyCultivation {g : Cultivation → Cultivation} :
    Spares (modifyCultivation n g) := moves_modifyIn fun _ _ _ ↦ spends_of_accounts (fun _ ↦ rfl) rfl

theorem spares_modifyProps {g : Props → Props} (h : ∀ p, (g p).time = p.time) :
    Spares (modifyProps g) := .update fun s ↦ spends_of_accounts (fun _ ↦ rfl) (h s.props)

theorem qi_add (p : Purse) (d : ℤ) (symbol : Symbol) :
    (p.add d symbol).qi = if symbol = .qi then p.qi + d else p.qi := by
  cases symbol <;> simp [Purse.add]

theorem getBalance_at {v : ℤ} {acc : Account} {t : State}
    (h : (getBalance a symbol).run s = .ok v t) (hacc : s.accounts[a]? = some acc) :
    v = acc.assets.get symbol := by
  obtain ⟨acc', u, h₁, h₂⟩ := bind_ok.mp h
  obtain ⟨hacc', rfl⟩ := getAccount_ok.mp h₁
  obtain rfl := Option.some.inj (hacc.symm.trans hacc')
  cases h₂
  rfl

/-- A balance may fall by what is taken. -/
theorem spends_adjustBalance {k : ℕ → ℤ} (hk : 0 ≤ k) (h : symbol = .qi → -delta ≤ k a) :
    Spends k s (after (adjustBalance a delta symbol) s) := by
  refine spends_read hk moves_getBalance fun _ _ ↦ spends_read hk moves_require fun _ _ ↦
    spends_read hk moves_getBalance fun v hv ↦ spends_read hk moves_require fun _ hr ↦
    spends_modifyAccount hk fun acc hacc ↦ ⟨rfl, ?_⟩
  have hle : 0 ≤ k a := hk a
  obtain ⟨hfunds, -⟩ := require_ok.mp hr
  obtain rfl := getBalance_at hv hacc
  rw [qi_add]
  split
  · next hs =>
    subst hs
    have := h rfl
    change 0 ≤ acc.assets.qi + delta at hfunds
    omega
  · omega

/-- A balance that rises makes up for what was taken before. -/
theorem gains_adjustBalance {t : State} {u : Unit} (hd : 0 ≤ delta)
    (h : (adjustBalance a delta .qi).run s = .ok u t) :
    Spends (fun c ↦ if a = c then -delta else 0) s t := by
  obtain ⟨v, s₁, h₁, hrest⟩ := bind_ok.mp h
  obtain ⟨acc, s₂, hacc, hv⟩ := bind_ok.mp h₁
  obtain ⟨-, rfl⟩ := account_of_getAccount hacc
  cases hv
  obtain ⟨_, s₃, hr, hrest₁⟩ := bind_ok.mp hrest
  obtain ⟨-, rfl⟩ := require_ok.mp hr
  obtain ⟨w, s₄, h₂, hrest₂⟩ := bind_ok.mp hrest₁
  obtain ⟨acc', s₅, hacc', hw⟩ := bind_ok.mp h₂
  obtain ⟨-, rfl⟩ := account_of_getAccount hacc'
  cases hw
  obtain ⟨_, s₆, hr', hmod⟩ := bind_ok.mp hrest₂
  obtain ⟨-, rfl⟩ := require_ok.mp hr'
  obtain ⟨hafter, htime⟩ := modifyAccount_ok hmod
  have hqi : ∀ c, (t.account c).assets.qi = (s₆.account c).assets.qi + if a = c then delta else 0 := by
    intro c
    rw [hafter c]
    split
    · exact qi_add _ _ _
    · exact (add_zero _).symm
  refine ⟨htime, fun c ↦ ?_, fun c hc ↦ ?_, fun c ↦ ?_⟩
  · rw [hafter c]
    split <;> rfl
  · rw [hqi c]
    split <;> omega
  · rw [hqi c]
    split <;> omega

theorem spares_adjustBalance (h : symbol = .qi → 0 ≤ delta) :
    Spares (adjustBalance a delta symbol) :=
  fun _ ↦ spends_adjustBalance le_rfl fun hs ↦ by simpa using h hs

theorem spares_adjustNfaBalance : Spares (adjustNfaBalance n delta symbol) := by
  refine .bind moves_getNfaBalance fun _ ↦ .bind moves_require fun _ ↦ ?_
  split
  · exact .bind moves_getNfaBalance fun _ ↦ .bind moves_require fun _ ↦ spares_modifyNfa
  · exact spares_modifyNfa

theorem spares_modifyRewardBalance {value share feigang : ℤ} {check : Bool} :
    Spares (modifyRewardBalance a value share feigang check) :=
  .bind moves_getAccount fun _ ↦ .bind moves_require fun _ ↦ .bind moves_require fun _ ↦
    spares_modifyAccount fun _ ↦ ⟨rfl, le_rfl⟩

theorem spares_adjustSimingAdore : Spares (adjustSimingAdore n delta) :=
  moves_adjustSimingAdore fun _ _ ↦ spares_modifySiming

theorem spares_propagate {credit : ℕ → Account → Account} {settle : ℕ → ℤ} {left : ℕ}
    (h : ∀ depth acc, (credit depth acc).promised = acc.promised ∧
      acc.assets.qi ≤ (credit depth acc).assets.qi) : Spares (propagate credit settle left a) :=
  moves_propagate (fun _ depth ↦ spares_modifyAccount (h depth)) fun _ _ ↦ spares_modifySiming

theorem spares_adjustProxiedArray {deltas : Fin 5 → ℤ} : Spares (adjustProxiedArray a deltas) :=
  spares_propagate fun _ _ ↦ ⟨rfl, le_rfl⟩

theorem spares_adjustProxied : Spares (adjustProxiedSimingAdores a delta) :=
  spares_propagate fun _ _ ↦ ⟨rfl, le_rfl⟩

theorem spares_clearSimingAdores : Spares (clearSimingAdores a) :=
  spares_modifyAccount fun _ ↦ ⟨rfl, le_rfl⟩

theorem spares_createQi : Spares (createQi a delta) := fun s ↦
  Moves.bind_at (moves_timesPrice s) fun newQi t ht ↦ by
    obtain ⟨⟨hnonneg, rfl⟩, rfl⟩ := yangToQi_ok.mp ht
    refine Moves.bind_at (spares_adjustBalance (fun _ ↦ by omega) _) fun _ t _ ↦ (?_ : Spares _) t
    exact .bind (spares_modifyProps fun _ ↦ rfl) fun _ ↦ .bind spares_adjustProxied fun _ ↦ .pure _

/-- The payer may pay what the charge reads first. -/
theorem spends_rewardFeigang {r : AssetRef} {k : ℕ → ℤ} (hk : 0 ≤ k)
    (h : ∀ v, r.read.run s = .ok v s → v ≤ k a) :
    Spends k s (after (rewardFeigang b a r) s) := by
  refine spends_read hk moves_read fun _ _ ↦ spends_read hk moves_require fun _ _ ↦
    spends_read hk moves_read fun v hv ↦
    spends_then_spares (spends_adjustBalance hk fun _ ↦ ?_) fun _ ↦
      .bind moves_read fun _ ↦ .bind spares_adjustProxied fun _ ↦ .bind moves_read fun _ ↦
      .bind spares_modifyRewardBalance fun _ ↦ .bind moves_read fun _ ↦ spares_modifyProps fun _ ↦ rfl
  have := h v hv
  omega

theorem spares_rewardFeigangFromNfa : Spares (rewardFeigangFromNfa b n delta) :=
  .bind moves_require fun _ ↦ .bind spares_adjustNfaBalance fun _ ↦
    .bind spares_modifyRewardBalance fun _ ↦ spares_modifyProps fun _ ↦ rfl

/-- What is taken from one account. -/
def taken (a : ℕ) (amount : ℤ) : ℕ → ℤ := fun b ↦ if a = b then max amount 0 else 0

theorem taken_nonneg : 0 ≤ taken a f := fun b ↦ by
  change 0 ≤ if a = b then max f 0 else 0
  split
  · exact le_max_right _ _
  · exact le_rfl

theorem le_taken : f ≤ taken a f a := by
  rw [taken, if_pos rfl]
  exact le_max_left _ _

theorem spends_rewardValue : Spends (taken a f) s (after (rewardFeigang b a (.value f)) s) :=
  spends_rewardFeigang taken_nonneg fun v hv ↦ by
    cases hv
    exact le_taken

theorem spends_chargeTreasury : Spends (taken a f) s (after (chargeTreasury a f) s) :=
  spends_read taken_nonneg moves_getBalance fun _ _ ↦ spends_read taken_nonneg moves_require
    fun _ _ ↦ spends_rewardValue

theorem add_taken_nonneg {k : ℕ → ℤ} (hk : 0 ≤ k) : 0 ≤ k + taken a f := fun b ↦ by
  have h₁ : 0 ≤ k b := hk b
  have h₂ : 0 ≤ taken a f b := taken_nonneg b
  change 0 ≤ k b + taken a f b
  omega

theorem spends_chargeCaller {drops points : ℤ} :
    Spends (taken a (drops - forTreasury drops) + taken a (50 + points + forTreasury drops)) s
      (after (chargeCaller b a drops points) s) :=
  spends_read (add_taken_nonneg taken_nonneg) moves_getBalance fun _ _ ↦
    spends_read (add_taken_nonneg taken_nonneg) moves_require fun _ _ ↦
    spends_bind taken_nonneg spends_rewardValue fun _ _ _ ↦ spends_chargeTreasury

/-- A treasury that is drained has less than the charge. -/
theorem spends_chargeOrDrain {payee owner : ℕ} {usedQi : ℤ} :
    Spends (taken taiyiDaoAccount usedQi) s (after (chargeOrDrain payee owner usedQi) s) := by
  refine spends_read taken_nonneg moves_getBalance fun qi hqi ↦ ?_
  split
  · exact spends_rewardValue
  · next hlt =>
    split
    · refine spends_rewardFeigang taken_nonneg fun v hv ↦ ?_
      have hv : (getBalance taiyiDaoAccount .qi).run s = .ok v s := hv
      rw [hqi] at hv
      cases hv
      have := le_taken (a := taiyiDaoAccount) (f := usedQi)
      omega
    · exact (Moves.pure (R := Spends 0) () s).mono taken_nonneg

end Charges

end Taiyi.Ledger
