import Taiyi.Ledger.Delegation
import Taiyi.Ledger.Spending

set_option autoImplicit false

namespace Taiyi.Ledger

open Library.IdMap Library.Outcome Library.Frame

def Operation.takes (s : State) : Operation → ℕ → ℤ
  | .transfer a _ _ _ => taken a 10
  -- the QI that is bought for YANG is more than the fee
  | .transferToQi a b _ => if a = b then 0 else taken a 10
  | .simingUpdate owner =>
    if s.simings[owner]? = none then taken owner (7 * s.props.lastSimingProductionReward) else 0
  | .createContract owner usedQi => taken owner usedQi
  | .callContractFunction _ caller drops points =>
    taken caller (drops - forTreasury drops) + taken caller (50 + points + forTreasury drops)
  | _ => 0

/-- A call that a contract makes is left without effect where its account cannot pay. -/
def ContractCall.takes (s : State) : ContractCall → ℕ → ℤ
  | .transferByContract a b amount symbol =>
    if symbol = .qi ∧ a ≠ b ∧ amount ≤ (s.account a).assets.qi then taken a amount else 0
  | .depositByContract caller a _ amount symbol =>
    if symbol = .qi ∧ caller = a ∧ amount ≤ (s.account a).assets.qi then taken a amount else 0
  | .chargeInCall _ payer usedQi =>
    if usedQi ≤ (s.account payer).assets.qi then taken payer usedQi else 0
  | _ => 0

def Routine.takes : Routine → ℕ → ℤ
  | .chargeProposal _ drops points =>
    taken taiyiDaoAccount (drops - forTreasury drops) +
      taken taiyiDaoAccount (50 + points + forTreasury drops)
  | _ => 0

/-- The QI that an action takes from each account: fees, charges, transfers and deposits. -/
def Action.takes (s : State) : Action → ℕ → ℤ
  | .operation o => o.takes s
  | .contract c => c.takes s
  | .routine r => r.takes
  | .outside _ => 0

section Operations

variable {a b : ℕ} {amount : ℤ} {s t : State} {symbol : Symbol}

theorem after_require {c : Prop} [Decidable c] {msg : String} {β : Type} {f : Unit → Call β} {v : β}
    (h : (require c msg >>= f).run s = .ok v t) : c ∧ (f ⟨⟩).run s = .ok v t := by
  obtain ⟨_, u, h₁, h₂⟩ := bind_ok.mp h
  obtain ⟨hc, rfl⟩ := require_ok.mp h₁
  exact ⟨hc, h₂⟩

theorem after_get {β : Type} {f : State → Call β} {v : β}
    (h : (get >>= f).run s = .ok v t) : (f s).run s = .ok v t := h

theorem account_new {acc : Table Account} (h : s.accounts[b]? = none)
    (ht : acc = s.accounts.insert b {}) (c : ℕ) :
    ({ s with accounts := acc } : State).account c = s.account c := by
  subst ht
  unfold State.account
  rw [getElem?_insert]
  split
  · next hc => rw [← hc, h]; rfl
  · rfl

theorem spares_accountCreate : Spares (accountCreate a b amount) := by
  refine .bind moves_require fun _ ↦ .bind (spares_adjustBalance nofun) fun _ s ↦ ?_
  refine Moves.read_at .get fun s' hs' ↦ ?_
  cases hs'
  refine Moves.read_at moves_require fun _ hr ↦ ?_
  obtain ⟨hnone, -⟩ := require_ok.mp hr
  exact Moves.bind_at (spends_of_accounts (account_new hnone rfl) rfl) fun _ _ _ ↦
    (Moves.ite (fun _ ↦ .bind spares_createQi fun _ ↦ .pure _) fun _ ↦ .pure _) _

theorem spends_transfer : Spends (taken a 10) s (after (transfer a b amount symbol) s) := by
  refine spends_read taken_nonneg moves_require fun _ hr ↦
    spends_read taken_nonneg moves_require fun _ _ ↦
    spends_then_spares spends_chargeTreasury fun _ ↦ ?_
  obtain ⟨⟨hsymbol, -⟩, -⟩ := require_ok.mp hr
  exact .bind (spares_adjustBalance fun h ↦ absurd h hsymbol) fun _ ↦
    spares_adjustBalance fun h ↦ absurd h hsymbol

theorem spends_transferToQi : Spends (taken a 10) s (after (transferToQi a b amount) s) :=
  spends_read taken_nonneg moves_require fun _ _ ↦
    spends_then_spares spends_chargeTreasury fun _ ↦ .bind (spares_adjustBalance nofun) fun _ ↦
      .bind spares_createQi fun _ ↦ .pure _

theorem spends_createQi {newQi : ℤ} (h : (createQi a amount).run s = .ok newQi t) :
    Spends (fun c ↦ if a = c then -(1000 * amount) else 0) s t := by
  obtain ⟨v, s₁, hv, h₁⟩ := bind_ok.mp h
  obtain ⟨⟨hpos, rfl⟩, rfl⟩ := yangToQi_ok.mp hv
  obtain ⟨_, s₂, hadjust, h₂⟩ := bind_ok.mp h₁
  have hrest : Spends 0 s₂ t := by
    rw [← after_ok h₂]
    refine (?_ : Spares _) s₂
    exact .bind (spares_modifyProps fun _ ↦ rfl) fun _ ↦ .bind spares_adjustProxied fun _ ↦ .pure _
  exact ((gains_adjustBalance (by omega) hadjust).trans hrest).mono (by rw [add_zero])

theorem spares_transferToQi_self {u : Unit} (h : (transferToQi a a amount).run s = .ok u t) :
    Spends 0 s t := by
  obtain ⟨hpos, h₁⟩ := after_require h
  obtain ⟨_, s₁, hfee, h₂⟩ := bind_ok.mp h₁
  obtain ⟨_, s₂, hyang, h₃⟩ := bind_ok.mp h₂
  obtain ⟨_, s₃, hqi, h₄⟩ := bind_ok.mp h₃
  have h₁₂ := (after_ok hfee ▸ spends_chargeTreasury : Spends (taken a 10) s s₁)
  have h₂₃ : Spends 0 s₁ s₂ := 
    after_ok hyang ▸ (spares_adjustBalance nofun : Spares (adjustBalance a (-amount) .yang)) s₁
  have h₃₄ := spends_createQi hqi
  cases h₄
  refine ((h₁₂.trans h₂₃).trans h₃₄).mono fun c ↦ ?_
  change taken a 10 c + 0 + (if a = c then -(1000 * amount) else 0) ≤ 0
  unfold taken
  split <;> omega

theorem spares_setWithdrawQiRoute {percent : ℕ} {autoVest : Bool} :
    Spares (setWithdrawQiRoute a b percent autoVest) := by
  refine .bind moves_require fun _ ↦ .bind moves_getAccount fun acc ↦
    .bind moves_getAccount fun _ ↦ .bind moves_require fun _ ↦ ?_
  have hlast : Spares (do
      require (totalPercent (← getAccount a).routes ≤ 10000)
        "More than 100% of qi withdrawals allocated to destinations.") :=
    .bind moves_getAccount fun _ ↦ moves_require
  have hroute : ∀ g : Account → Account, (∀ acc, (g acc).promised = acc.promised ∧
      acc.assets.qi ≤ (g acc).assets.qi) → Spares (modifyAccount a g >>= fun _ ↦ do
        require (totalPercent (← getAccount a).routes ≤ 10000)
          "More than 100% of qi withdrawals allocated to destinations.") :=
    fun g hg ↦ .bind (spares_modifyAccount hg) fun _ ↦ hlast
  split
  · exact .bind moves_require fun _ ↦ .bind moves_require fun _ ↦ hroute _ fun _ ↦ ⟨rfl, le_rfl⟩
  · split
    · exact hroute _ fun _ ↦ ⟨rfl, le_rfl⟩
    · exact hroute _ fun _ ↦ ⟨rfl, le_rfl⟩

theorem spares_accountSimingProxy {proxy : Option ℕ} : Spares (accountSimingProxy a proxy) := by
  refine .bind moves_require fun _ ↦ .bind moves_getAccount fun _ ↦ .bind moves_require fun _ ↦
    .bind moves_require fun _ ↦ .bind spares_adjustProxiedArray fun _ ↦ ?_
  split
  · exact .bind moves_getAccount fun _ ↦ .bind moves_checkProxyLoop fun _ ↦
      .bind spares_clearSimingAdores fun _ ↦
      .bind (spares_modifyAccount fun _ ↦ ⟨rfl, le_rfl⟩) fun _ ↦ spares_adjustProxiedArray
  · exact spares_modifyAccount fun _ ↦ ⟨rfl, le_rfl⟩

theorem spares_accountSimingAdore {siming : ℕ} {approve : Bool} :
    Spares (accountSimingAdore a siming approve) := by
  refine .bind moves_getAccount fun _ ↦ .bind moves_require fun _ ↦ .bind moves_require fun _ ↦
    .bind moves_getSiming fun _ ↦ .ite (fun _ ↦ ?_) fun _ ↦ ?_
  · exact .bind moves_require fun _ ↦ .bind spares_adjustSimingAdore fun _ ↦
      spares_modifyAccount fun _ ↦ ⟨rfl, le_rfl⟩
  · exact .bind moves_require fun _ ↦ .bind moves_require fun _ ↦
      .bind spares_adjustSimingAdore fun _ ↦ spares_modifyAccount fun _ ↦ ⟨rfl, le_rfl⟩

theorem ite_taken_nonneg {c : Prop} [Decidable c] {f : ℤ} : 0 ≤ if c then taken a f else 0 := by
  split
  · exact taken_nonneg
  · exact le_rfl

theorem spends_simingUpdate :
    Spends (if s.simings[a]? = none then taken a (7 * s.props.lastSimingProductionReward) else 0) s
      (after (simingUpdate a) s) := by
  refine spends_read ite_taken_nonneg .get fun s' hs' ↦ ?_
  cases hs'
  split
  · exact spends_then_spares spends_chargeTreasury fun _ ↦ .update fun _ ↦ spends_of_accounts (fun _ ↦ rfl) rfl
  · exact Moves.pure (R := Spends 0) () s

theorem spares_declineAdoringRights {decline : Bool} : Spares (declineAdoringRights a decline) :=
  .bind moves_getAccount fun _ ↦ .bind .get fun _ ↦
    .ite (fun _ ↦ .bind moves_require fun _ ↦ .update fun _ ↦ spends_of_accounts (fun _ ↦ rfl) rfl) fun _ ↦
      .bind moves_require fun _ ↦ .update fun _ ↦ spends_of_accounts (fun _ ↦ rfl) rfl

theorem spares_claimRewardBalance {yang qi feigang : ℤ} :
    Spares (claimRewardBalance a yang qi feigang) := fun s ↦ by
  refine Moves.read_at moves_require fun _ hr ↦ ?_
  obtain ⟨⟨-, hqi, hfeigang⟩, -⟩ := require_ok.mp hr
  refine (?_ : Spares _) s
  exact .bind moves_require fun _ ↦ .bind moves_getAccount fun _ ↦
    .bind moves_require fun _ ↦ .bind moves_require fun _ ↦ .bind moves_require fun _ ↦
    .bind spares_modifyRewardBalance fun _ ↦ .bind (spares_adjustBalance nofun) fun _ ↦
    .bind spares_modifyRewardBalance fun _ ↦ .bind (spares_adjustBalance fun _ ↦ hqi) fun _ ↦
    .bind spares_modifyRewardBalance fun _ ↦ .bind (spares_adjustBalance fun _ ↦ hfeigang) fun _ ↦
    .bind spares_adjustProxied fun _ ↦ .bind (spares_modifyProps fun _ ↦ rfl) fun _ ↦ spares_adjustProxied

theorem spends_operation (o : Operation) (ho : ∀ a qi, o ≠ .withdrawQi a qi)
    (h : o.apply.run s = .ok ⟨⟩ t) : Spends (o.takes s) s t := by
  rw [← after_ok h]
  cases o with
  | accountCreate => exact spares_accountCreate s
  | transfer => exact spends_transfer
  | transferToQi a b amount =>
    rw [Operation.takes]
    split
    · next hab => subst hab; exact after_ok h ▸ spares_transferToQi_self h
    · exact spends_transferToQi
  | withdrawQi a qi => exact absurd rfl (ho a qi)
  | setWithdrawQiRoute => exact spares_setWithdrawQiRoute s
  | accountSimingProxy => exact spares_accountSimingProxy s
  | accountSimingAdore => exact spares_accountSimingAdore s
  | simingUpdate => exact spends_simingUpdate
  | declineAdoringRights => exact spares_declineAdoringRights s
  | claimRewardBalance => exact spares_claimRewardBalance s
  | createContract => exact spends_chargeTreasury
  | callContractFunction => exact spends_chargeCaller

end Operations

section Contracts

variable {caller a b m n : ℕ} {amount : ℤ} {symbol : Symbol} {r : Resource} {s : State}

theorem account_of_getBalance {v : ℤ} {u : State} (h : (getBalance a .qi).run s = .ok v u) :
    v = (s.account a).assets.qi := by
  obtain ⟨acc, _, hacc, -⟩ := bind_ok.mp h
  obtain ⟨hacc, -⟩ := getAccount_ok.mp hacc
  rw [getBalance_at h hacc, State.account, hacc]
  rfl

theorem spends_transferByContract :
    Spends (if symbol = .qi ∧ a ≠ b ∧ amount ≤ (s.account a).assets.qi then taken a amount else 0)
      s (after (transferByContract a b amount symbol) s) := by
  refine spends_read ite_taken_nonneg moves_require fun _ hab ↦
    spends_read ite_taken_nonneg moves_getAccount fun _ _ ↦
    spends_read ite_taken_nonneg moves_getBalance fun v hv ↦
    spends_read ite_taken_nonneg moves_require fun _ hle ↦
    spends_read ite_taken_nonneg moves_require fun _ hr ↦
    spends_then_spares (spends_adjustBalance ite_taken_nonneg fun hs ↦ ?_) fun _ ↦
      spares_adjustBalance fun _ ↦ (require_ok.mp hr).1
  subst hs
  obtain rfl := account_of_getBalance hv
  rw [if_pos ⟨rfl, (require_ok.mp hab).1, (require_ok.mp hle).1⟩, neg_neg]
  exact le_taken

theorem spares_transferNfaByContract : Spares (transferNfaByContract caller m n amount symbol) :=
  .bind moves_require fun _ ↦ .bind moves_requireOperator fun _ ↦ .bind moves_getNfa fun _ ↦
    .bind moves_getNfaBalance fun _ ↦ .bind moves_require fun _ ↦ .bind moves_require fun _ ↦
    .bind spares_adjustNfaBalance fun _ ↦ spares_adjustNfaBalance

theorem spares_withdrawByContract : Spares (withdrawByContract caller n a amount symbol) := by
  refine .bind moves_requireOperator fun _ ↦ .bind moves_getAccount fun _ ↦
    .bind moves_getNfaBalance fun _ ↦ .bind moves_require fun _ s ↦
    Moves.read_at moves_require fun _ hr ↦ (?_ : Spares _) s
  exact .bind spares_adjustNfaBalance fun _ ↦
    .bind (spares_adjustBalance fun _ ↦ (require_ok.mp hr).1) fun _ ↦
    .ite (fun _ ↦ spares_adjustProxied) fun _ ↦ .pure _

theorem spends_depositByContract :
    Spends
      (if symbol = .qi ∧ caller = a ∧ amount ≤ (s.account a).assets.qi then taken a amount else 0)
      s (after (depositByContract caller a n amount symbol) s) := by
  refine spends_read ite_taken_nonneg moves_require fun _ hcaller ↦
    spends_read ite_taken_nonneg moves_getAccount fun _ _ ↦
    spends_read ite_taken_nonneg moves_getNfa fun _ _ ↦
    spends_read ite_taken_nonneg moves_getBalance fun v hv ↦
    spends_read ite_taken_nonneg moves_require fun _ hle ↦
    spends_read ite_taken_nonneg moves_require fun _ _ ↦
    spends_then_spares (spends_adjustBalance ite_taken_nonneg fun hs ↦ ?_) fun _ ↦
      .ite (fun _ ↦ ?_) fun _ ↦ ?_
  · subst hs
    obtain rfl := account_of_getBalance hv
    rw [if_pos ⟨rfl, (require_ok.mp hcaller).1, (require_ok.mp hle).1⟩, neg_neg]
    exact le_taken
  · exact .bind spares_adjustProxied fun _ ↦ spares_adjustNfaBalance
  · exact spares_adjustNfaBalance

theorem spares_convertQiToResource : Spares (convertQiToResource caller n amount r) :=
  .bind moves_requireOperator fun _ ↦ .bind moves_require fun _ ↦ .bind moves_getNfaBalance fun _ ↦
    .bind moves_require fun _ ↦ .bind moves_timesPrice fun _ ↦ .bind moves_timesPrice fun _ ↦
    .bind spares_adjustNfaBalance fun _ ↦ .bind spares_adjustNfaBalance fun _ ↦ spares_modifyProps fun _ ↦ rfl

theorem spares_convertResourceToQi : Spares (convertResourceToQi caller n amount r) :=
  .bind moves_requireOperator fun _ ↦ .bind moves_require fun _ ↦ .bind moves_getNfaBalance fun _ ↦
    .bind moves_require fun _ ↦ .bind moves_timesPrice fun _ ↦
    .bind spares_adjustNfaBalance fun _ ↦ .bind spares_adjustNfaBalance fun _ ↦ spares_modifyProps fun _ ↦ rfl

theorem spares_adjustMaterial : Spares (adjustMaterial n amount r) :=
  .bind moves_getMaterial fun _ ↦ spares_modifyNfa

theorem spares_injectMaterial : Spares (injectMaterialByContract caller m n amount r) :=
  .bind moves_require fun _ ↦ .bind moves_requireOperator fun _ ↦
    .bind moves_requireOperator fun _ ↦ .bind moves_getNfaBalance fun _ ↦
    .bind moves_require fun _ ↦ .bind spares_adjustNfaBalance fun _ ↦ spares_adjustMaterial

theorem spares_separateMaterial : Spares (separateMaterialByContract caller m n amount r) :=
  .bind moves_require fun _ ↦ .bind moves_requireOperator fun _ ↦ .bind moves_getNfa fun _ ↦
    .bind moves_getMaterial fun _ ↦ .bind moves_require fun _ ↦ .bind spares_adjustMaterial fun _ ↦
    spares_adjustNfaBalance

theorem spares_takeQi : Spares (takeQi caller n amount) :=
  .bind moves_requireOperator fun _ ↦ .bind moves_getNfaBalance fun _ ↦
    .bind moves_require fun _ ↦ spares_rewardFeigangFromNfa

theorem spends_chargeInCall :
    Spends (if amount ≤ (s.account a).assets.qi then taken a amount else 0) s
      (after (chargeInCall b a amount) s) := by
  refine spends_read ite_taken_nonneg moves_getBalance fun v hv ↦
    spends_read ite_taken_nonneg moves_require fun _ hle ↦ ?_
  obtain rfl := account_of_getBalance hv
  rw [if_pos (require_ok.mp hle).1]
  exact spends_rewardValue

theorem spares_consumeNfaMaterialRandom {hash : ℕ → ℕ} {seed : ℕ} :
    Spares (consumeNfaMaterialRandom hash n seed) :=
  .bind moves_getNfa fun _ ↦ .bind moves_getMaterial fun _ ↦
    .ite (fun _ ↦ .bind (.forM fun _ _ ↦ spares_adjustMaterial) fun _ ↦
      .forM fun _ _ ↦ spares_adjustBalance nofun) fun _ ↦ .pure _

end Contracts

section Cultivations

variable {hash : ℕ → ℕ}

instance : FramesNfas (Spends 0) where
  nfa := spares_modifyNfa
  cultivation := spares_modifyCultivation
  cultivations := spends_of_accounts (fun _ ↦ rfl) rfl
  newNfa := spends_of_accounts (fun _ ↦ rfl) rfl
  fund := spares_modifyFund
  props := spares_modifyProps

theorem spends_call (c : ContractCall) {s : State} : Spends (c.takes s) s (after (c.apply hash) s) := by
  cases c with
  | transferByContract => exact spends_transferByContract
  | transferNfaByContract => exact spares_transferNfaByContract s
  | withdrawByContract => exact spares_withdrawByContract s
  | depositByContract => exact spends_depositByContract
  | convertQiToResource => exact spares_convertQiToResource s
  | convertResourceToQi => exact spares_convertResourceToQi s
  | injectMaterial => exact spares_injectMaterial s
  | separateMaterial => exact spares_separateMaterial s
  | takeQi => exact spares_takeQi s
  | chargeInCall => exact spends_chargeInCall
  | consumeMaterial => exact spares_consumeNfaMaterialRandom s
  | createNfa => exact (frames_createNfa : Spares _) s
  | createCultivation => exact (frames_createCultivation : Spares _) s
  | participateCultivation => exact (frames_participate : Spares _) s
  | startCultivation => exact (frames_start : Spares _) s
  | stopAndCloseCultivation => exact (frames_stopAndClose : Spares _) s
  | updateCultivation =>
    exact (.bind moves_getCultivation fun _ ↦ .bind moves_requireOperator fun _ ↦
      frames_update : Spares _) s

end Cultivations

section Routines

variable {hash : ℕ → ℕ} {n owner : ℕ} {drops points : ℤ} {s t : State}

theorem spares_payRewardFunds {yang qi usedYang usedQi : ℤ} {l : List (ℕ × RewardFund)} :
    Spares (payRewardFunds yang qi l usedYang usedQi) := by
  induction l generalizing usedYang usedQi with
  | nil => exact .pure _
  | cons fund l ih =>
    exact .bind moves_timesPrice fun _ ↦ .bind spares_modifyFund fun _ ↦
      .bind (spares_modifyProps fun _ ↦ rfl) fun _ ↦ .bind moves_require fun _ ↦ .bind moves_require fun _ ↦ ih

theorem spares_processFunds : Spares processFunds := by
  refine .bind .get fun _ ↦ .bind spares_payRewardFunds fun _ ↦ .bind ?_ fun _ ↦ spares_modifyProps fun _ ↦ rfl
  exact .bind .get fun _ ↦ .bind moves_getSiming fun _ ↦ .bind moves_getAccount fun _ ↦
    .ite (fun _ ↦ spares_createQi) fun _ ↦
      .bind (spares_modifyAccount fun _ ↦ ⟨rfl, le_rfl⟩) fun _ ↦ moves_timesPrice

theorem spares_processDeclineAdoringRights : Spares processDeclineAdoringRights :=
  .bind .get fun _ ↦ .forM fun _ _ ↦ .bind moves_getAccount fun _ ↦
    .bind spares_adjustProxiedArray fun _ ↦ .bind spares_clearSimingAdores fun _ ↦
    .bind (spares_modifyAccount fun _ ↦ ⟨rfl, le_rfl⟩) fun _ ↦ .update fun _ ↦ spends_of_accounts (fun _ ↦ rfl) rfl

theorem spares_payDebt : Spares (payDebt n owner) :=
  .bind moves_getNfa fun _ ↦ .bind moves_require fun _ ↦ .bind spares_rewardFeigangFromNfa fun _ ↦
    spares_modifyNfa

theorem spares_chargeTick {contract : ℕ} {fail : Bool} :
    Spares (chargeTick n contract owner drops points fail) := by
  have hlast : ∀ {c : Prop} [Decidable c] {f : Nfa → Nfa},
      Spares (if c then modifyNfa n f else pure ()) :=
    .ite (fun _ ↦ spares_modifyNfa) fun _ ↦ .pure _
  refine .bind moves_getNfa fun _ ↦ .ite (fun _ ↦ ?_) fun _ ↦ .ite (fun _ ↦ ?_) fun _ ↦ hlast
  · exact .bind spares_rewardFeigangFromNfa fun _ ↦ .ite
      (fun _ ↦ .bind spares_rewardFeigangFromNfa fun _ ↦ hlast) fun _ ↦ hlast
  · exact .bind spares_rewardFeigangFromNfa fun _ ↦ hlast

theorem spends_routine (r : Routine) (hr : r ≠ .processQiWithdrawals) :
    Spends r.takes s (after (r.apply hash) s) := by
  cases r with
  | processFunds => exact spares_processFunds s
  | processQiWithdrawals => exact absurd rfl hr
  | processDeclineAdoringRights => exact spares_processDeclineAdoringRights s
  | cleanCultivations => exact (frames_clean : Spares _) s
  | payDebt => exact spares_payDebt s
  | chargeTick => exact spares_chargeTick s
  | chargeProposal =>
    exact spends_bind taken_nonneg spends_chargeOrDrain fun _ _ _ ↦ spends_chargeOrDrain

theorem spares_outside (o : Outside) (ho : ∀ a qi, o ≠ .delegateQi a qi)
    (hh : ∀ n time siming vt, o ≠ .headBlock n time siming vt) : Spares o.apply := by
  cases o with
  | headBlock n time siming vt => exact absurd rfl (hh n time siming vt)
  | changeOwner => exact spares_modifyNfa
  | setTick => exact spares_modifyNfa
  | delegateQi a qi => exact absurd rfl (ho a qi)
  | createActor =>
    exact .bind moves_getMaterial fun _ ↦ .update fun _ ↦ spends_of_accounts (fun _ ↦ rfl) rfl
  | settleActor =>
    exact .bind .get fun _ ↦ .bind moves_lookup fun _ ↦
      moves_modifyIn fun _ _ _ ↦ spends_of_accounts (fun _ ↦ rfl) rfl
  | createZone =>
    exact .bind moves_getMaterial fun _ ↦ .update fun _ ↦ spends_of_accounts (fun _ ↦ rfl) rfl

/-- The actions that start, change or carry out withdrawals, and the passing of time. -/
inductive Action.Withdraws : Action → Prop
  | withdrawQi (a : ℕ) (qi : ℤ) : Withdraws (.operation (.withdrawQi a qi))
  | processQiWithdrawals : Withdraws (.routine .processQiWithdrawals)
  | headBlock (n time siming virtualTime : ℕ) :
    Withdraws (.outside (.headBlock n time siming virtualTime))

theorem headBlock_ok {n time siming vt : ℕ} {u : Unit}
    (h : (Outside.headBlock n time siming vt).apply.run s = .ok u t) :
    t.accounts = s.accounts ∧ t.props.time = time := by
  obtain ⟨-, h⟩ := after_require (after_get h)
  cases h
  exact ⟨rfl, rfl⟩

/-- No action but those of withdrawals takes more QI from an account than it says. -/
theorem spends_step {act : Action} (h : act.step hash s = some t) (hp : act.plain)
    (hw : ¬act.Withdraws) : Spends (act.takes s) s t := by
  have ht := after_of_step h
  cases act with
  | operation o =>
    exact spends_operation o (fun a qi ho ↦ hw (ho ▸ .withdrawQi a qi)) ht
  | contract c =>
    rw [← ht]
    exact spends_call c
  | routine r =>
    rw [← after_ok ht]
    exact spends_routine r fun hr ↦ hw (hr ▸ .processQiWithdrawals)
  | outside o =>
    rw [← after_ok ht]
    refine spares_outside o ?_ ?_ s
    · rintro a qi rfl
      exact hp
    · rintro n time siming vt rfl
      exact hw (.headBlock n time siming vt)

end Routines

end Taiyi.Ledger
