import Taiyi.Ledger.CultivationSpec
import Taiyi.Ledger.Run
import Taiyi.Library.Frame

set_option autoImplicit false

namespace Taiyi.Ledger

open Library.IdMap Library.Outcome Library.Frame

section Primitives

variable {V : Type} {id : ℕ} {R : State → State → Prop} [IsPreorder State R]

theorem moves_require {c : Prop} [Decidable c] {msg : String} : Moves R (require c msg) :=
  .ite (fun _ ↦ .pure _) fun _ ↦ .throw _

/-- What comes after a check may rely on it. -/
theorem moves_guard {c : Prop} [Decidable c] {msg : String} {α : Type} {f : Unit → Call α}
    (h : c → Moves R (f ⟨⟩)) : Moves R (require c msg >>= f) := fun _ ↦
  Moves.bind_at (moves_require _) fun _ t hr ↦ h (require_ok.mp hr).1 t

theorem moves_lookup {t : Table V} : Moves R (lookup t id) := by
  unfold lookup
  split
  · exact .pure _
  · exact .throw _

theorem moves_getAccount : Moves R (getAccount id) := .bind .get fun _ ↦ moves_lookup

theorem moves_getNfa : Moves R (getNfa id) := .bind .get fun _ ↦ moves_lookup

theorem moves_getSiming : Moves R (getSiming id) := .bind .get fun _ ↦ moves_lookup

theorem moves_getCultivation : Moves R (getCultivation id) := .bind .get fun _ ↦ moves_lookup

theorem moves_getMaterial : Moves R (getMaterial id) :=
  .bind moves_getNfa fun _ ↦ .bind moves_require fun _ ↦ .pure _

theorem moves_getBalance {symbol : Symbol} : Moves R (getBalance id symbol) :=
  .bind moves_getAccount fun _ ↦ .pure _

theorem moves_getNfaBalance {symbol : Symbol} : Moves R (getNfaBalance id symbol) :=
  .bind moves_getNfa fun _ ↦ .pure _

theorem moves_requireOperator {caller : ℕ} : Moves R (requireOperator caller id) :=
  .bind moves_getNfa fun _ ↦ moves_require

theorem moves_timesPrice {amount num den : ℤ} : Moves R (timesPrice amount num den) :=
  .bind moves_require fun _ ↦ .pure _

theorem moves_read {r : AssetRef} : Moves R r.read := by
  cases r with
  | value amount => exact .pure _
  | qiOf account => exact moves_getBalance

theorem moves_checkProxyLoop {chain : List ℕ} {left : ℕ} :
    Moves R (checkProxyLoop chain left id) := by
  induction left generalizing id chain with
  | zero =>
    unfold checkProxyLoop
    refine .bind moves_getAccount fun acc ↦ ?_
    split
    · exact .pure _
    · exact .bind moves_require fun _ ↦ .throw _
  | succ left ih =>
    unfold checkProxyLoop
    refine .bind moves_getAccount fun acc ↦ ?_
    split
    · exact .pure _
    · exact .bind moves_require fun _ ↦ ih

theorem moves_gatherParticipants {ps : List ℕ} : Moves R (gatherParticipants ps) := by
  induction ps with
  | nil => exact .pure _
  | cons p ps ih =>
    exact .bind moves_getNfa fun _ ↦ .bind moves_getMaterial fun _ ↦ .bind ih fun _ ↦ .pure _

theorem moves_zoneOfActor {nfa : ℕ} : Moves R (zoneOfActor nfa) := by
  refine .bind .get fun _ ↦ .bind moves_lookup fun actor ↦ ?_
  split
  · exact .bind .get fun _ ↦ moves_lookup
  · exact .throw _

theorem moves_energy {zone : Zone} : Moves R (calculateZoneSpiritualEnergy zone) :=
  .bind moves_getMaterial fun _ ↦ .pure _

theorem moves_efficiency {zone : Zone} {p : Stock} : Moves R (efficiency zone p) :=
  .ite (fun _ ↦ .bind moves_getMaterial fun _ ↦ .pure _) fun _ ↦ .pure _

theorem modifyIn_at {table : State → Table V} {store : Table V → State → State} {f : V → V}
    {s : State} (h : ∀ v, (table s)[id]? = some v → R s (store ((table s).insert id (f v)) s)) :
    R s (after (modifyIn table store id f) s) := by
  refine Moves.bind_at (refl_of R s) fun a t ht ↦ ?_
  cases ht
  cases hv : (table s)[id]? with
  | none =>
    rw [after, lookup, hv]
    exact refl_of R s
  | some v =>
    have hr : after (lookup (table s) id >>= fun v ↦
        modify fun s ↦ store ((table s).insert id (f v)) s) s =
          store ((table s).insert id (f v)) s := by
      rw [after, lookup, hv]
      rfl
    exact hr ▸ h v hv

theorem moves_modifyIn {table : State → Table V} {store : Table V → State → State} {f : V → V}
    (h : ∀ s v, (table s)[id]? = some v → R s (store ((table s).insert id (f v)) s)) :
    Moves R (modifyIn table store id f) := fun s ↦ modifyIn_at (h s)

/-- A change of adores goes where its writes to accounts and to simings go. -/
theorem moves_adjustSimingAdore {delta : ℤ} (hs : ∀ w f, Moves R (modifySiming w f)) :
    Moves R (adjustSimingAdore id delta) :=
  .bind moves_getSiming fun _ ↦ .bind .get fun _ ↦ .bind moves_require fun _ ↦ hs _ _

theorem moves_adjustSimingAdores {delta : ℤ} (hs : ∀ w f, Moves R (modifySiming w f)) :
    Moves R (adjustSimingAdores id delta) :=
  .bind moves_getAccount fun _ ↦ .forM fun _ _ ↦ moves_adjustSimingAdore hs

theorem moves_propagate {credit : ℕ → Account → Account} {settle : ℕ → ℤ} {left : ℕ}
    (ha : ∀ p depth, Moves R (modifyAccount p (credit depth))) (hs : ∀ w f, Moves R (modifySiming w f)) :
    Moves R (propagate credit settle left id) := by
  induction left generalizing id with
  | zero =>
    exact .bind moves_getAccount fun _ ↦ .ite (fun _ ↦ moves_adjustSimingAdores hs) fun _ ↦ .pure _
  | succ left ih =>
    refine .bind moves_getAccount fun acc ↦ ?_
    split
    · exact moves_adjustSimingAdores hs
    · exact .bind (ha _ _) fun _ ↦ ih

end Primitives

/-- A relation between the states that does not look at what the calls outside the cultivations
and outside the choice of a proxy write. -/
class Frames (R : State → State → Prop) : Prop extends IsPreorder State R where
  account {id : ℕ} {f : Account → Account} :
    (∀ acc, (f acc).proxy = acc.proxy) → Moves R (modifyAccount id f)
  nfa {id : ℕ} {f : Nfa → Nfa} :
    (∀ n, (f n).hasMaterial = n.hasMaterial ∧ (f n).cultivationValue = n.cultivationValue) →
      Moves R (modifyNfa id f)
  siming {id : ℕ} {f : Siming → Siming} : Moves R (modifySiming id f)
  fund {id : ℕ} {f : RewardFund → RewardFund} : Moves R (modifyFund id f)
  props {f : Props → Props} :
    (∀ p, (f p).headBlockNumber = p.headBlockNumber) → Moves R (modifyProps f)
  newAccount {s : State} {id : ℕ} :
    s.accounts[id]? = none → R s { s with accounts := s.accounts.insert id {} }
  newSiming {s : State} {id : ℕ} : R s { s with simings := s.simings.insert id {} }
  declines {s : State} {t : Table ℕ} : R s { s with declines := t }

/-- What an account holds and has asked to withdraw. -/
def Account.holdings (a : Account) : Purse × ℤ × ℤ := (a.assets, a.toWithdraw, a.qiWithdrawRate)

/-- A relation between the states that the writes lead along of which the calls outside the
cultivations and outside the choice of a proxy are made. A write of a balance is checked. -/
class FramesParts (R : State → State → Prop) : Prop extends IsPreorder State R where
  balance {a : ℕ} {delta : ℤ} {symbol : Symbol} : Moves R (adjustBalance a delta symbol)
  rewardBalance {a : ℕ} {value share feigang : ℤ} {check : Bool} :
    Moves R (modifyRewardBalance a value share feigang check)
  nfaBalance {n : ℕ} {delta : ℤ} {symbol : Symbol} : Moves R (adjustNfaBalance n delta symbol)
  account {id : ℕ} {f : Account → Account} :
    (∀ acc, (f acc).proxy = acc.proxy ∧ (f acc).holdings = acc.holdings) →
      Moves R (modifyAccount id f)
  reward {id : ℕ} {amount : ℤ} : 0 ≤ amount →
    Moves R (modifyAccount id fun acc ↦ { acc with assets := acc.assets.add amount .yang })
  schedule {id time : ℕ} {rate toWithdraw : ℤ} : 0 ≤ rate → 0 ≤ toWithdraw →
    Moves R (modifyAccount id fun acc ↦
      { acc with qiWithdrawRate := rate, nextQiWithdrawalTime := time, toWithdraw := toWithdraw,
                 withdrawn := 0 })
  nfa {id : ℕ} {f : Nfa → Nfa} :
    (∀ n, (f n).hasMaterial = n.hasMaterial ∧ (f n).cultivationValue = n.cultivationValue ∧
      (f n).assets = n.assets) → Moves R (modifyNfa id f)
  siming {id : ℕ} {f : Siming → Siming} : Moves R (modifySiming id f)
  fund {id : ℕ} {f : RewardFund → RewardFund} : Moves R (modifyFund id f)
  props {f : Props → Props} :
    (∀ p, (f p).headBlockNumber = p.headBlockNumber) → Moves R (modifyProps f)
  newAccount {s : State} {id : ℕ} :
    s.accounts[id]? = none → R s { s with accounts := s.accounts.insert id {} }
  newSiming {s : State} {id : ℕ} : R s { s with simings := s.simings.insert id {} }
  declines {s : State} {t : Table ℕ} : R s { s with declines := t }

instance {R : State → State → Prop} [Frames R] : FramesParts R where
  balance := .bind moves_getBalance fun _ ↦ .bind moves_require fun _ ↦
    .bind moves_getBalance fun _ ↦ .bind moves_require fun _ ↦ Frames.account fun _ ↦ rfl
  rewardBalance := .bind moves_getAccount fun _ ↦ .bind moves_require fun _ ↦
    .bind moves_require fun _ ↦ Frames.account fun _ ↦ rfl
  nfaBalance := by
    refine .bind moves_getNfaBalance fun _ ↦ .bind moves_require fun _ ↦ ?_
    split
    · exact .bind moves_getNfaBalance fun _ ↦ .bind moves_require fun _ ↦
        Frames.nfa fun _ ↦ ⟨rfl, rfl⟩
    · exact Frames.nfa fun _ ↦ ⟨rfl, rfl⟩
  account h := Frames.account fun acc ↦ (h acc).1
  reward _ := Frames.account fun _ ↦ rfl
  schedule _ _ := Frames.account fun _ ↦ rfl
  nfa h := Frames.nfa fun n ↦ ⟨(h n).1, (h n).2.1⟩
  siming := Frames.siming
  fund := Frames.fund
  props := Frames.props
  newAccount := Frames.newAccount
  newSiming := Frames.newSiming
  declines := Frames.declines

section Frames

variable {R : State → State → Prop} [FramesParts R]

section Balances

variable {a b n : ℕ} {delta : ℤ} {symbol : Symbol}

theorem frames_adjustBalance : Moves R (adjustBalance a delta symbol) := FramesParts.balance

theorem frames_adjustNfaBalance : Moves R (adjustNfaBalance n delta symbol) :=
  FramesParts.nfaBalance

theorem frames_modifyRewardBalance {value share feigang : ℤ} {check : Bool} :
    Moves R (modifyRewardBalance a value share feigang check) := FramesParts.rewardBalance

theorem frames_propagate {credit : ℕ → Account → Account} {settle : ℕ → ℤ} {left : ℕ}
    (hcredit : ∀ depth acc, (credit depth acc).proxy = acc.proxy ∧
      (credit depth acc).holdings = acc.holdings) :
    Moves R (propagate credit settle left a) :=
  moves_propagate (fun _ depth ↦ FramesParts.account (hcredit depth)) fun _ _ ↦ FramesParts.siming

theorem frames_adjustProxiedArray {deltas : Fin 5 → ℤ} : Moves R (adjustProxiedArray a deltas) :=
  frames_propagate fun _ _ ↦ ⟨rfl, rfl⟩

theorem frames_adjustProxied : Moves R (adjustProxiedSimingAdores a delta) :=
  frames_propagate fun _ _ ↦ ⟨rfl, rfl⟩

theorem frames_createQi : Moves R (createQi a delta) :=
  .bind moves_timesPrice fun _ ↦ .bind frames_adjustBalance fun _ ↦
    .bind (FramesParts.props fun _ ↦ rfl) fun _ ↦ .bind frames_adjustProxied fun _ ↦ .pure _

theorem frames_rewardFeigang {r : AssetRef} : Moves R (rewardFeigang b a r) :=
  .bind moves_read fun _ ↦ .bind moves_require fun _ ↦ .bind moves_read fun _ ↦
    .bind frames_adjustBalance fun _ ↦ .bind moves_read fun _ ↦ .bind frames_adjustProxied fun _ ↦
    .bind moves_read fun _ ↦ .bind frames_modifyRewardBalance fun _ ↦ .bind moves_read fun _ ↦
    FramesParts.props fun _ ↦ rfl

theorem frames_rewardFeigangFromNfa : Moves R (rewardFeigangFromNfa b n delta) :=
  .bind moves_require fun _ ↦ .bind frames_adjustNfaBalance fun _ ↦
    .bind frames_modifyRewardBalance fun _ ↦ FramesParts.props fun _ ↦ rfl

theorem frames_chargeTreasury : Moves R (chargeTreasury a delta) :=
  .bind moves_getBalance fun _ ↦ .bind moves_require fun _ ↦ frames_rewardFeigang

theorem frames_chargeCaller {drops points : ℤ} : Moves R (chargeCaller b a drops points) :=
  .bind moves_getBalance fun _ ↦ .bind moves_require fun _ ↦ .bind frames_rewardFeigang fun _ ↦
    frames_chargeTreasury

end Balances

section Operations

variable {a b : ℕ} {amount : ℤ}

theorem frames_accountCreate : Moves R (accountCreate a b amount) := by
  refine .bind moves_require fun _ ↦ .bind frames_adjustBalance fun _ s ↦ ?_
  refine Moves.read_at .get fun s' hs' ↦ ?_
  cases hs'
  refine Moves.read_at moves_require fun _ hr ↦ ?_
  obtain ⟨hnone, -⟩ := require_ok.mp hr
  exact Moves.bind_at (FramesParts.newAccount hnone) fun _ _ _ ↦
    (Moves.ite (fun _ ↦ .bind frames_createQi fun _ ↦ .pure _) fun _ ↦ .pure _) _

theorem frames_transfer {symbol : Symbol} : Moves R (transfer a b amount symbol) :=
  .bind moves_require fun _ ↦ .bind moves_require fun _ ↦ .bind frames_chargeTreasury fun _ ↦
    .bind frames_adjustBalance fun _ ↦ frames_adjustBalance

theorem frames_transferToQi : Moves R (transferToQi a b amount) :=
  .bind moves_require fun _ ↦ .bind frames_chargeTreasury fun _ ↦ .bind frames_adjustBalance fun _ ↦
    .bind frames_createQi fun _ ↦ .pure _

theorem withdrawRate_nonneg (h : 0 ≤ amount) : 0 ≤ withdrawRate amount := by
  unfold withdrawRate
  dsimp only
  split <;> split <;> omega

theorem frames_withdrawQi : Moves R (withdrawQi a amount) := by
  refine moves_guard fun h ↦ .bind frames_chargeTreasury fun _ ↦
    .bind moves_getAccount fun _ ↦ .bind moves_require fun _ ↦ .ite (fun _ ↦ ?_) fun _ ↦ ?_
  · exact .bind moves_require fun _ ↦ FramesParts.schedule le_rfl le_rfl
  · exact .bind moves_require fun _ ↦ .bind .get fun _ ↦
      FramesParts.schedule (withdrawRate_nonneg h) h

theorem frames_setWithdrawQiRoute {percent : ℕ} {autoVest : Bool} :
    Moves R (setWithdrawQiRoute a b percent autoVest) := by
  refine .bind moves_require fun _ ↦ .bind moves_getAccount fun acc ↦
    .bind moves_getAccount fun _ ↦ .bind moves_require fun _ ↦ ?_
  have hlast : Moves R (do
      require (totalPercent (← getAccount a).routes ≤ 10000)
        "More than 100% of qi withdrawals allocated to destinations.") :=
    .bind moves_getAccount fun _ ↦ moves_require
  split
  · exact .bind moves_require fun _ ↦ .bind moves_require fun _ ↦
      .bind (FramesParts.account fun _ ↦ ⟨rfl, rfl⟩) fun _ ↦ hlast
  · split
    · exact .bind (FramesParts.account fun _ ↦ ⟨rfl, rfl⟩) fun _ ↦ hlast
    · exact .bind (FramesParts.account fun _ ↦ ⟨rfl, rfl⟩) fun _ ↦ hlast

theorem frames_accountSimingProxy {proxy : Option ℕ}
    (h : Moves R (modifyAccount a fun acc ↦ { acc with proxy := proxy })) :
    Moves R (accountSimingProxy a proxy) := by
  refine .bind moves_require fun _ ↦ .bind moves_getAccount fun _ ↦ .bind moves_require fun _ ↦
    .bind moves_require fun _ ↦ .bind frames_adjustProxiedArray fun _ ↦ ?_
  split
  · exact .bind moves_getAccount fun _ ↦ .bind moves_checkProxyLoop fun _ ↦
      .bind (FramesParts.account fun _ ↦ ⟨rfl, rfl⟩) fun _ ↦ .bind h fun _ ↦ frames_adjustProxiedArray
  · exact h

theorem frames_adjustSimingAdore {siming : ℕ} : Moves R (adjustSimingAdore siming amount) :=
  .bind moves_getSiming fun _ ↦ .bind .get fun _ ↦ .bind moves_require fun _ ↦ FramesParts.siming

theorem frames_accountSimingAdore {siming : ℕ} {approve : Bool} :
    Moves R (accountSimingAdore a siming approve) := by
  refine .bind moves_getAccount fun _ ↦ .bind moves_require fun _ ↦ .bind moves_require fun _ ↦
    .bind moves_getSiming fun _ ↦ .ite (fun _ ↦ ?_) fun _ ↦ ?_
  · exact .bind moves_require fun _ ↦ .bind frames_adjustSimingAdore fun _ ↦ FramesParts.account fun _ ↦ ⟨rfl, rfl⟩
  · exact .bind moves_require fun _ ↦ .bind moves_require fun _ ↦
      .bind frames_adjustSimingAdore fun _ ↦ FramesParts.account fun _ ↦ ⟨rfl, rfl⟩

theorem frames_simingUpdate : Moves R (simingUpdate a) :=
  .bind .get fun _ ↦ .ite (fun _ ↦ .bind frames_chargeTreasury fun _ ↦ .update fun _ ↦ FramesParts.newSiming)
    fun _ ↦ .pure _

theorem frames_declineAdoringRights {decline : Bool} : Moves R (declineAdoringRights a decline) :=
  .bind moves_getAccount fun _ ↦ .bind .get fun _ ↦
    .ite (fun _ ↦ .bind moves_require fun _ ↦ .update fun _ ↦ FramesParts.declines) fun _ ↦
      .bind moves_require fun _ ↦ .update fun _ ↦ FramesParts.declines

theorem frames_claimRewardBalance {yang qi feigang : ℤ} :
    Moves R (claimRewardBalance a yang qi feigang) :=
  .bind moves_require fun _ ↦ .bind moves_require fun _ ↦ .bind moves_getAccount fun _ ↦
    .bind moves_require fun _ ↦ .bind moves_require fun _ ↦ .bind moves_require fun _ ↦
    .bind frames_modifyRewardBalance fun _ ↦ .bind frames_adjustBalance fun _ ↦
    .bind frames_modifyRewardBalance fun _ ↦ .bind frames_adjustBalance fun _ ↦
    .bind frames_modifyRewardBalance fun _ ↦ .bind frames_adjustBalance fun _ ↦
    .bind frames_adjustProxied fun _ ↦ .bind (FramesParts.props fun _ ↦ rfl) fun _ ↦
    frames_adjustProxied

theorem frames_operation (o : Operation)
    (h : ∀ a proxy, o = .accountSimingProxy a proxy →
      Moves R (modifyAccount a fun acc ↦ { acc with proxy := proxy })) : Moves R o.apply := by
  cases o with
  | accountCreate => exact frames_accountCreate
  | transfer => exact frames_transfer
  | transferToQi => exact frames_transferToQi
  | withdrawQi => exact frames_withdrawQi
  | setWithdrawQiRoute => exact frames_setWithdrawQiRoute
  | accountSimingProxy a proxy => exact frames_accountSimingProxy (h a proxy rfl)
  | accountSimingAdore => exact frames_accountSimingAdore
  | simingUpdate => exact frames_simingUpdate
  | declineAdoringRights => exact frames_declineAdoringRights
  | claimRewardBalance => exact frames_claimRewardBalance
  | createContract => exact frames_chargeTreasury
  | callContractFunction => exact frames_chargeCaller

end Operations

section Contracts

variable {caller a b m n : ℕ} {amount : ℤ} {symbol : Symbol} {r : Resource}

theorem frames_transferByContract : Moves R (transferByContract a b amount symbol) :=
  .bind moves_require fun _ ↦ .bind moves_getAccount fun _ ↦ .bind moves_getBalance fun _ ↦
    .bind moves_require fun _ ↦ .bind moves_require fun _ ↦ .bind frames_adjustBalance fun _ ↦
    frames_adjustBalance

theorem frames_transferNfaByContract : Moves R (transferNfaByContract caller m n amount symbol) :=
  .bind moves_require fun _ ↦ .bind moves_requireOperator fun _ ↦ .bind moves_getNfa fun _ ↦
    .bind moves_getNfaBalance fun _ ↦ .bind moves_require fun _ ↦ .bind moves_require fun _ ↦
    .bind frames_adjustNfaBalance fun _ ↦ frames_adjustNfaBalance

theorem frames_withdrawByContract : Moves R (withdrawByContract caller n a amount symbol) :=
  .bind moves_requireOperator fun _ ↦ .bind moves_getAccount fun _ ↦
    .bind moves_getNfaBalance fun _ ↦ .bind moves_require fun _ ↦ .bind moves_require fun _ ↦
    .bind frames_adjustNfaBalance fun _ ↦ .bind frames_adjustBalance fun _ ↦
    .ite (fun _ ↦ frames_adjustProxied) fun _ ↦ .pure _

theorem frames_depositByContract : Moves R (depositByContract caller a n amount symbol) := by
  refine .bind moves_require fun _ ↦ .bind moves_getAccount fun _ ↦ .bind moves_getNfa fun _ ↦
    .bind moves_getBalance fun _ ↦ .bind moves_require fun _ ↦ .bind moves_require fun _ ↦
    .bind frames_adjustBalance fun _ ↦ .ite (fun _ ↦ ?_) fun _ ↦ ?_
  · exact .bind frames_adjustProxied fun _ ↦ frames_adjustNfaBalance
  · exact frames_adjustNfaBalance

theorem frames_convertQiToResource : Moves R (convertQiToResource caller n amount r) :=
  .bind moves_requireOperator fun _ ↦ .bind moves_require fun _ ↦ .bind moves_getNfaBalance fun _ ↦
    .bind moves_require fun _ ↦ .bind moves_timesPrice fun _ ↦ .bind moves_timesPrice fun _ ↦
    .bind frames_adjustNfaBalance fun _ ↦ .bind frames_adjustNfaBalance fun _ ↦
    FramesParts.props fun _ ↦ rfl

theorem frames_convertResourceToQi : Moves R (convertResourceToQi caller n amount r) :=
  .bind moves_requireOperator fun _ ↦ .bind moves_require fun _ ↦ .bind moves_getNfaBalance fun _ ↦
    .bind moves_require fun _ ↦ .bind moves_timesPrice fun _ ↦
    .bind frames_adjustNfaBalance fun _ ↦ .bind frames_adjustNfaBalance fun _ ↦
    FramesParts.props fun _ ↦ rfl

theorem frames_adjustMaterial : Moves R (adjustMaterial n amount r) :=
  .bind moves_getMaterial fun _ ↦ FramesParts.nfa fun _ ↦ ⟨rfl, rfl, rfl⟩

theorem frames_injectMaterial : Moves R (injectMaterialByContract caller m n amount r) :=
  .bind moves_require fun _ ↦ .bind moves_requireOperator fun _ ↦
    .bind moves_requireOperator fun _ ↦ .bind moves_getNfaBalance fun _ ↦
    .bind moves_require fun _ ↦ .bind frames_adjustNfaBalance fun _ ↦ frames_adjustMaterial

theorem frames_separateMaterial : Moves R (separateMaterialByContract caller m n amount r) :=
  .bind moves_require fun _ ↦ .bind moves_requireOperator fun _ ↦ .bind moves_getNfa fun _ ↦
    .bind moves_getMaterial fun _ ↦ .bind moves_require fun _ ↦ .bind frames_adjustMaterial fun _ ↦
    frames_adjustNfaBalance

theorem frames_takeQi : Moves R (takeQi caller n amount) :=
  .bind moves_requireOperator fun _ ↦ .bind moves_getNfaBalance fun _ ↦
    .bind moves_require fun _ ↦ frames_rewardFeigangFromNfa

theorem frames_chargeInCall : Moves R (chargeInCall b a amount) :=
  .bind moves_getBalance fun _ ↦ .bind moves_require fun _ ↦ frames_rewardFeigang

theorem frames_consumeNfaMaterialRandom {hash : ℕ → ℕ} {seed : ℕ} :
    Moves R (consumeNfaMaterialRandom hash n seed) :=
  .bind moves_getNfa fun _ ↦ .bind moves_getMaterial fun _ ↦
    .ite (fun _ ↦ .bind (.forM fun _ _ ↦ frames_adjustMaterial) fun _ ↦
      .forM fun _ _ ↦ frames_adjustBalance) fun _ ↦ .pure _

end Contracts

section Routines

theorem frames_payRewardFunds {yang qi usedYang usedQi : ℤ} {l : List (ℕ × RewardFund)} :
    Moves R (payRewardFunds yang qi l usedYang usedQi) := by
  induction l generalizing usedYang usedQi with
  | nil => exact .pure _
  | cons fund l ih =>
    exact .bind moves_timesPrice fun _ ↦ .bind FramesParts.fund fun _ ↦
      .bind (FramesParts.props fun _ ↦ rfl) fun _ ↦ .bind moves_require fun _ ↦
      .bind moves_require fun _ ↦ ih

theorem frames_paySiming {reward : ℤ} (h : 0 ≤ reward) : Moves R (paySiming reward) :=
  .bind .get fun _ ↦ .bind moves_getSiming fun _ ↦ .bind moves_getAccount fun _ ↦
    .ite (fun _ ↦ frames_createQi) fun _ ↦ .bind (FramesParts.reward h) fun _ ↦ moves_timesPrice

theorem frames_processFunds : Moves R processFunds :=
  .bind .get fun _ ↦ .bind frames_payRewardFunds fun _ ↦
    .bind (frames_paySiming (le_max_of_le_right (by decide))) fun _ ↦
    FramesParts.props fun _ ↦ rfl

theorem frames_declineAccount {a : ℕ}
    (h : Moves R (modifyAccount a fun acc ↦ { acc with canAdore := false, proxy := none })) :
    Moves R (declineAccount a) :=
  .bind moves_getAccount fun _ ↦ .bind frames_adjustProxiedArray fun _ ↦
    .bind (FramesParts.account fun _ ↦ ⟨rfl, rfl⟩) fun _ ↦ .bind h fun _ ↦ .update fun _ ↦ FramesParts.declines

theorem frames_payDebt {n owner : ℕ} : Moves R (payDebt n owner) :=
  .bind moves_getNfa fun _ ↦ .bind moves_require fun _ ↦ .bind frames_rewardFeigangFromNfa fun _ ↦
    FramesParts.nfa fun _ ↦ ⟨rfl, rfl, rfl⟩

theorem frames_chargeTick {n contract owner : ℕ} {drops points : ℤ} {fail : Bool} :
    Moves R (chargeTick n contract owner drops points fail) := by
  have hlast : ∀ {c : Prop} [Decidable c] {f : Nfa → Nfa},
      (∀ m, (f m).hasMaterial = m.hasMaterial ∧ (f m).cultivationValue = m.cultivationValue ∧
        (f m).assets = m.assets) → Moves R (if c then modifyNfa n f else pure ()) :=
    fun hf ↦ .ite (fun _ ↦ FramesParts.nfa hf) fun _ ↦ .pure _
  refine .bind moves_getNfa fun _ ↦ .ite (fun _ ↦ ?_) fun _ ↦ .ite (fun _ ↦ ?_) fun _ ↦ hlast fun _ ↦ ⟨rfl, rfl, rfl⟩
  · exact .bind frames_rewardFeigangFromNfa fun _ ↦ .ite
      (fun _ ↦ .bind frames_rewardFeigangFromNfa fun _ ↦ hlast fun _ ↦ ⟨rfl, rfl, rfl⟩) fun _ ↦ hlast fun _ ↦ ⟨rfl, rfl, rfl⟩
  · exact .bind frames_rewardFeigangFromNfa fun _ ↦ hlast fun _ ↦ ⟨rfl, rfl, rfl⟩

theorem frames_chargeOrDrain {payee owner : ℕ} {qi : ℤ} : Moves R (chargeOrDrain payee owner qi) :=
  .bind moves_getBalance fun _ ↦ .ite (fun _ ↦ frames_rewardFeigang) fun _ ↦
    .ite (fun _ ↦ frames_rewardFeigang) fun _ ↦ .pure _

theorem frames_chargeProposal {owner : ℕ} {drops points : ℤ} :
    Moves R (chargeProposal owner drops points) :=
  .bind frames_chargeOrDrain fun _ ↦ frames_chargeOrDrain

end Routines

end Frames

section Turns

/-- The loop leads where its turns lead. -/
theorem moves_withdrawFrom {R : State → State → Prop} [IsPreorder State R] {turns : ℕ}
    {current : Option ℕ} (h : ∀ a, Moves R (withdrawTurn a)) : Moves R (withdrawFrom turns current) := by
  induction turns generalizing current with
  | zero =>
    cases current <;> exact .throw _
  | succ turns ih =>
    cases current with
    | none => exact .pure _
    | some a =>
      exact .bind moves_getAccount fun _ ↦ .bind .get fun _ ↦
        .ite (fun _ ↦ .bind (h a) fun _ ↦ ih) fun _ ↦ .pure _

variable {R : State → State → Prop} [Frames R]

theorem frames_withdrawTurn {a : ℕ} : Moves R (withdrawTurn a) := by
  refine .bind moves_getAccount fun _ ↦ .bind (.forM fun _ _ ↦ ?_) fun _ ↦
    .bind (.forM fun _ _ ↦ ?_) fun _ ↦ .bind moves_require fun _ ↦ .bind moves_timesPrice fun _ ↦
    .bind (Frames.account fun _ ↦ rfl) fun _ ↦ .bind (Frames.props fun _ ↦ rfl) fun _ ↦
    .ite (fun _ ↦ frames_adjustProxied) fun _ ↦ .pure _
  · exact .ite (fun _ ↦ .bind (Frames.account fun _ ↦ rfl) fun _ ↦ frames_adjustProxied) fun _ ↦ .pure _
  · exact .bind moves_getAccount fun _ ↦ .bind moves_timesPrice fun _ ↦
      .ite (fun _ ↦ .bind (Frames.account fun _ ↦ rfl) fun _ ↦ Frames.props fun _ ↦ rfl) fun _ ↦ .pure _

theorem frames_withdrawFrom {turns : ℕ} {current : Option ℕ} :
    Moves R (withdrawFrom turns current) := moves_withdrawFrom fun _ ↦ frames_withdrawTurn

end Turns

/-- A relation between the states that does not look at NFAs and cultivations. -/
class FramesNfas (R : State → State → Prop) : Prop extends IsPreorder State R where
  nfa {id : ℕ} {f : Nfa → Nfa} : Moves R (modifyNfa id f)
  cultivation {id : ℕ} {f : Cultivation → Cultivation} : Moves R (modifyCultivation id f)
  cultivations {s : State} {t : Table Cultivation} : R s { s with cultivations := t }
  newNfa {s : State} {id : ℕ} {n : Nfa} : R s { s with nfas := s.nfas.insert id n }
  fund {id : ℕ} {f : RewardFund → RewardFund} : Moves R (modifyFund id f)
  props {f : Props → Props} : (∀ p, (f p).time = p.time) → Moves R (modifyProps f)

/-- A relation between the states that the writes of NFAs lead along of which the calls about
cultivations are made. It does not look at cultivations. -/
class FramesNfaParts (R : State → State → Prop) : Prop extends IsPreorder State R where
  balance {n : ℕ} {delta : ℤ} {symbol : Symbol} : Moves R (adjustNfaBalance n delta symbol)
  joins {s : State} {p value : ℕ} {n : Nfa} :
    s.nfas[p]? = some n → (value : ℤ) ≤ n.assets.qi →
      R s
        { s with
          nfas := s.nfas.insert p
            { n with cultivationValue := value, assets := n.assets.add (-value) .qi } }
  repay {p : ℕ} :
    Moves R (modifyNfa p fun n ↦
      { n with assets := n.assets.add n.cultivationValue .qi, cultivationValue := 0 })
  material {id : ℕ} : Moves R (modifyNfa id fun n ↦ { n with hasMaterial := true })
  cultivation {id : ℕ} {f : Cultivation → Cultivation} : Moves R (modifyCultivation id f)
  cultivations {s : State} {t : Table Cultivation} : R s { s with cultivations := t }
  newNfa {s : State} {id : ℕ} {n : Nfa} :
    n.assets = {} → R s { s with nfas := s.nfas.insert id n }
  fund {id : ℕ} {f : RewardFund → RewardFund} : Moves R (modifyFund id f)
  props {f : Props → Props} : (∀ p, (f p).time = p.time) → Moves R (modifyProps f)

instance {R : State → State → Prop} [FramesNfas R] : FramesNfaParts R where
  balance := by
    refine .bind moves_getNfaBalance fun _ ↦ .bind moves_require fun _ ↦ ?_
    split
    · exact .bind moves_getNfaBalance fun _ ↦ .bind moves_require fun _ ↦ FramesNfas.nfa
    · exact FramesNfas.nfa
  joins _ _ := FramesNfas.newNfa
  repay := FramesNfas.nfa
  material := FramesNfas.nfa
  cultivation := FramesNfas.cultivation
  cultivations := FramesNfas.cultivations
  newNfa _ := FramesNfas.newNfa
  fund := FramesNfas.fund
  props := FramesNfas.props

section Cultivations

variable {R : State → State → Prop} [FramesNfaParts R] {hash : ℕ → ℕ} {caller cult seed n : ℕ}

theorem frames_nfaBalance {delta : ℤ} {symbol : Symbol} :
    Moves R (adjustNfaBalance n delta symbol) := FramesNfaParts.balance

theorem frames_createNfa {creator minQi : ℕ} {ok : Bool} :
    Moves R (createNfa n creator minQi ok) :=
  .bind .get fun _ ↦ .bind moves_require fun _ ↦ .bind (.update fun _ ↦ FramesNfaParts.newNfa rfl)
    fun _ ↦ .bind moves_require fun _ ↦ FramesNfaParts.material

theorem frames_createCultivation {manager time : ℕ} {entries : List (ℕ × ℤ)} :
    Moves R (createCultivation caller cult manager entries time) :=
  .bind moves_requireOperator fun _ ↦
    .bind (.forM fun _ _ ↦ .bind moves_getNfa fun _ ↦ moves_require) fun _ ↦
    .bind moves_require fun _ ↦ .bind moves_require fun _ ↦
    .bind (.forM fun _ _ ↦ .bind moves_getNfa fun _ ↦ moves_require) fun _ ↦
    .bind moves_require fun _ ↦ .bind .get fun _ ↦ .bind moves_require fun _ ↦
    .update fun _ ↦ FramesNfaParts.cultivations

theorem frames_participate {nfa value : ℕ} :
    Moves R (participateCultivation caller cult nfa value) := by
  have hlast : Moves R (modifyProps fun p ↦
      { p with
        totalQi := p.totalQi - value
        pendingCultivationQi := p.pendingCultivationQi + value }) :=
    FramesNfaParts.props fun _ ↦ rfl
  intro s
  refine Moves.read_at moves_getCultivation fun _ _ ↦ ?_
  refine Moves.read_at moves_require fun _ _ ↦ ?_
  refine Moves.read_at moves_requireOperator fun _ _ ↦ ?_
  refine Moves.read_at moves_getNfa fun n hn ↦ ?_
  refine Moves.read_at moves_require fun _ _ ↦ ?_
  refine Moves.read_at moves_require fun _ _ ↦ ?_
  refine Moves.read_at moves_require fun _ hle ↦ ?_
  refine Moves.bind_at (FramesNfaParts.cultivation s) fun _ t ht ↦ ?_
  obtain ⟨c, -, rfl⟩ := modifyIn_ok.mp ht
  refine Moves.bind_at (modifyIn_at fun m hm ↦ ?_) fun _ t _ ↦ hlast t
  cases (getNfa_ok.mp hn).1.symm.trans hm
  exact FramesNfaParts.joins hm (require_ok.mp hle).1

theorem frames_start : Moves R (startCultivation caller cult) :=
  .bind moves_getCultivation fun _ ↦ .bind moves_requireOperator fun _ ↦
    .bind moves_require fun _ ↦ .bind moves_require fun _ ↦ .bind .get fun _ ↦
    FramesNfaParts.cultivation

theorem frames_update : Moves R (updateCultivation hash cult seed) := by
  refine .bind moves_getCultivation fun _ ↦ .bind moves_require fun _ ↦ .bind .get fun _ ↦
    .bind moves_require fun _ ↦ .ite (fun _ ↦ ?_) fun _ ↦ .pure _
  exact .bind moves_zoneOfActor fun _ ↦ .bind moves_energy fun _ ↦
    .bind moves_gatherParticipants fun _ ↦ .bind moves_efficiency fun _ ↦
    .ite (fun _ ↦ FramesNfaParts.cultivation) fun _ ↦ .pure _

theorem frames_returnQi {ps : List ℕ} : Moves R (returnQi ps) := by
  induction ps with
  | nil => exact .pure _
  | cons p ps ih =>
    exact .bind moves_getNfa fun _ ↦ .bind FramesNfaParts.repay fun _ ↦ .bind ih fun _ ↦ .pure _

theorem frames_dissolve : Moves R (dissolveCultivation cult) :=
  .bind moves_getCultivation fun _ ↦ .bind frames_returnQi fun _ ↦
    .bind FramesNfaParts.cultivation fun _ ↦ .ite (fun _ ↦ FramesNfaParts.props fun _ ↦ rfl) fun _ ↦ .pure _

theorem frames_payReward {rv : ℤ} {shares : List (ℕ × ℕ)} : Moves R (payReward rv shares) := by
  refine .ite (fun _ ↦ .bind ?_ fun _ ↦ .bind FramesNfaParts.fund fun _ ↦ FramesNfaParts.props fun _ ↦ rfl)
    fun _ ↦ .pure _
  refine .bind (.forM fun _ _ ↦ frames_nfaBalance) fun _ ↦ .ite (fun _ ↦ ?_) fun _ ↦ .pure _
  split
  · exact frames_nfaBalance
  · exact .throw _

theorem frames_stop : Moves R (stopCultivation hash cult seed) :=
  .bind frames_update fun _ ↦ .bind moves_getCultivation fun _ ↦ .bind .get fun _ ↦
    .bind moves_lookup fun _ ↦ .bind frames_payReward fun _ ↦ frames_dissolve

theorem frames_remove : Moves R (removeCultivation cult) :=
  .update fun _ ↦ FramesNfaParts.cultivations

theorem frames_stopAndClose : Moves R (stopAndCloseCultivation hash caller cult seed) := by
  refine .bind moves_getCultivation fun _ ↦ .bind moves_requireOperator fun _ ↦
    .ite (fun _ ↦ ?_) fun _ ↦ ?_
  · exact .bind frames_stop fun _ ↦ frames_remove
  · exact .bind frames_dissolve fun _ ↦ frames_remove

theorem frames_stopExpired {turns : ℕ} {iter : Option (ℕ × Cultivation)} :
    Moves R (stopExpired hash seed turns iter) := by
  induction turns generalizing iter with
  | zero => exact .pure _
  | succ turns ih =>
    cases iter with
    | none => exact .pure _
    | some row =>
      exact .bind .get fun _ ↦ .ite (fun _ ↦ .pure _) fun _ ↦ .bind frames_stop fun _ ↦
        .bind .get fun _ ↦ .bind ih fun _ ↦ .pure _

theorem frames_clean : Moves R (cleanCultivations hash seed) :=
  .bind .get fun _ ↦ .bind (.forM fun _ _ ↦ frames_dissolve) fun _ ↦ .bind .get fun _ ↦
    .bind frames_stopExpired fun _ ↦ .forM fun _ _ ↦ frames_remove

end Cultivations

section Calls

variable {R : State → State → Prop} [FramesParts R] [FramesNfaParts R] {hash : ℕ → ℕ}

theorem frames_call (c : ContractCall) : Moves R (c.apply hash) := by
  cases c with
  | transferByContract => exact frames_transferByContract
  | transferNfaByContract => exact frames_transferNfaByContract
  | withdrawByContract => exact frames_withdrawByContract
  | depositByContract => exact frames_depositByContract
  | convertQiToResource => exact frames_convertQiToResource
  | convertResourceToQi => exact frames_convertResourceToQi
  | injectMaterial => exact frames_injectMaterial
  | separateMaterial => exact frames_separateMaterial
  | takeQi => exact frames_takeQi
  | chargeInCall => exact frames_chargeInCall
  | consumeMaterial => exact frames_consumeNfaMaterialRandom
  | createNfa => exact frames_createNfa
  | createCultivation => exact frames_createCultivation
  | participateCultivation => exact frames_participate
  | startCultivation => exact frames_start
  | stopAndCloseCultivation => exact frames_stopAndClose
  | updateCultivation =>
    exact .bind moves_getCultivation fun _ ↦ .bind moves_requireOperator fun _ ↦ frames_update

theorem frames_routine (r : Routine) (hturn : ∀ a, Moves R (withdrawTurn a))
    (hdecline : ∀ a, Moves R (modifyAccount a fun acc ↦ { acc with canAdore := false, proxy := none })) :
    Moves R (r.apply hash) := by
  cases r with
  | processFunds => exact frames_processFunds
  | processQiWithdrawals => exact .bind .get fun _ ↦ moves_withdrawFrom hturn
  | processDeclineAdoringRights =>
    exact .bind .get fun _ ↦ .forM fun _ _ ↦ frames_declineAccount (hdecline _)
  | cleanCultivations => exact frames_clean
  | payDebt => exact frames_payDebt
  | chargeTick => exact frames_chargeTick
  | chargeProposal => exact frames_chargeProposal

end Calls

/-- What the cleaning of cultivations rests on: they themselves, the world they are settled
against, and a fund that pays them. -/
def grounds (s : State) : ((ℕ → Option Bool) × Table Actor × Table Zone × ℕ) ×
    Table Cultivation × Bool :=
  (world s, s.cultivations, (s.funds[cultivationFund]?).isSome)

abbrev Rests {α : Type} (x : Call α) : Prop := Moves (Same grounds) x

section Leaves

variable {id : ℕ}

theorem rests_modifyAccount {f : Account → Account} : Rests (modifyAccount id f) :=
  moves_modifyIn fun _ _ _ ↦ rfl

theorem rests_modifySiming {f : Siming → Siming} : Rests (modifySiming id f) :=
  moves_modifyIn fun _ _ _ ↦ rfl

theorem rests_modifyNfa {f : Nfa → Nfa} (h : ∀ n, (f n).hasMaterial = n.hasMaterial) :
    Rests (modifyNfa id f) :=
  moves_modifyIn fun _ n hn ↦ Prod.ext (world_modifyNfa hn (h n)) rfl

theorem rests_modifyFund {f : RewardFund → RewardFund} : Rests (modifyFund id f) := by
  refine moves_modifyIn fun s r hr ↦ Prod.ext rfl (Prod.ext rfl ?_)
  change ((s.funds.insert id (f r))[cultivationFund]?).isSome = (s.funds[cultivationFund]?).isSome
  rw [getElem?_insert]
  split
  · next hid =>
    rw [← hid, hr]
    rfl
  · rfl

theorem rests_modifyProps {f : Props → Props}
    (h : ∀ p, (f p).headBlockNumber = p.headBlockNumber) : Rests (modifyProps f) :=
  .update fun s ↦ congrArg
    (fun n ↦ (((fun id ↦ (s.nfas[id]?).map Nfa.hasMaterial, s.actors, s.zones, n) :
      (ℕ → Option Bool) × Table Actor × Table Zone × ℕ), s.cultivations,
      (s.funds[cultivationFund]?).isSome)) (h s.props)

instance : Frames (Same grounds) where
  account _ := rests_modifyAccount
  nfa h := rests_modifyNfa fun n ↦ (h n).1
  siming := rests_modifySiming
  fund := rests_modifyFund
  props := rests_modifyProps
  newAccount _ := rfl
  newSiming := rfl
  declines := rfl

end Leaves

end Taiyi.Ledger
