import Taiyi.Ledger.Solvent
import Taiyi.Ledger.Weigh
import Taiyi.Ledger.Withdrawals

set_option autoImplicit false

namespace Taiyi.Ledger

open Library.IdMap Library.Frame Library.Meter Library.Outcome

/-- A unit is worth as much wherever it is kept, and the pools count what the objects do: QI is
worth `k`, YANG a thousand times that, and a resource its price in QI. -/
structure Weights.Fair (w : Weights) (k : ℤ) : Prop where
  yang : w.assets.yang = 1000 * k
  rewardYang : w.rewardYang = 1000 * k
  fundYang : w.fundYang = 1000 * k
  supply : w.currentSupply = 1000 * k
  qi : w.assets.qi = w.totalQi + k
  rewardQi : w.rewardQi = w.pendingRewardedQi + k
  fundQi : w.fundQi = w.pendingRewardedQi + k
  feigang : w.rewardFeigang = w.pendingRewardedFeigang + k
  cultivation : w.cultivation = w.pendingCultivationQi + k
  stock : ∀ r, w.assets.stock.get r = w.total.get r + qiPrice r * k
  nfa : w.nfa = w.assets
  material : w.material = w.assets.stock

variable {w : Weights} {k d : ℤ}

section Objects

variable {a n id : ℕ} {delta : ℤ} {symbol : Symbol}

theorem shifts_modifyFund {f : RewardFund → RewardFund} (h : ∀ r, w.fund (f r) = w.fund r + d) :
    Shifts w.weigh (modifyFund id f) d := by
  intro s _ t hr
  obtain ⟨r, hf, rfl⟩ := modifyIn_ok.mp hr
  simp only [Weights.weigh, rowSum_insert _ hf, h r]
  ring

theorem shifts_adjustNfaBalance :
    Shifts w.weigh (adjustNfaBalance n delta symbol) (w.nfa.get symbol * delta) := by
  have hwrite : Shifts w.weigh
      (modifyNfa n fun nfa ↦ { nfa with assets := nfa.assets.add delta symbol })
      (w.nfa.get symbol * delta) := by
    apply shifts_modifyNfa
    intro m
    simp only [Weights.ofNfa, Purse.dot_add]
    ring
  refine .read shifts_getNfaBalance fun _ ↦ .read shifts_require fun _ ↦ ?_
  exact .ite (fun _ ↦ .read shifts_getNfaBalance fun _ ↦ .read shifts_require fun _ ↦ hwrite)
    fun _ ↦ hwrite

theorem shifts_requireOperator {caller : ℕ} : Shifts w.weigh (requireOperator caller n) 0 :=
  .read shifts_getNfa fun _ ↦ shifts_require

/-- What is credited to or debited from the pending rewards. -/
theorem shifts_modifyRewardBalance {value share feigang : ℤ} {check : Bool} :
    Shifts w.weigh (modifyRewardBalance a value share feigang check)
      ((if share = 0 then w.rewardYang * value else 0) + w.rewardQi * share +
        w.rewardFeigang * feigang) := by
  refine .read shifts_getAccount fun _ ↦ .read shifts_require fun _ ↦ .read shifts_require fun _ ↦
    shifts_modifyAccount fun acc ↦ ?_
  simp only [Weights.account, Account.reward]
  split
  · next h =>
    rw [h]
    ring
  · ring

end Objects

section Claims

variable {a n caller : ℕ} {amount : ℤ} {r : Resource}

theorem shifts_claimRewardBalance (hw : w.Fair k) {yang qi feigang : ℤ} :
    Shifts w.weigh (claimRewardBalance a yang qi feigang) 0 := by
  have hprops : Shifts w.weigh (modifyProps fun p ↦
      { p with
        totalQi := p.totalQi + (qi + feigang)
        pendingRewardedQi := p.pendingRewardedQi - qi
        pendingRewardedFeigang := p.pendingRewardedFeigang - feigang })
      (-(w.totalQi * (qi + feigang) - w.pendingRewardedQi * qi -
        w.pendingRewardedFeigang * feigang)) := by
    apply shifts_modifyProps
    intro p
    simp only [Weights.props]
    ring
  refine .read shifts_require fun _ ↦ .read shifts_require fun _ ↦ .read shifts_getAccount fun _ ↦
    .read shifts_require fun _ ↦ .read shifts_require fun _ ↦ .read shifts_require fun _ ↦ ?_
  refine .of_eq (.bind shifts_modifyRewardBalance fun _ ↦ .bind shifts_adjustBalance fun _ ↦
    .bind shifts_modifyRewardBalance fun _ ↦ .bind shifts_adjustBalance fun _ ↦
    .bind shifts_modifyRewardBalance fun _ ↦ .bind shifts_adjustBalance fun _ ↦
    .bind shifts_adjustProxied fun _ ↦ .bind hprops fun _ ↦ shifts_adjustProxied) ?_
  simp only [Purse.get, hw.yang, hw.rewardYang, hw.qi, hw.rewardQi, hw.feigang, mul_zero, if_true,
    ite_self]
  ring

/-- The end of a conversion, which changes the QI by `dq` and the resource by `dr`. -/
def exchange (n : ℕ) (r : Resource) (dq dr : ℤ) : Call Unit := do
  adjustNfaBalance n dq .qi
  adjustNfaBalance n dr (.resource r)
  modifyProps fun p ↦ { p with totalQi := p.totalQi + dq, total := p.total.add dr r }

theorem shifts_exchange (hw : w.Fair k) {dq dr : ℤ} (h : dq = -(dr * qiPrice r)) :
    Shifts w.weigh (exchange n r dq dr) 0 := by
  have hprops : Shifts w.weigh (modifyProps fun p ↦
      { p with totalQi := p.totalQi + dq, total := p.total.add dr r })
      (-(w.totalQi * dq + w.total.get r * dr)) := by
    apply shifts_modifyProps
    intro p
    simp only [Weights.props, Stock.dot_add]
    ring
  refine .of_eq (.bind shifts_adjustNfaBalance fun _ ↦ .bind shifts_adjustNfaBalance fun _ ↦
    hprops) ?_
  simp only [hw.nfa, Purse.get, hw.qi, hw.stock, h]
  ring

theorem adjustNfaBalance_of {s : State} {m : Nfa} {delta : ℤ} {symbol : Symbol}
    (hn : s.nfas[n]? = some m) (h : 0 ≤ m.assets.get symbol + delta) :
    (adjustNfaBalance n delta symbol).run s =
      .ok ⟨⟩ { s with nfas := s.nfas.insert n { m with assets := m.assets.add delta symbol } } := by
  have hget : (getNfaBalance n symbol).run s = .ok (m.assets.get symbol) s :=
    getNfaBalance_ok.mpr ⟨⟨m, hn, rfl⟩, rfl⟩
  have hwrite :
      (modifyNfa n fun nfa ↦ { nfa with assets := nfa.assets.add delta symbol }).run s =
        .ok ⟨⟩ { s with nfas := s.nfas.insert n { m with assets := m.assets.add delta symbol } } :=
    modifyIn_ok.mpr ⟨m, hn, rfl⟩
  refine bind_ok.mpr ⟨_, s, hget, bind_ok.mpr ⟨⟨⟩, s, require_of (by omega), ?_⟩⟩
  split
  · exact bind_ok.mpr ⟨_, s, hget, bind_ok.mpr ⟨⟨⟩, s, require_of h, hwrite⟩⟩
  · exact hwrite

/-- A conversion goes through when the NFA can pay it. -/
theorem same_exchange (hw : w.Fair k) {s : State} {m : Nfa} {dq dr : ℤ} (h : dq = -(dr * qiPrice r))
    (hn : s.nfas[n]? = some m) (hq : 0 ≤ m.assets.get .qi + dq)
    (hr : 0 ≤ m.assets.get (.resource r) + dr) : Same w.weigh s (after (exchange n r dq dr) s) := by
  have hqi := adjustNfaBalance_of hn hq
  have hput : (s.nfas.insert n { m with assets := m.assets.add dq .qi })[n]? =
      some { m with assets := m.assets.add dq .qi } := by
    rw [getElem?_insert, if_pos rfl]
  have hres : (adjustNfaBalance n dr (.resource r)).run
      { s with nfas := s.nfas.insert n { m with assets := m.assets.add dq .qi } } = .ok ⟨⟩ _ :=
    adjustNfaBalance_of hput hr
  have hrun : (exchange n r dq dr).run s = .ok ⟨⟩ _ :=
    bind_ok.mpr ⟨⟨⟩, _, hqi, bind_ok.mpr ⟨⟨⟩, _, hres, rfl⟩⟩
  rw [after_ok hrun]
  exact (shifts_exchange hw h s _ _ hrun).trans (add_zero _)

theorem qiPrice_pos (r : Resource) : 0 < qiPrice r := by
  cases r <;> decide

theorem same_convertQiToResource {s : State} (hw : w.Fair k) (hs : Solvent s) :
    Same w.weigh s (after (convertQiToResource caller n amount r) s) := by
  refine Moves.read_at moves_requireOperator fun _ _ ↦ ?_
  refine Moves.read_at moves_require fun _ hpos ↦ ?_
  refine Moves.read_at moves_getNfaBalance fun v hv ↦ ?_
  refine Moves.read_at moves_require fun _ hle ↦ ?_
  refine Moves.read_at moves_timesPrice fun newResource hnew ↦ ?_
  refine Moves.read_at moves_timesPrice fun qi hqi ↦ ?_
  obtain ⟨⟨m, hm, rfl⟩, -⟩ := getNfaBalance_ok.mp hv
  obtain ⟨⟨hamount, rfl⟩, -⟩ := timesPrice_ok.mp hnew
  obtain ⟨⟨-, rfl⟩, -⟩ := timesPrice_ok.mp hqi
  have hle := (require_ok.mp hle).1
  have hres := hs.nfa n m hm (.resource r)
  have hwhole : 0 ≤ amount * 1 / qiPrice r :=
    Int.ediv_nonneg (by omega) (qiPrice_pos r).le
  have hpaid : amount * 1 / qiPrice r * qiPrice r ≤ amount * 1 :=
    Int.ediv_mul_le _ (qiPrice_pos r).ne'
  refine same_exchange hw ?_ hm ?_ ?_
  · rw [Int.ediv_one]
  · rw [Int.ediv_one]
    omega
  · omega

theorem same_convertResourceToQi {s : State} (hw : w.Fair k) (hs : Solvent s) :
    Same w.weigh s (after (convertResourceToQi caller n amount r) s) := by
  refine Moves.read_at moves_requireOperator fun _ _ ↦ ?_
  refine Moves.read_at moves_require fun _ hpos ↦ ?_
  refine Moves.read_at moves_getNfaBalance fun v hv ↦ ?_
  refine Moves.read_at moves_require fun _ hle ↦ ?_
  refine Moves.read_at moves_timesPrice fun newQi hnew ↦ ?_
  obtain ⟨⟨m, hm, rfl⟩, -⟩ := getNfaBalance_ok.mp hv
  obtain ⟨⟨hamount, rfl⟩, -⟩ := timesPrice_ok.mp hnew
  have hle := (require_ok.mp hle).1
  have hqi := hs.nfa n m hm .qi
  have hworth : 0 ≤ amount * qiPrice r := Int.mul_nonneg hamount (qiPrice_pos r).le
  refine same_exchange hw ?_ hm ?_ ?_
  · rw [Int.ediv_one, Int.neg_mul, Int.neg_neg]
  · rw [Int.ediv_one]
    omega
  · omega

end Claims

section Funds

variable {s t : State} {y q usedYang usedQi reward : ℤ} {l : List (ℕ × RewardFund)} {used : ℤ × ℤ}

/-- The funds are credited what the loop reports as used. -/
theorem weigh_payRewardFunds (hw : w.Fair k)
    (h : (payRewardFunds y q l usedYang usedQi).run s = .ok used t) :
    w.weigh t = w.weigh s + 1000 * k * (used.1 - usedYang + (used.2 - usedQi)) := by
  induction l generalizing s usedYang usedQi with
  | nil =>
    cases h
    ring
  | cons r l ih =>
    obtain ⟨id, f⟩ := r
    obtain ⟨rewardQi, s₀, hprice, h₁⟩ := bind_ok.mp h
    obtain ⟨⟨-, rfl⟩, rfl⟩ := yangToQi_ok.mp hprice
    obtain ⟨_, s₁, hfund, h₂⟩ := bind_ok.mp h₁
    obtain ⟨_, s₂, hprops, h₃⟩ := bind_ok.mp h₂
    have h₄ := (after_require (after_require h₃).2).2
    rw [ih h₄]
    generalize max ((y * f.percentContentRewards).tdiv taiyi100Percent) minRewardFund = ryang at *
    generalize max ((q * f.percentContentRewards).tdiv taiyi100Percent) minRewardFund = rqi at *
    have hcredit : w.weigh s₁ = w.weigh s₀ + (w.fundYang * ryang + w.fundQi * (1000 * rqi)) :=
      shifts_modifyFund (fun f ↦ by simp only [Weights.fund]; ring) s₀ _ s₁ hfund
    have hpool : w.weigh s₂ = w.weigh s₁ + -(w.pendingRewardedQi * (1000 * rqi)) :=
      shifts_modifyProps (fun p ↦ by simp only [Weights.props]; ring) s₁ _ s₂ hprops
    rw [hpool, hcredit, hw.fundYang, hw.fundQi]
    ring

theorem shifts_paySiming (hw : w.Fair k) : Shifts w.weigh (paySiming reward) (1000 * k * reward) := by
  refine .read .get fun s ↦ .read shifts_getSiming fun _ ↦ .read shifts_getAccount fun acc ↦ .ite
    (fun _ ↦ .of_eq shifts_createQi ?_) fun _ ↦ ?_
  · rw [hw.qi]
    ring
  · have hcredit : Shifts w.weigh (modifyAccount s.props.currentSiming fun acc ↦
        { acc with assets := acc.assets.add reward .yang }) (1000 * k * reward) := by
      apply shifts_modifyAccount
      intro acc
      simp only [Weights.account, Purse.dot_add, Purse.get, hw.yang]
      ring
    exact .of_eq (.bind hcredit fun _ ↦ shifts_timesPrice) (add_zero _)

theorem shifts_processFunds (hw : w.Fair k) : Shifts w.weigh processFunds 0 := by
  intro s u t h
  obtain ⟨used, s₁, hpay, h₁⟩ := bind_ok.mp (after_get h)
  obtain ⟨lastReward, s₂, hsiming, h₂⟩ := bind_ok.mp h₁
  have hfunds := weigh_payRewardFunds hw hpay
  have hreward := shifts_paySiming hw s₁ _ s₂ hsiming
  generalize max (_ - used.1 - used.2) minRewardFund = reward at *
  have hsupply : w.weigh t = w.weigh s₂ + -(w.currentSupply * (used.1 + used.2 + reward)) :=
    shifts_modifyProps (fun p ↦ by simp only [Weights.props]; ring) s₂ _ t h₂
  rw [hsupply, hreward, hfunds, hw.supply]
  ring

end Funds

section Withdrawals

variable {s t : State} {u : Unit} {a b n : ℕ} {due : ℤ} {r : ℕ × Route} {current : Option ℕ}

/-- The QI that a turn takes out of the supply: what is below a whole YANG in each part that is
converted. -/
def lost (turn : ℕ × State) : ℤ :=
  let acc := turn.2.account turn.1
  let due := acc.dueAmount
  (acc.yangRoutes.map fun r ↦ r.2.part due % 1000).sum +
    (due - parts acc.yangRoutes due - parts acc.vestRoutes due) % 1000

theorem shifts_vestPart (h : 0 ≤ r.2.part due) :
    Shifts w.weigh (vestPart due r) (w.assets.qi * r.2.part due) := by
  have hcredit : Shifts w.weigh
      (modifyAccount r.1 fun a ↦ { a with assets := a.assets.add (r.2.part due) .qi })
      (w.assets.qi * r.2.part due) := by
    apply shifts_modifyAccount
    intro acc
    simp only [Weights.account, Purse.dot_add, Purse.get]
    ring
  refine .ite (fun _ ↦ .of_eq (.bind hcredit fun _ ↦ shifts_adjustProxied) (add_zero _)) fun hnot ↦ ?_
  have hzero : r.2.part due = 0 := by omega
  exact .of_eq (.pure _) (by rw [hzero, mul_zero])

/-- A part that is converted is worth what is whole of it. -/
theorem shifts_convertPart (hw : w.Fair k) (h : 0 ≤ r.2.part due) :
    Shifts w.weigh (convertPart due r) (w.assets.qi * r.2.part due + -k * (r.2.part due % 1000)) := by
  refine .read shifts_getAccount fun _ ↦ .bind_of fun s yang t hyang ↦ ?_
  obtain ⟨⟨-, rfl⟩, rfl⟩ := qiToYang_ok.mp hyang
  refine ⟨rfl, ?_⟩
  have hcredit : Shifts w.weigh
      (modifyAccount r.1 fun a ↦ { a with assets := a.assets.add (r.2.part due / 1000) .yang })
      (w.assets.yang * (r.2.part due / 1000)) := by
    apply shifts_modifyAccount
    intro acc
    simp only [Weights.account, Purse.dot_add, Purse.get]
    ring
  have hprops : Shifts w.weigh (modifyProps fun p ↦ { p with totalQi := p.totalQi - r.2.part due })
      (-(-(w.totalQi * r.2.part due))) := by
    apply shifts_modifyProps
    intro p
    simp only [Weights.props]
    ring
  refine .ite (fun _ ↦ .of_eq (.bind hcredit fun _ ↦ hprops) ?_) fun hnot ↦ ?_
  · have hdiv : 1000 * (r.2.part due / 1000) = r.2.part due - r.2.part due % 1000 := by omega
    rw [hw.yang, hw.qi, mul_right_comm, hdiv]
    ring
  · have hzero : r.2.part due = 0 := by omega
    exact .of_eq (.pure _) (by rw [hzero]; simp)

/-- The own part of a turn. -/
theorem weigh_settleTurn (hw : w.Fair k) {acc : Account}
    (h : (settleTurnWith adjustProxiedSimingAdores b acc).run s = .ok u t) {rest : ℤ}
    (hrest : acc.dueAmount - parts acc.yangRoutes acc.dueAmount -
      parts acc.vestRoutes acc.dueAmount = rest) :
    w.weigh t = w.weigh s + (w.assets.qi * (rest - acc.dueAmount) - k * (rest % 1000)) := by
  unfold settleTurnWith at h
  dsimp only at h
  rw [hrest] at h
  obtain ⟨-, h₁⟩ := after_require h
  obtain ⟨yang, s₁, hprice, h₂⟩ := bind_ok.mp h₁
  obtain ⟨⟨-, rfl⟩, rfl⟩ := qiToYang_ok.mp hprice
  have hdebit : Shifts w.weigh
      (modifyAccount b fun a ↦ a.afterWithdrawal acc.dueAmount (rest / 1000))
      (w.assets.yang * (rest / 1000) - w.assets.qi * acc.dueAmount) := by
    apply shifts_modifyAccount
    intro a
    simp only [Weights.account, Account.afterWithdrawal, Purse.dot_add, Purse.get]
    ring
  have hprops : Shifts w.weigh (modifyProps fun p ↦ { p with totalQi := p.totalQi - rest })
      (-(-(w.totalQi * rest))) := by
    apply shifts_modifyProps
    intro p
    simp only [Weights.props]
    ring
  have hlast : Shifts w.weigh
      (if 0 < acc.dueAmount then adjustProxiedSimingAdores b (-acc.dueAmount) else pure ()) 0 :=
    .ite (fun _ ↦ shifts_adjustProxied) fun _ ↦ .pure _
  have hdiv : 1000 * (rest / 1000) = rest - rest % 1000 := by omega
  rw [(Shifts.bind hdebit fun _ ↦ .bind hprops fun _ ↦ hlast) s₁ u t h₂, hw.yang, hw.qi,
    mul_right_comm, hdiv]
  ring

theorem weigh_withdrawTurn (hw : w.Fair k) (hdue : 0 ≤ (s.account b).dueAmount)
    (h : (withdrawTurn b).run s = .ok u t) : w.weigh t = w.weigh s - k * lost (b, s) := by
  rw [← withdrawTurnWith_eq] at h
  obtain ⟨acc, s₀, hacc, h₀⟩ := bind_ok.mp h
  obtain ⟨rfl, rfl⟩ := account_of_getAccount hacc
  obtain ⟨_, s₁, hvest, h₁⟩ := bind_ok.mp h₀
  obtain ⟨_, s₂, hyang, h₂⟩ := bind_ok.mp h₁
  rw [weigh_settleTurn hw h₂ rfl,
    Shifts.forM (fun r _ ↦ shifts_convertPart hw (part_nonneg hdue)) s₁ _ s₂ hyang,
    Shifts.forM (fun r _ ↦ shifts_vestPart (part_nonneg hdue)) s₀ _ s₁ hvest,
    List.sum_map_add, List.sum_map_mul_left, List.sum_map_mul_left, List.sum_map_mul_left]
  simp only [lost, parts]
  ring

theorem weigh_withdrawFrom (hw : w.Fair k) (hs : Solvent s)
    (h : (withdrawFrom n current).run s = .ok u t) :
    w.weigh t = w.weigh s - k * ((turnsFrom n current s).map lost).sum := by
  induction n generalizing s current with
  | zero => cases current <;> cases h
  | succ n ih =>
    cases current with
    | none =>
      cases h
      simp [turnsFrom]
    | some b =>
      obtain ⟨acc, s₀, hacc, hrest⟩ := bind_ok.mp h
      obtain ⟨rfl, rfl⟩ := account_of_getAccount hacc
      replace hrest := after_get hrest
      rw [turnsFrom]
      split at hrest
      · next hdue =>
        obtain ⟨_, s₁, hturn, hrest₁⟩ := bind_ok.mp hrest
        have hturned := weigh_withdrawTurn hw (hs.at b).dueAmount.1 hturn
        have hs₁ : Solvent s₁ := solvent_withdrawTurn.ends hturn hs
        rw [if_pos hdue, List.map_cons, List.sum_cons, after_ok hturn, ih hs₁ hrest₁, hturned]
        ring
      · next hnot =>
        cases hrest
        rw [if_neg hnot]
        simp

end Withdrawals

section Equation

variable {s t : State} {hash : ℕ → ℕ} {act : Action}

/-- The YANG that accounts, NFAs and reward funds hold. -/
def allYang (s : State) : ℤ :=
  rowSum (fun _ a ↦ a.assets.yang + a.rewardYang) s.accounts +
    rowSum (fun _ n ↦ n.assets.yang) s.nfas + rowSum (fun _ f ↦ f.rewardBalance) s.funds

/-- All QI, with the resources at their prices. -/
def allQi (s : State) : ℤ :=
  rowSum (fun _ a ↦ a.assets.qi + materialQi a.assets.stock + a.rewardQi + a.rewardFeigang) s.accounts +
    rowSum (fun _ n ↦ n.assets.qi + materialQi n.assets.stock + materialQi n.material +
      n.cultivationValue) s.nfas +
    rowSum (fun _ f ↦ f.rewardQiBalance) s.funds

/-- The supply as `validate_invariants` counts it, where the QI is rounded once. -/
def Supplied (s : State) : Prop := s.props.currentSupply = allYang s + allQi s / 1000

instance : Decidable (Supplied s) := inferInstanceAs (Decidable (_ = _))

def prices : Stock where
  gold := qiPrice .gold
  food := qiPrice .food
  wood := qiPrice .wood
  fabric := qiPrice .fabric
  herb := qiPrice .herb

/-- What all is worth in QI against what the supply is worth. -/
def gauge : Weights where
  assets := ⟨1000, 1, prices⟩
  rewardYang := 1000
  rewardQi := 1
  rewardFeigang := 1
  nfa := ⟨1000, 1, prices⟩
  material := prices
  cultivation := 1
  fundYang := 1000
  fundQi := 1
  currentSupply := 1000

theorem fair_gauge : gauge.Fair 1 where
  yang := rfl
  rewardYang := rfl
  fundYang := rfl
  supply := rfl
  qi := rfl
  rewardQi := rfl
  fundQi := rfl
  feigang := rfl
  cultivation := rfl
  stock r := by cases r <;> rfl
  nfa := rfl
  material := rfl

theorem dot_prices (m : Stock) : prices.dot m = materialQi m := by
  simp only [Stock.dot, prices, materialQi]
  ring

theorem weigh_gauge (s : State) :
    gauge.weigh s = 1000 * allYang s + allQi s - 1000 * s.props.currentSupply := by
  have ha : ∀ a : Account, gauge.account a = 1000 * (a.assets.yang + a.rewardYang) +
      (a.assets.qi + materialQi a.assets.stock + a.rewardQi + a.rewardFeigang) := by
    intro a
    simp only [Weights.account, gauge, Purse.dot, dot_prices]
    ring
  have hn : ∀ n : Nfa, gauge.ofNfa n = 1000 * n.assets.yang +
      (n.assets.qi + materialQi n.assets.stock + materialQi n.material + n.cultivationValue) := by
    intro n
    simp only [Weights.ofNfa, gauge, Purse.dot, dot_prices]
    ring
  have hf : ∀ f : RewardFund, gauge.fund f = 1000 * f.rewardBalance + f.rewardQiBalance := by
    intro f
    simp only [Weights.fund, gauge]
    ring
  have hp : gauge.props s.props = 1000 * s.props.currentSupply := by
    simp [Weights.props, gauge, Stock.dot]
  simp only [Weights.weigh, ha, hn, hf, hp, rowSum_add, rowSum_mul, allYang, allQi]
  ring

/-- The supply is right when what it leaves of all QI is less than a YANG. -/
theorem supplied_iff_weigh : Supplied s ↔ 0 ≤ gauge.weigh s ∧ gauge.weigh s < 1000 := by
  rw [weigh_gauge, Supplied]
  omega

theorem weigh_of_supplied (h : Supplied s) : gauge.weigh s = allQi s % 1000 := by
  rw [weigh_gauge]
  rw [Supplied] at h
  omega

theorem lost_nonneg (turn : ℕ × State) : 0 ≤ lost turn := by
  unfold lost
  dsimp only
  refine Int.add_nonneg (List.sum_nonneg fun x hx ↦ ?_) (Int.emod_nonneg _ (by decide))
  obtain ⟨r, -, rfl⟩ := List.mem_map.mp hx
  exact Int.emod_nonneg _ (by decide)

/-- The payments of the funds, the withdrawals, the claims and the conversions of resources. -/
inductive Action.Converts : Action → Prop
  | processFunds : Converts (.routine .processFunds)
  | processQiWithdrawals : Converts (.routine .processQiWithdrawals)
  | claimRewardBalance (a : ℕ) (yang qi feigang : ℤ) :
    Converts (.operation (.claimRewardBalance a yang qi feigang))
  | convertQiToResource (caller nfa : ℕ) (amount : ℤ) (r : Resource) :
    Converts (.contract (.convertQiToResource caller nfa amount r))
  | convertResourceToQi (caller nfa : ℕ) (amount : ℤ) (r : Resource) :
    Converts (.contract (.convertResourceToQi caller nfa amount r))

/-- Of all these only the withdrawals change how much the supply leaves of all QI. -/
theorem weigh_converts (hs : Solvent s) (hc : act.Converts) (h : act.step hash s = some t) :
    act ≠ .routine .processQiWithdrawals ∧ gauge.weigh t = gauge.weigh s ∨
      act = .routine .processQiWithdrawals ∧
        gauge.weigh t = gauge.weigh s - ((turns s).map lost).sum := by
  have ht := after_of_step h
  cases hc with
  | processFunds =>
    exact .inl ⟨by simp, (shifts_processFunds fair_gauge s _ t ht).trans (add_zero _)⟩
  | processQiWithdrawals =>
    refine .inr ⟨rfl, ?_⟩
    rw [weigh_withdrawFrom fair_gauge hs (after_get ht), one_mul]
    rfl
  | claimRewardBalance =>
    exact .inl ⟨by simp, (shifts_claimRewardBalance fair_gauge s _ t ht).trans (add_zero _)⟩
  | convertQiToResource =>
    exact .inl ⟨by simp, ht ▸ same_convertQiToResource fair_gauge hs⟩
  | convertResourceToQi =>
    exact .inl ⟨by simp, ht ▸ same_convertResourceToQi fair_gauge hs⟩

/-- The payments, claims and conversions preserve the equation of the supply, and the withdrawals
do exactly when what they lose is no more than what the equation rounds off. -/
theorem supplied_iff {initSupply initQiSupply : ℕ}
    (h : Reaches hash (fun _ _ ↦ True) (genesis initSupply initQiSupply) s) (hs : Supplied s)
    (hc : act.Converts) (hstep : act.step hash s = some t) :
    Supplied t ↔
      (act = .routine .processQiWithdrawals → ((turns s).map lost).sum ≤ allQi s % 1000) := by
  have hlost : 0 ≤ ((turns s).map lost).sum := List.sum_nonneg fun x hx ↦ by
    obtain ⟨turn, -, rfl⟩ := List.mem_map.mp hx
    exact lost_nonneg turn
  have hweigh := weigh_of_supplied hs
  rw [supplied_iff_weigh]
  rcases weigh_converts (solvent_of_reaches h) hc hstep with ⟨hne, ht⟩ | ⟨rfl, ht⟩
  · exact ⟨fun _ he ↦ absurd he hne, fun _ ↦ by omega⟩
  · rw [ht]
    exact ⟨fun hb _ ↦ by omega, fun hle ↦ by have := hle rfl; omega⟩

end Equation

section Example

/-- A withdrawal of this much QI, when its first instalment is due. -/
def withdrawing (qi : ℤ) : List Action :=
  [.operation (.withdrawQi initSiming qi), .outside (.headBlock 201600 1763445600 initSiming 0)]

theorem supplied_iff_wholeYang :
    ∃ s t, Reaches (fun _ ↦ 0) (fun _ _ ↦ True) (genesis 0 100000) s ∧
      (Action.routine .processQiWithdrawals).step (fun _ ↦ 0) s = some t ∧ Supplied t := by
  have h : ((runActions (fun _ ↦ 0) (genesis 0 100000) (withdrawing 8000)).any fun s ↦
      decide (Supplied s) && succeeds processQiWithdrawals s &&
        decide (((turns s).map lost).sum ≤ allQi s % 1000)) = true := by
    decide +kernel
  obtain ⟨s, hs, h⟩ := (Option.any_eq_true ..).mp h
  obtain ⟨h, hle⟩ := Bool.and_eq_true_iff.mp h
  obtain ⟨hsup, hok⟩ := Bool.and_eq_true_iff.mp h
  obtain ⟨u, t, ht⟩ := ok_of_succeeds hok
  have hstep : (Action.routine .processQiWithdrawals).step (fun _ ↦ 0) s = some t := by
    simp only [Action.step, Routine.apply, ht]
  have hreach := reaches_of_runActions hs
  exact ⟨s, t, hreach, hstep, (supplied_iff hreach (of_decide_eq_true hsup) .processQiWithdrawals
    hstep).mpr fun _ ↦ of_decide_eq_true hle⟩

/-- An instalment of 125 QI is paid with no YANG. -/
theorem withdrawal_loses_qi :
    ∃ s t, Reaches (fun _ ↦ 0) (fun _ _ ↦ True) (genesis 0 100000) s ∧ Supplied s ∧
      (Action.routine .processQiWithdrawals).step (fun _ ↦ 0) s = some t ∧ ¬Supplied t := by
  have h : ((runActions (fun _ ↦ 0) (genesis 0 100000) (withdrawing 500)).any fun s ↦
      decide (Supplied s) && succeeds processQiWithdrawals s &&
        decide (¬Supplied (after processQiWithdrawals s))) = true := by
    decide +kernel
  obtain ⟨s, hs, h⟩ := (Option.any_eq_true ..).mp h
  obtain ⟨h, hnot⟩ := Bool.and_eq_true_iff.mp h
  obtain ⟨hsup, hok⟩ := Bool.and_eq_true_iff.mp h
  obtain ⟨u, t, ht⟩ := ok_of_succeeds hok
  rw [after_ok ht] at hnot
  refine ⟨s, t, reaches_of_runActions hs, of_decide_eq_true hsup, ?_, of_decide_eq_true hnot⟩
  simp only [Action.step, Routine.apply, ht]

end Example

end Taiyi.Ledger
