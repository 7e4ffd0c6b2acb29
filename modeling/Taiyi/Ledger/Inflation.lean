import Mathlib.Tactic.Linarith
import Taiyi.Ledger.Routines
import Taiyi.Ledger.ShareType

set_option autoImplicit false

namespace Taiyi.Ledger.ShareType

open Library.IdMap Library.Meter Library.Outcome Library.Wp Checked

/-- The loop of `pay_reward_funds` on `share_type`. -/
def payRewardFunds (rewardYang rewardQiFund : ℤ) : List (ℕ × RewardFund) → ℤ → ℤ → Call (ℤ × ℤ)
  | [], usedYang, usedQiFund => pure (usedYang, usedQiFund)
  | (id, fund) :: rest, usedYang, usedQiFund => do
    let ryang :=
      max ((← share (rewardYang * fund.percentContentRewards)).tdiv taiyi100Percent) minRewardFund
    let rqiyang :=
      max ((← share (rewardQiFund * fund.percentContentRewards)).tdiv taiyi100Percent) minRewardFund
    let rewardQi ← share (← yangToQi rqiyang)
    let _ ← share (fund.rewardBalance + ryang)
    let _ ← share (fund.rewardQiBalance + rewardQi)
    modifyFund id fun f ↦
      { f with
        rewardBalance := f.rewardBalance + ryang
        rewardQiBalance := f.rewardQiBalance + rewardQi }
    let _ ← share ((← get).props.pendingRewardedQi + rewardQi)
    modifyProps fun p ↦ { p with pendingRewardedQi := p.pendingRewardedQi + rewardQi }
    let usedYang ← share (usedYang + ryang)
    let usedQiFund ← share (usedQiFund + rqiyang)
    require (usedYang ≤ rewardYang) "used_rewards_yang <= reward_yang"
    require (usedQiFund ≤ rewardQiFund) "used_rewards_qi_fund <= reward_qi_fund"
    payRewardFunds rewardYang rewardQiFund rest usedYang usedQiFund

/-- The reward of the current siming, in QI once the adoring has started. -/
def paySiming (reward : ℤ) : Call ℤ := do
  let s ← get
  let owner := s.props.currentSiming
  let _ ← getSiming owner
  let acc ← getAccount owner
  if startAdoringBlock ≤ s.props.headBlockNumber ∨ acc.assets.qi = 0 then
    createQi owner reward
  else
    let _ ← share (acc.assets.yang + reward)
    modifyAccount owner fun acc ↦ { acc with assets := acc.assets.add reward .yang }
    share (← yangToQi reward)

def processFunds : Call Unit := do
  let s ← get
  let props := s.props
  let yearly ← share (props.currentSupply * inflationRate props.headBlockNumber)
  let newYang := yearly.tdiv (taiyi100Percent * blocksPerYear)
  let contentYang :=
    max ((← share (newYang * props.contentRewardYangPercent)).tdiv taiyi100Percent) minRewardFund
  let contentQiFund :=
    max ((← share (newYang * props.contentRewardQiFundPercent)).tdiv taiyi100Percent) minRewardFund
  let used ← payRewardFunds contentYang contentQiFund s.funds.toList 0 0
  let simingReward := max (← share ((← share (newYang - used.1)) - used.2)) minRewardFund
  let created ← share ((← share (used.1 + used.2)) + simingReward)
  let lastReward ← paySiming simingReward
  let _ ← share ((← get).props.currentSupply + created)
  modifyProps fun p ↦
    { p with
      currentSupply := p.currentSupply + created
      lastSimingProductionReward := lastReward }

section Refinement

theorem refines_payRewardFunds (y q : ℤ) (l : List (ℕ × RewardFund)) (u v : ℤ) :
    Refines (payRewardFunds y q l u v) (Ledger.payRewardFunds y q l u v) := by
  induction l generalizing u v with
  | nil => exact .refl _
  | cons r l ih =>
    refine refines_check <| refines_check <| .bind (.refl _) fun qi ↦ refines_check <|
      refines_check <| refines_check <| .bind (.refl _) fun _ ↦ .drop (fun _ _ _ h ↦ by cases h; rfl)
      fun _ ↦ refines_check <| .bind (.refl _) fun _ ↦ refines_check <| refines_check <|
      .bind (.refl _) fun _ ↦ .bind (.refl _) fun _ ↦ ih _ _

theorem refines_paySiming (reward : ℤ) : Refines (paySiming reward) (Ledger.paySiming reward) :=
  .bind (.refl _) fun _ ↦ .bind (.refl _) fun _ ↦ .bind (.refl _) fun _ ↦ .ite
    (refines_createQi _ _) <| refines_check <| .bind (.refl _) fun _ ↦ refines_checked

/-- With no overflow the payout is the one of unbounded amounts. -/
theorem refines_processFunds : Refines processFunds Ledger.processFunds :=
  .bind (.refl _) fun _ ↦ refines_check <| refines_check <| refines_check <|
    .bind (refines_payRewardFunds _ _ _ _ _) fun _ ↦ refines_check <| refines_check <|
    refines_check <| refines_check <| .bind (refines_paySiming _) fun _ ↦
    .drop (fun _ _ _ h ↦ by cases h; rfl) fun _ ↦ refines_check (.refl _)

end Refinement

/-- The YANG that a block creates before any minimum. -/
def newYang (p : Props) : ℤ :=
  (p.currentSupply * inflationRate p.headBlockNumber).tdiv (taiyi100Percent * blocksPerYear)

/-- A percentage of a reward, and the minimum at least. -/
def partOf (reward : ℤ) (percent : ℕ) : ℤ :=
  max ((reward * percent).tdiv taiyi100Percent) minRewardFund

def contentYang (p : Props) : ℤ := partOf (newYang p) p.contentRewardYangPercent

def contentQiFund (p : Props) : ℤ := partOf (newYang p) p.contentRewardQiFundPercent

/-- What the funds take of a reward together. -/
def taken (reward : ℤ) (funds : List (ℕ × RewardFund)) : ℤ :=
  (funds.map fun r ↦ partOf reward r.2.percentContentRewards).sum

section Bounds

variable {r b : ℤ} {percent : ℕ}

theorem max_part : max ((r * percent).tdiv taiyi100Percent) minRewardFund = partOf r percent := rfl

theorem partOf_ge (r : ℤ) (percent : ℕ) : 1000 ≤ partOf r percent := le_max_right _ _

theorem mul_percent_bounds (hb : -b ≤ r ∧ r ≤ b) (hp : percent < 2 ^ 16) :
    -(65535 * b) ≤ r * percent ∧ r * percent ≤ 65535 * b := by
  have h0 : (0 : ℤ) ≤ percent := Int.natCast_nonneg _
  have h1 : (percent : ℤ) ≤ 65535 := by omega
  constructor
  · nlinarith
  · nlinarith

/-- A quotient that is truncated is off by less than one. -/
theorem tdiv_bounds (x : ℤ) {k : ℤ} (hk : 0 < k) : x - k < k * x.tdiv k ∧ k * x.tdiv k < x + k := by
  have h := Int.mul_tdiv_add_tmod x k
  have h1 := Int.tmod_lt_of_pos x hk
  have h2 := Int.lt_tmod_of_pos x hk
  omega

theorem partOf_le (hb : -b ≤ r ∧ r ≤ b) (hp : percent < 2 ^ 16) :
    partOf r percent ≤ max (7 * b) 1000 := by
  have h := mul_percent_bounds hb hp
  have hd := tdiv_bounds (r * percent) (k := taiyi100Percent) (by decide)
  refine max_le_max ?_ (le_refl _)
  unfold taiyi100Percent at *
  omega

theorem fits_of_bounds (hb : -b ≤ r ∧ r ≤ b) (h : b < 2 ^ 63) : Fits r := by
  unfold Fits
  omega

theorem newYang_eq {p : Props} :
    (p.currentSupply * inflationRate p.headBlockNumber).tdiv (taiyi100Percent * blocksPerYear) =
      newYang p := rfl

theorem newYang_bounds {p : Props} (h : Fits (p.currentSupply * inflationRate p.headBlockNumber)) :
    -2 ^ 27 ≤ newYang p ∧ newYang p ≤ 2 ^ 27 := by
  have hd := tdiv_bounds (p.currentSupply * inflationRate p.headBlockNumber)
    (k := taiyi100Percent * blocksPerYear) (by decide)
  unfold newYang Fits taiyi100Percent blocksPerYear at *
  omega

theorem taken_nonneg (l : List (ℕ × RewardFund)) : 0 ≤ taken r l := by
  apply List.sum_nonneg
  intro x hx
  obtain ⟨f, -, rfl⟩ := List.mem_map.mp hx
  exact le_trans (by decide) (partOf_ge _ _)

end Bounds

section Loop

variable {y q : ℤ} {s : State}

def creditFund (y q : ℤ) (s : State) (r : ℕ × RewardFund) : State :=
  { s with
    funds := s.funds.insert r.1
      { r.2 with
        rewardBalance := r.2.rewardBalance + partOf y r.2.percentContentRewards
        rewardQiBalance := r.2.rewardQiBalance + 1000 * partOf q r.2.percentContentRewards }
    props :=
      { s.props with
        pendingRewardedQi :=
          s.props.pendingRewardedQi + 1000 * partOf q r.2.percentContentRewards } }

/-- What a fund gets fits into its balances. -/
def Absorbs (y q : ℤ) (f : RewardFund) : Prop :=
  Fits (f.rewardBalance + partOf y f.percentContentRewards) ∧
    Fits (f.rewardQiBalance + 1000 * partOf q f.percentContentRewards)

theorem wp_payFund {id : ℕ} {f : RewardFund} {rest : List (ℕ × RewardFund)} {u v : ℤ}
    {Q : ℤ × ℤ → State → Prop} (hy : -2 ^ 30 ≤ y ∧ y ≤ 2 ^ 30) (hq : -2 ^ 30 ≤ q ∧ q ≤ 2 ^ 30)
    (hf : s.funds[id]? = some f) (hp : f.percentContentRewards < 2 ^ 16)
    (hu : 0 ≤ u ∧ u ≤ y) (hv : 0 ≤ v ∧ v ≤ q) :
    wp (payRewardFunds y q ((id, f) :: rest) u v) Q s ↔
      Absorbs y q f ∧
        Fits (s.props.pendingRewardedQi + 1000 * partOf q f.percentContentRewards) ∧
        u + partOf y f.percentContentRewards ≤ y ∧ v + partOf q f.percentContentRewards ≤ q ∧
        wp (payRewardFunds y q rest (u + partOf y f.percentContentRewards)
          (v + partOf q f.percentContentRewards)) Q (creditFund y q s (id, f)) := by
  have hy' := partOf_le hy hp
  have hq' := partOf_le hq hp
  have hyl := partOf_ge y f.percentContentRewards
  have hql := partOf_ge q f.percentContentRewards
  have hym : Fits (y * f.percentContentRewards) :=
    fits_of_bounds (mul_percent_bounds hy hp) (by norm_num)
  have hqm : Fits (q * f.percentContentRewards) :=
    fits_of_bounds (mul_percent_bounds hq hp) (by norm_num)
  simp only [payRewardFunds, wp_bind, wp_check, wp_yangToQi, modifyFund, wp_modifyIn, wp_get,
    wp_modifyProps, wp_require, max_part]
  have hfits : ∀ x : ℤ, 0 ≤ x ∧ x ≤ 2 ^ 50 → Fits x := fun x hx ↦
    fits_of_bounds (b := 2 ^ 50) (by omega) (by norm_num)
  norm_num at hy' hq'
  constructor
  · rintro ⟨-, -, -, -, hb, hqb, f', hf', hpend, -, -, hle, hle', hr⟩
    rw [hf] at hf'
    cases hf'
    exact ⟨⟨hb, hqb⟩, hpend, hle, hle', hr⟩
  · rintro ⟨⟨hb, hqb⟩, hpend, hle, hle', hr⟩
    exact ⟨hym, hqm, by omega, hfits _ (by omega), hb, hqb, f, hf, hpend, hfits _ (by omega),
      hfits _ (by omega), hle, hle', hr⟩

theorem creditFund_fits {r : ℕ × RewardFund} (hp : Fits s.props.pendingRewardedQi)
    {l : List (ℕ × RewardFund)} (h : Fits (s.props.pendingRewardedQi + 1000 * taken q (r :: l))) :
    Fits (creditFund y q s r).props.pendingRewardedQi := by
  have h0 := taken_nonneg (r := q) l
  have h1 := partOf_ge q r.2.percentContentRewards
  simp only [taken, List.map_cons, List.sum_cons, creditFund, Fits] at *
  omega

/-- The funds are paid when each can take its part and the parts are within the reward. -/
theorem wp_payRewardFunds {l : List (ℕ × RewardFund)} {u v : ℤ} {Q : ℤ × ℤ → State → Prop}
    (hy : -2 ^ 30 ≤ y ∧ y ≤ 2 ^ 30) (hq : -2 ^ 30 ≤ q ∧ q ≤ 2 ^ 30)
    (hl : l.Pairwise fun r r' ↦ r.1 < r'.1)
    (hf : ∀ r ∈ l, s.funds[r.1]? = some r.2 ∧ r.2.percentContentRewards < 2 ^ 16)
    (hu : 0 ≤ u ∧ u ≤ y) (hv : 0 ≤ v ∧ v ≤ q) (hp : Fits s.props.pendingRewardedQi) :
    wp (payRewardFunds y q l u v) Q s ↔
      (∀ r ∈ l, Absorbs y q r.2) ∧ Fits (s.props.pendingRewardedQi + 1000 * taken q l) ∧
        u + taken y l ≤ y ∧ v + taken q l ≤ q ∧
        Q (u + taken y l, v + taken q l) (l.foldl (creditFund y q) s) := by
  induction l generalizing s u v with
  | nil =>
    simp only [payRewardFunds, wp_pure, taken, List.map_nil, List.sum_nil, List.foldl_nil,
      Int.mul_zero, Int.add_zero]
    exact ⟨fun h ↦ ⟨fun _ hr ↦ absurd hr List.not_mem_nil, hp, hu.2, hv.2, h⟩, fun h ↦ h.2.2.2.2⟩
  | cons r l ih =>
    obtain ⟨id, f⟩ := r
    rw [List.pairwise_cons] at hl
    have hrest := fun r hr ↦ hf r (List.mem_cons_of_mem _ hr)
    have hid : s.funds[id]? = some f := (hf _ List.mem_cons_self).1
    have hpercent : f.percentContentRewards < 2 ^ 16 := (hf _ List.mem_cons_self).2
    have hy0 := taken_nonneg (r := y) l
    have hq0 := taken_nonneg (r := q) l
    have hyl := partOf_ge y f.percentContentRewards
    have hql := partOf_ge q f.percentContentRewards
    have hkept : ∀ r ∈ l, (creditFund y q s (id, f)).funds[r.1]? = some r.2 ∧
        r.2.percentContentRewards < 2 ^ 16 := by
      intro r hr
      refine ⟨?_, (hrest r hr).2⟩
      rw [creditFund, getElem?_insert, if_neg (Nat.ne_of_lt (hl.1 r hr)), (hrest r hr).1]
    have hsum : ∀ x, taken x ((id, f) :: l) = partOf x f.percentContentRewards + taken x l :=
      fun _ ↦ rfl
    rw [wp_payFund hy hq hid hpercent hu hv, List.forall_mem_cons]
    constructor
    · rintro ⟨ha, hpend, hle, hle', hr⟩
      rw [ih hl.2 hkept ⟨by omega, hle⟩ ⟨by omega, hle'⟩ hpend] at hr
      obtain ⟨hall, hpend', hyle, hqle, hend⟩ := hr
      simp only [creditFund, hsum, Int.mul_add, Int.add_assoc] at *
      exact ⟨⟨ha, hall⟩, hpend', hyle, hqle, hend⟩
    · rintro ⟨⟨ha, hall⟩, hpend, hyle, hqle, hend⟩
      have hpend' := creditFund_fits (y := y) hp hpend
      rw [hsum] at hyle hqle
      rw [ih hl.2 hkept ⟨by omega, by omega⟩ ⟨by omega, by omega⟩ hpend']
      simp only [hsum, Int.mul_add, ← Int.add_assoc] at *
      exact ⟨ha, hpend', by omega, by omega, hall, hpend, hyle, hqle, hend⟩

theorem foldl_creditFund (l : List (ℕ × RewardFund)) :
    ∃ funds pending, l.foldl (creditFund y q) s =
      { s with funds := funds, props := { s.props with pendingRewardedQi := pending } } := by
  induction l generalizing s with
  | nil => exact ⟨_, _, rfl⟩
  | cons r l ih =>
    obtain ⟨funds, pending, h⟩ := ih (s := creditFund y q s r)
    exact ⟨funds, pending, h⟩

end Loop

section Value

variable {y q : ℤ} {s t : State}

/-- What the accounts hold and what the reward funds hold, as QI. -/
def heldQi (s : State) : ℤ :=
  rowSum (fun _ a ↦ 1000 * a.assets.yang + a.assets.qi) s.accounts +
    rowSum (fun _ f ↦ 1000 * f.rewardBalance + f.rewardQiBalance) s.funds

theorem heldQi_creditFund {r : ℕ × RewardFund} (h : s.funds[r.1]? = some r.2) :
    heldQi (creditFund y q s r) =
      heldQi s + 1000 * (partOf y r.2.percentContentRewards + partOf q r.2.percentContentRewards) := by
  simp only [heldQi, creditFund, rowSum_insert _ h]
  ring

theorem heldQi_funds {l : List (ℕ × RewardFund)} (hl : l.Pairwise fun r r' ↦ r.1 < r'.1)
    (hf : ∀ r ∈ l, s.funds[r.1]? = some r.2) :
    heldQi (l.foldl (creditFund y q) s) = heldQi s + 1000 * (taken y l + taken q l) := by
  induction l generalizing s with
  | nil => exact (Int.add_zero _).symm
  | cons r l ih =>
    rw [List.pairwise_cons] at hl
    have hkept : ∀ r' ∈ l, (creditFund y q s r).funds[r'.1]? = some r'.2 := by
      intro r' hr
      rw [creditFund, getElem?_insert, if_neg (Nat.ne_of_lt (hl.1 r' hr)),
        hf r' (List.mem_cons_of_mem _ hr)]
    rw [List.foldl_cons, ih hl.2 hkept, heldQi_creditFund (hf r List.mem_cons_self)]
    simp only [taken, List.map_cons, List.sum_cons]
    ring

/-- The value of what accounts and funds hold, as a measure. -/
def valued : Weights := { assets := { yang := 1000, qi := 1 }, fundYang := 1000, fundQi := 1 }

theorem weigh_valued (s : State) : valued.weigh s = heldQi s := by
  have ha : ∀ a : Account, valued.account a = 1000 * a.assets.yang + a.assets.qi := by
    intro a
    simp [valued, Weights.account, Purse.dot, Stock.dot]
  have hn : ∀ n : Nfa, valued.ofNfa n = 0 := by
    intro n
    simp [valued, Weights.ofNfa, Purse.dot, Stock.dot]
  have hf : ∀ f : RewardFund, valued.fund f = 1000 * f.rewardBalance + f.rewardQiBalance := by
    intro f
    simp [valued, Weights.fund]
  have hp : ∀ p : Props, valued.props p = 0 := by
    intro p
    simp [valued, Weights.props, Stock.dot]
  simp only [Weights.weigh, ha, hn, hf, hp, rowSum_zero, heldQi]
  ring

theorem weigh_supply (s : State) : ({ currentSupply := 1 } : Weights).weigh s = -s.props.currentSupply := by
  have ha : ∀ a : Account, ({ currentSupply := 1 } : Weights).account a = 0 := by
    intro a
    simp [Weights.account, Purse.dot, Stock.dot]
  have hn : ∀ n : Nfa, ({ currentSupply := 1 } : Weights).ofNfa n = 0 := by
    intro n
    simp [Weights.ofNfa, Purse.dot, Stock.dot]
  have hf : ∀ f : RewardFund, ({ currentSupply := 1 } : Weights).fund f = 0 := by
    intro f
    simp [Weights.fund]
  have hp : ∀ p : Props, ({ currentSupply := 1 } : Weights).props p = p.currentSupply := by
    intro p
    simp [Weights.props, Stock.dot]
  simp only [Weights.weigh, ha, hn, hf, hp, rowSum_zero]
  ring

theorem shifts_paySiming {w : Weights} (hw : w.assets.yang = 1000 * (w.assets.qi - w.totalQi))
    {r : ℤ} : Shifts w.weigh (paySiming r) (1000 * r * (w.assets.qi - w.totalQi)) := by
  refine .read .get fun s ↦ .read shifts_getSiming fun _ ↦ .read shifts_getAccount fun acc ↦ .ite
    (fun _ ↦ shifts_createQi) fun _ ↦ .read shifts_check fun _ ↦ ?_
  have hm : Shifts w.weigh (modifyAccount s.props.currentSiming fun acc ↦
      { acc with assets := acc.assets.add r .yang }) (1000 * r * (w.assets.qi - w.totalQi)) := by
    apply shifts_modifyAccount
    intro acc
    simp only [Weights.account, Purse.dot_add, Purse.get, hw]
    ring
  exact .of_eq (.bind hm fun _ ↦ .read shifts_timesPrice fun _ ↦ shifts_check) (add_zero _)

end Value

section Exact

variable {s : State} {r : ℤ}

/-- The current siming has an account that can take the reward, in QI or in YANG. -/
def Rewards (s : State) (reward : ℤ) : Prop :=
  s.props.currentSiming ∈ s.simings ∧ ∃ acc, s.accounts[s.props.currentSiming]? = some acc ∧
    if startAdoringBlock ≤ s.props.headBlockNumber ∨ acc.assets.qi = 0 then
      (Fits (acc.assets.qi + 1000 * reward) ∧ 0 ≤ acc.assets.qi + 1000 * reward) ∧
        Fits (s.props.totalQi + 1000 * reward) ∧
        Carries Fits s s.props.totalQi (1000 * reward) taiyiMaxProxyRecursionDepth s.props.currentSiming
    else Fits (acc.assets.yang + reward)

theorem completes_paySiming (hr : 0 ≤ r ∧ r ≤ 2 ^ 31) :
    Completes (paySiming r) s ↔ Rewards s r := by
  have hfits : Fits (1000 * r) := fits_of_bounds (b := 2 ^ 50) (by omega) (by norm_num)
  simp only [Completes, paySiming, wp_bind, wp_get, wp_getSiming, wp_getAccount, Rewards,
    mem_iff_getElem?]
  rw [exists_and_right]
  refine and_congr_right fun _ ↦ exists_congr fun acc ↦ and_congr_right fun ha ↦ ?_
  split
  · refine completes_createQi.trans ?_
    simp only [hr.1, hfits, true_and, ha, Option.some.injEq, exists_eq_left']
  · simp only [wp_bind, wp_check, modifyAccount, wp_modifyIn, wp_yangToQi, ha, Option.some.injEq,
      exists_eq', hr.1, hfits, and_true]

/-- What the current siming is left of the new YANG, and the minimum at least. -/
def simingReward (s : State) : ℤ :=
  max (newYang s.props - taken (contentYang s.props) s.funds.toList -
    taken (contentQiFund s.props) s.funds.toList) minRewardFund

theorem simingReward_eq :
    max (newYang s.props - taken (contentYang s.props) s.funds.toList -
      taken (contentQiFund s.props) s.funds.toList) minRewardFund = simingReward s := rfl

/-- The values that the fields hold by their types. -/
structure Typed (s : State) : Prop where
  yangPercent : s.props.contentRewardYangPercent < 2 ^ 16
  qiFundPercent : s.props.contentRewardQiFundPercent < 2 ^ 16
  fundPercent : ∀ (id : ℕ) (f : RewardFund), s.funds[id]? = some f → f.percentContentRewards < 2 ^ 16
  pending : Fits s.props.pendingRewardedQi

/-- The supply times the rate and everything that is credited fit, the funds take no more than
the content rewards, and the current siming can be paid. -/
structure Payable (s : State) : Prop where
  rate : Fits (s.props.currentSupply * inflationRate s.props.headBlockNumber)
  funds : ∀ r ∈ s.funds.toList, Absorbs (contentYang s.props) (contentQiFund s.props) r.2
  pending : Fits (s.props.pendingRewardedQi + 1000 * taken (contentQiFund s.props) s.funds.toList)
  yang : taken (contentYang s.props) s.funds.toList ≤ contentYang s.props
  qiFund : taken (contentQiFund s.props) s.funds.toList ≤ contentQiFund s.props
  siming : Rewards s (simingReward s)
  supply : Fits (s.props.currentSupply + (taken (contentYang s.props) s.funds.toList +
    taken (contentQiFund s.props) s.funds.toList + simingReward s))

theorem contentYang_eq {p : Props} :
    partOf (newYang p) p.contentRewardYangPercent = contentYang p := rfl

theorem contentQiFund_eq {p : Props} :
    partOf (newYang p) p.contentRewardQiFundPercent = contentQiFund p := rfl

theorem content_bounds {percent : ℕ}
    (h : Fits (s.props.currentSupply * inflationRate s.props.headBlockNumber))
    (hp : percent < 2 ^ 16) :
    1000 ≤ partOf (newYang s.props) percent ∧ partOf (newYang s.props) percent ≤ 2 ^ 30 := by
  have hle := partOf_le (newYang_bounds h) hp
  have hge := partOf_ge (newYang s.props) percent
  omega

theorem paySiming_value {t : State} {v : ℤ} (h : (paySiming r).run s = .ok v t) :
    t.props.currentSupply = s.props.currentSupply ∧ heldQi t = heldQi s + 1000 * r := by
  have hsupply := shifts_paySiming (w := { currentSupply := 1 }) rfl s v t h
  have hvalue := shifts_paySiming (w := valued) rfl s v t h
  rw [weigh_supply, weigh_supply] at hsupply
  rw [weigh_valued, weigh_valued] at hvalue
  simp only [valued] at hsupply hvalue
  omega

/-- Paid funds are all that the reward of the siming finds changed. -/
theorem rewards_congr {funds : Table RewardFund} {pending : ℤ} :
    Rewards { s with funds := funds, props := { s.props with pendingRewardedQi := pending } } r ↔
      Rewards s r := Iff.rfl

/-- The end of a payout whose funds took `y` and `q` of the new YANG and left the state `s₁`. -/
theorem wp_payCreated {s₁ : State} {y q : ℤ} (hr : 0 ≤ r ∧ r ≤ 2 ^ 31)
    (hheld : heldQi s₁ = heldQi s + 1000 * (y + q))
    (hsupply : s₁.props.currentSupply = s.props.currentSupply) :
    wp (paySiming r) (fun _ t ↦ Fits (t.props.currentSupply + (y + q + r)) ∧
      1000 * (t.props.currentSupply + (y + q + r) - s.props.currentSupply) = heldQi t - heldQi s) s₁ ↔
    Fits (s.props.currentSupply + (y + q + r)) ∧ Rewards s₁ r := by
  rw [← completes_paySiming hr, Completes, ← wp_and]
  refine wp_congr fun v t ht ↦ ?_
  obtain ⟨hs, hv⟩ := paySiming_value ht
  rw [hs, hsupply, hv, hheld]
  refine and_congr_right fun _ ↦ ⟨fun _ ↦ trivial, fun _ ↦ ?_⟩
  ring

/-- The payout of a block completes and the supply grows by what it credits exactly in the
states that can be paid from. -/
theorem inflation (hs : Typed s) :
    (∃ t, processFunds.run s = .ok ⟨⟩ t ∧
      1000 * (t.props.currentSupply - s.props.currentSupply) = heldQi t - heldQi s) ↔
    Payable s := by
  rw [wp_unit, processFunds, wp_bind, wp_get, wp_bind, wp_check]
  by_cases hrate : Fits (s.props.currentSupply * inflationRate s.props.headBlockNumber)
  swap
  · exact ⟨fun h ↦ absurd h.1 hrate, fun h ↦ absurd h.rate hrate⟩
  have hn := newYang_bounds hrate
  have hy := content_bounds hrate hs.yangPercent
  have hq := content_bounds hrate hs.qiFundPercent
  have hyf : Fits (newYang s.props * s.props.contentRewardYangPercent) :=
    fits_of_bounds (mul_percent_bounds hn hs.yangPercent) (by norm_num)
  have hqf : Fits (newYang s.props * s.props.contentRewardQiFundPercent) :=
    fits_of_bounds (mul_percent_bounds hn hs.qiFundPercent) (by norm_num)
  have hfunds : ∀ r ∈ s.funds.toList, s.funds[r.1]? = some r.2 ∧
      r.2.percentContentRewards < 2 ^ 16 := by
    intro r hr
    have hr := (mem_toList _ _ _).mp hr
    exact ⟨hr, hs.fundPercent _ _ hr⟩
  have hheld := heldQi_funds (y := contentYang s.props) (q := contentQiFund s.props) (ids_sorted s.funds)
    fun r hr ↦ (hfunds r hr).1
  obtain ⟨funds, pending, hpaid⟩ := foldl_creditFund (y := contentYang s.props)
    (q := contentQiFund s.props) (s := s) s.funds.toList
  have hty := taken_nonneg (r := contentYang s.props) s.funds.toList
  have htq := taken_nonneg (r := contentQiFund s.props) s.funds.toList
  simp only [hrate, true_and, newYang_eq, wp_bind, wp_check, hyf, hqf, max_part, contentYang_eq,
    contentQiFund_eq] at hy hq ⊢
  rw [wp_payRewardFunds (by omega) (by omega) (ids_sorted _) hfunds (by omega) (by omega) hs.pending]
  simp only [Int.zero_add, simingReward_eq, wp_get, wp_modifyProps]
  rw [hpaid] at hheld ⊢
  have hend : taken (contentYang s.props) s.funds.toList ≤ contentYang s.props →
      taken (contentQiFund s.props) s.funds.toList ≤ contentQiFund s.props →
        0 ≤ simingReward s ∧ simingReward s ≤ 2 ^ 31 := by
    intro hyle hqle
    unfold simingReward minRewardFund
    omega
  constructor
  · rintro ⟨ha, hp, hyle, hqle, -, -, -, -, h⟩
    obtain ⟨hcreated, hrewards⟩ := (wp_payCreated (s := s) (hend hyle hqle) hheld rfl).mp h
    exact ⟨hrate, ha, hp, hyle, hqle, rewards_congr.mp hrewards, hcreated⟩
  · rintro ⟨-, ha, hp, hyle, hqle, hrewards, hcreated⟩
    have hr := hend hyle hqle
    refine ⟨ha, hp, hyle, hqle, ?_, ?_, ?_, ?_,
      (wp_payCreated (s := s) hr hheld rfl).mpr ⟨hcreated, rewards_congr.mpr hrewards⟩⟩
    all_goals exact fits_of_bounds (b := 2 ^ 40) (by omega) (by norm_num)

/-- One siming, whose account holds QI, and one fund that takes all content rewards. -/
def oneFund (supply : ℤ) : State where
  accounts := (∅ : Table Account).insert 1 { assets := { qi := 5000 } }
  simings := (∅ : Table Siming).insert 1 {}
  funds := (∅ : Table RewardFund).insert 0 { percentContentRewards := 10000 }
  props := { headBlockNumber := 1, currentSiming := 1, currentSupply := supply, totalQi := 5000 }

/-- Whether the payout completes and the supply grows by what it credits. -/
def paysExactly (s : State) : Bool :=
  match processFunds.run s with
  | .ok _ t => decide (1000 * (t.props.currentSupply - s.props.currentSupply) = heldQi t - heldQi s)
  | .error _ _ => false

theorem paysExactly_iff : paysExactly s = true ↔ ∃ t, processFunds.run s = .ok ⟨⟩ t ∧
    1000 * (t.props.currentSupply - s.props.currentSupply) = heldQi t - heldQi s := by
  unfold paysExactly
  split
  · next t h => simp [h]
  · next e t h => simp [h]

theorem oneFund_typed (supply : ℤ) : Typed (oneFund supply) := by
  refine ⟨show 1500 < 2 ^ 16 by decide, show 7500 < 2 ^ 16 by decide, fun id f h ↦ ?_,
    show Fits 0 by decide⟩
  rw [oneFund, getElem?_insert] at h
  split at h
  · cases h
    decide
  · cases h

theorem inflation_oneFund : Payable (oneFund 1000000000000) :=
  (inflation (oneFund_typed _)).mp (paysExactly_iff.mp (by decide +kernel))

/-- The minimum for each of two funds is more than the minimum of the content reward. -/
example : paysExactly { oneFund 1000000 with
    funds := ((∅ : Table RewardFund).insert 0 { percentContentRewards := 5000 }).insert 1
      { percentContentRewards := 5000 } } = false := by decide +kernel

/-- At the greatest amount of an asset the supply times the rate is no `int64_t`. -/
theorem inflation_overflows :
    (oneFund 4611686018427387903).props.currentSupply = 4611686018427387903 ∧
    ¬∃ t, processFunds.run (oneFund 4611686018427387903) = .ok ⟨⟩ t ∧
      1000 * (t.props.currentSupply - (oneFund 4611686018427387903).props.currentSupply) =
        heldQi t - heldQi (oneFund 4611686018427387903) := by
  refine ⟨rfl, fun h ↦ ?_⟩
  have hp : paysExactly (oneFund 4611686018427387903) = false := by decide +kernel
  exact absurd (paysExactly_iff.mpr h) (by rw [hp]; decide)

end Exact

end Taiyi.Ledger.ShareType
