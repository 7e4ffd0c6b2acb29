import Taiyi.Ledger.Charge
import Taiyi.Ledger.Evaluators
import Taiyi.Library.IdMap

set_option autoImplicit false

namespace Taiyi.Ledger

open Library.IdMap

def minRewardFund : ℤ := 1000

def blocksPerYear : ℤ := 365 * 24 * 60 * 60 / 3

/-- The loop of `pay_reward_funds` over the reward funds, with what was used before them. -/
def payRewardFunds (rewardYang rewardQiFund : ℤ) : List (ℕ × RewardFund) → ℤ → ℤ → Call (ℤ × ℤ)
  | [], usedYang, usedQiFund => pure (usedYang, usedQiFund)
  | (id, fund) :: rest, usedYang, usedQiFund => do
    let ryang := max ((rewardYang * fund.percentContentRewards).tdiv taiyi100Percent) minRewardFund
    let rqiyang :=
      max ((rewardQiFund * fund.percentContentRewards).tdiv taiyi100Percent) minRewardFund
    let rewardQi ← yangToQi rqiyang
    modifyFund id fun f ↦
      { f with
        rewardBalance := f.rewardBalance + ryang
        rewardQiBalance := f.rewardQiBalance + rewardQi }
    modifyProps fun p ↦ { p with pendingRewardedQi := p.pendingRewardedQi + rewardQi }
    require (usedYang + ryang ≤ rewardYang) "used_rewards_yang <= reward_yang"
    require (usedQiFund + rqiyang ≤ rewardQiFund) "used_rewards_qi_fund <= reward_qi_fund"
    payRewardFunds rewardYang rewardQiFund rest (usedYang + ryang) (usedQiFund + rqiyang)

def inflationRate (headBlockNumber : ℕ) : ℤ := max (1000 - (headBlockNumber / 233600 : ℕ)) 100

def startAdoringBlock : ℕ := 30 * 28800

def paySiming (reward : ℤ) : Call ℤ := do
  let s ← get
  let owner := s.props.currentSiming
  let _ ← getSiming owner
  let acc ← getAccount owner
  if startAdoringBlock ≤ s.props.headBlockNumber ∨ acc.assets.qi = 0 then
    createQi owner reward
  else
    modifyAccount owner fun acc ↦ { acc with assets := acc.assets.add reward .yang }
    yangToQi reward

def processFunds : Call Unit := do
  let s ← get
  let props := s.props
  let newYang :=
    (props.currentSupply * inflationRate props.headBlockNumber).tdiv
      (taiyi100Percent * blocksPerYear)
  let contentYang :=
    max ((newYang * props.contentRewardYangPercent).tdiv taiyi100Percent) minRewardFund
  let contentQiFund :=
    max ((newYang * props.contentRewardQiFundPercent).tdiv taiyi100Percent) minRewardFund
  let used ← payRewardFunds contentYang contentQiFund s.funds.toList 0 0
  let simingReward := max (newYang - used.1 - used.2) minRewardFund
  let lastReward ← paySiming simingReward
  modifyProps fun p ↦
    { p with
      currentSupply := p.currentSupply + (used.1 + used.2 + simingReward)
      lastSimingProductionReward := lastReward }

/-- The accounts whose request to decline is due, the earliest first. -/
def dueDeclines (s : State) : List ℕ :=
  ((s.declines.toList.filter fun r ↦ r.2 ≤ s.props.time).mergeSort fun b c ↦ b.2 ≤ c.2).map
    Prod.fst

def declineAccount (a : ℕ) : Call Unit := do
  let acc ← getAccount a
  adjustProxiedArray a fun i ↦ -acc.shares i
  clearSimingAdores a
  modifyAccount a fun acc ↦ { acc with canAdore := false, proxy := none }
  modify fun s ↦ { s with declines := s.declines.erase a }

def processDeclineAdoringRights : Call Unit := do
  (dueDeclines (← get)).forM declineAccount

/-- The debt that an NFA pays back before its tick. -/
def payDebt (nfa contractOwner : ℕ) : Call Unit := do
  let n ← getNfa nfa
  require (0 < n.debtValue ∧ n.debtValue ≤ n.assets.qi) "no debt that can be paid"
  rewardFeigangFromNfa contractOwner nfa n.debtValue
  modifyNfa nfa fun n ↦ { n with debtValue := 0, debtContract := maximum }

/-- What `process_nfa_tick` charges the NFA after its heart beat. -/
def chargeTick (nfa contract contractOwner : ℕ) (usedDrops apiExePoint : ℤ) (beatFail : Bool) :
    Call Unit := do
  let n ← getNfa nfa
  let short := decide (n.assets.qi < usedDrops + (50 + apiExePoint))
  let usedQi := if short then n.assets.qi else usedDrops
  let exeQi := if short then 0 else 50 + apiExePoint
  if 0 < usedQi - forTreasury usedQi then
    rewardFeigangFromNfa contractOwner nfa (usedQi - forTreasury usedQi)
  if 0 < exeQi + forTreasury usedQi then
    rewardFeigangFromNfa taiyiDaoAccount nfa (exeQi + forTreasury usedQi)
  if beatFail ∨ short then
    modifyNfa nfa fun m ↦
      { m with
        debtValue := if short then usedDrops + (50 + apiExePoint) - n.assets.qi else m.debtValue
        debtContract := if short then contract else m.debtContract
        nextTickBlock := maximum }

namespace Account

/-- What a withdrawal that is due takes from the account. -/
def dueAmount (a : Account) : ℤ :=
  if a.toWithdraw - a.withdrawn < a.qiWithdrawRate then
    min a.assets.qi (a.toWithdraw % a.qiWithdrawRate)
  else min a.assets.qi a.qiWithdrawRate

def vestRoutes (a : Account) : List (ℕ × Route) := a.routes.toList.filter fun r ↦ r.2.autoVest

def yangRoutes (a : Account) : List (ℕ × Route) := a.routes.toList.filter fun r ↦ !r.2.autoVest

end Account

/-- The part of a withdrawal that goes along a route. -/
def Route.part (r : Route) (toWithdraw : ℤ) : ℤ := toWithdraw * r.percent / taiyi100Percent

def parts (routes : List (ℕ × Route)) (toWithdraw : ℤ) : ℤ :=
  (routes.map fun r ↦ r.2.part toWithdraw).sum

def vestPart (toWithdraw : ℤ) (r : ℕ × Route) : Call Unit := do
  let toDeposit := r.2.part toWithdraw
  if 0 < toDeposit then
    modifyAccount r.1 fun a ↦ { a with assets := a.assets.add toDeposit .qi }
    adjustProxiedSimingAdores r.1 toDeposit

def convertPart (toWithdraw : ℤ) (r : ℕ × Route) : Call Unit := do
  let toDeposit := r.2.part toWithdraw
  let _ ← getAccount r.1
  let convertedYang ← qiToYang toDeposit
  if 0 < toDeposit then
    modifyAccount r.1 fun a ↦ { a with assets := a.assets.add convertedYang .yang }
    modifyProps fun p ↦ { p with totalQi := p.totalQi - toDeposit }

/-- The account after its own part was converted. -/
def Account.afterWithdrawal (a : Account) (toWithdraw convertedYang : ℤ) : Account :=
  let withdrawn := a.withdrawn + toWithdraw
  let assets := (a.assets.add (-toWithdraw) .qi).add convertedYang .yang
  let done := a.toWithdraw ≤ withdrawn ∨ assets.qi = 0
  { a with
    assets := assets
    withdrawn := withdrawn
    qiWithdrawRate := if done then 0 else a.qiWithdrawRate
    nextQiWithdrawalTime := if done then maximum else a.nextQiWithdrawalTime + weekInSeconds }

/-- One turn of the loop of `process_qi_withdrawals`. -/
def withdrawTurn (fromAccount : ℕ) : Call Unit := do
  let a ← getAccount fromAccount
  let toWithdraw := a.dueAmount
  a.vestRoutes.forM (vestPart toWithdraw)
  a.yangRoutes.forM (convertPart toWithdraw)
  let toConvert := toWithdraw - parts a.yangRoutes toWithdraw - parts a.vestRoutes toWithdraw
  require (0 ≤ toConvert) "Deposited more qi than were supposed to be withdrawn"
  let convertedYang ← qiToYang toConvert
  modifyAccount fromAccount fun a ↦ a.afterWithdrawal toWithdraw convertedYang
  modifyProps fun p ↦ { p with totalQi := p.totalQi - toConvert }
  if 0 < toWithdraw then adjustProxiedSimingAdores fromAccount (-toWithdraw)

/-- The order of `by_next_qi_withdrawal_time`. -/
def before (b c : ℕ × ℕ) : Bool := b.1 < c.1 ∨ b.1 = c.1 ∧ b.2 < c.2

def firstOf : List (ℕ × ℕ) → Option (ℕ × ℕ)
  | [] => none
  | k :: ks =>
    match firstOf ks with
    | none => some k
    | some k' => if before k k' then some k else some k'

/-- The account at the next place of the index, after the given one. -/
def nextWithdrawal (s : State) (after : Option (ℕ × ℕ)) : Option ℕ :=
  let keys := s.accounts.toList.map fun r ↦ (r.2.nextQiWithdrawalTime, r.1)
  (firstOf (keys.filter fun k ↦ after.all fun k' ↦ before k' k)).map Prod.snd

/-- How often the withdrawal of an account can still be due at the given time. -/
def Account.turnsLeft (a : Account) (time : ℕ) : ℕ :=
  if a.nextQiWithdrawalTime ≤ time then (time - a.nextQiWithdrawalTime) / weekInSeconds + 1 else 0

def turnsLeft (s : State) : ℕ :=
  (s.accounts.toList.map fun r ↦ r.2.turnsLeft s.props.time).sum

/-- The loop of `process_qi_withdrawals` from an account of the index on. The iterator moves on
before the account is changed and moves in the index. -/
def withdrawFrom : ℕ → Option ℕ → Call Unit
  | 0, _ => throw "more turns than there are withdrawals due"
  | _ + 1, none => pure ()
  | turns + 1, some fromAccount => do
    let a ← getAccount fromAccount
    let s ← get
    if a.nextQiWithdrawalTime ≤ s.props.time then
      let current := nextWithdrawal s (some (a.nextQiWithdrawalTime, fromAccount))
      withdrawTurn fromAccount
      withdrawFrom turns current

def processQiWithdrawals : Call Unit := do
  let s ← get
  withdrawFrom (turnsLeft s + 1) (nextWithdrawal s none)

end Taiyi.Ledger
