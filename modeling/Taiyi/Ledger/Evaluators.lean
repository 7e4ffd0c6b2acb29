import Taiyi.Ledger.Charge

set_option autoImplicit false

namespace Taiyi.Ledger

open Library.IdMap

/-- The evaluator of `siming_update` for an account that is no siming yet. -/
def simingUpdate (owner : ℕ) : Call Unit := do
  let s ← get
  if s.simings[owner]? = none then
    chargeTreasury owner (7 * s.props.lastSimingProductionReward)
    modify fun s ↦ { s with simings := s.simings.insert owner {} }

def accountCreate (creator newAccount : ℕ) (fee : ℤ) : Call Unit := do
  require (0 ≤ fee) "fee cannot be negative"
  adjustBalance creator (-fee) .yang
  require ((← get).accounts[newAccount]? = none) "could not insert object"
  modify fun s ↦ { s with accounts := s.accounts.insert newAccount {} }
  if 0 < fee then
    let _ ← createQi newAccount fee

/-- `transfer` moves YANG and resources. -/
def transfer (fromAccount toAccount : ℕ) (amount : ℤ) (symbol : Symbol) : Call Unit := do
  require (symbol ≠ .qi ∧ 0 < amount) "transferring of QI is not allowed"
  require (symbol = .yang ∨ toAccount ≠ taiyiDaoAccount) "Can only transfer YANG to the treasury"
  chargeTreasury fromAccount 10
  adjustBalance fromAccount (-amount) symbol
  adjustBalance toAccount amount symbol

def transferToQi (fromAccount toAccount : ℕ) (amount : ℤ) : Call Unit := do
  require (0 < amount) "Must transfer a nonzero amount"
  chargeTreasury fromAccount 10
  adjustBalance fromAccount (-amount) .yang
  let _ ← createQi toAccount amount

/-- A quarter of the amount, rounded up, and never zero. -/
def withdrawRate (qi : ℤ) : ℤ :=
  let rate := if qi / 4 = 0 then 1 else qi / 4
  if rate * 4 < qi then rate + 1 else rate

def weekInSeconds : ℕ := 604800

def withdrawQi (a : ℕ) (qi : ℤ) : Call Unit := do
  require (0 ≤ qi) "Cannot withdraw negative Qi"
  chargeTreasury a 10
  let acc ← getAccount a
  require (qi ≤ acc.assets.qi - acc.delegatedQi) "Account does not have sufficient Qi for withdraw."
  if qi = 0 then
    require (acc.qiWithdrawRate ≠ 0) "This operation would not change the qi withdraw rate."
    modifyAccount a fun acc ↦
      { acc with qiWithdrawRate := 0, nextQiWithdrawalTime := maximum, toWithdraw := 0,
                 withdrawn := 0 }
  else
    require (acc.qiWithdrawRate ≠ withdrawRate qi)
      "This operation would not change the qi withdraw rate."
    let time := (← get).props.time
    modifyAccount a fun acc ↦
      { acc with qiWithdrawRate := withdrawRate qi, nextQiWithdrawalTime := time + weekInSeconds,
                 toWithdraw := qi, withdrawn := 0 }

def totalPercent (routes : Table Route) : ℕ := (routes.toList.map fun r ↦ r.2.percent).sum

def setWithdrawQiRoute (fromAccount toAccount percent : ℕ) (autoVest : Bool) : Call Unit := do
  require (percent ≤ 10000) "Percent must be valid taiyi percent"
  let acc ← getAccount fromAccount
  let _ ← getAccount toAccount
  require (toAccount ≠ taiyiDaoAccount) "Cannot withdraw qi to the treasury"
  match acc.routes[toAccount]? with
  | none =>
    require (percent ≠ 0) "Cannot create a 0% destination."
    require (acc.withdrawRoutes < 10) "Account already has the maximum number of routes."
    modifyAccount fromAccount fun acc ↦
      { acc with routes := acc.routes.insert toAccount ⟨percent, autoVest⟩
                 withdrawRoutes := acc.withdrawRoutes + 1 }
  | some _ =>
    if percent = 0 then
      modifyAccount fromAccount fun acc ↦
        { acc with routes := acc.routes.erase toAccount, withdrawRoutes := acc.withdrawRoutes - 1 }
    else
      modifyAccount fromAccount fun acc ↦
        { acc with routes := acc.routes.insert toAccount ⟨percent, autoVest⟩ }
  require (totalPercent (← getAccount fromAccount).routes ≤ 10000)
    "More than 100% of qi withdrawals allocated to destinations."

/-- The walk from the new proxy to the end of its own proxies; `left` accounts still fit into
the chain. -/
def checkProxyLoop (chain : List ℕ) : ℕ → ℕ → Call Unit
  | left, cprox => do
    match (← getAccount cprox).proxy with
    | none => pure ()
    | some next => do
      require (next ∉ chain) "This proxy would create a proxy loop."
      match left with
      | 0 => throw "Proxy chain is too long."
      | left + 1 => checkProxyLoop (next :: chain) left next

def accountSimingProxy (a : ℕ) (proxy : Option ℕ) : Call Unit := do
  require (proxy ≠ some a) "Cannot proxy to self"
  let acc ← getAccount a
  require (acc.proxy ≠ proxy) "Proxy must change."
  require (acc.canAdore = true)
    "Account has declined the ability to adore and cannot proxy adores."
  adjustProxiedArray a fun i ↦ -acc.shares i
  match proxy with
  | some p =>
    let _ ← getAccount p
    checkProxyLoop [a, p] (taiyiMaxProxyRecursionDepth - 2) p
    clearSimingAdores a
    modifyAccount a fun acc ↦ { acc with proxy := some p }
    adjustProxiedArray a acc.shares
  | none => modifyAccount a fun acc ↦ { acc with proxy := none }

def accountSimingAdore (a siming : ℕ) (approve : Bool) : Call Unit := do
  let acc ← getAccount a
  require (acc.proxy = none)
    "A proxy is currently set, please clear the proxy before adoring for a siming."
  require (approve → acc.canAdore = true) "Account has declined its adoring rights."
  let _ ← getSiming siming
  if siming ∈ acc.adores then
    require (¬approve) "Vote currently exists, user must indicate a desire to reject siming."
    adjustSimingAdore siming (-acc.simingAdoreWeight)
    modifyAccount a fun acc ↦
      { acc with adores := acc.adores.erase siming, simingsAdoredFor := acc.simingsAdoredFor - 1 }
  else
    require approve "Vote doesn't exist, user must indicate a desire to approve siming."
    require (acc.simingsAdoredFor < 30) "Account has adored for too many simings."
    adjustSimingAdore siming acc.simingAdoreWeight
    modifyAccount a fun acc ↦
      { acc with adores := acc.adores.insert siming, simingsAdoredFor := acc.simingsAdoredFor + 1 }

def declineAdoringRights (a : ℕ) (decline : Bool) : Call Unit := do
  let _ ← getAccount a
  let s ← get
  if decline then
    require (s.declines[a]? = none) "Cannot create new request because one already exists."
    modify fun s ↦ { s with declines := s.declines.insert a (s.props.time + 30 * 86400) }
  else
    require (s.declines[a]? ≠ none) "Cannot cancel the request because it does not exist."
    modify fun s ↦ { s with declines := s.declines.erase a }

def claimRewardBalance (a : ℕ) (yang qi feigang : ℤ) : Call Unit := do
  require (0 ≤ yang ∧ 0 ≤ qi ∧ 0 ≤ feigang) "Cannot claim a negative amount"
  require (0 < yang ∨ 0 < qi ∨ 0 < feigang) "Must claim something."
  let acc ← getAccount a
  require (yang ≤ acc.rewardYang) "Cannot claim that much YANG"
  require (qi ≤ acc.rewardQi) "Cannot claim that much QI"
  require (feigang ≤ acc.rewardFeigang) "Cannot claim that much QI(Feigang)"
  adjustRewardBalance a (-yang) 0 0
  adjustBalance a yang .yang
  adjustRewardBalance a 0 (-qi) 0
  adjustBalance a qi .qi
  adjustRewardBalance a 0 0 (-feigang)
  adjustBalance a feigang .qi
  adjustProxiedSimingAdores a feigang
  modifyProps fun p ↦
    { p with
      totalQi := p.totalQi + (qi + feigang)
      pendingRewardedQi := p.pendingRewardedQi - qi
      pendingRewardedFeigang := p.pendingRewardedFeigang - feigang }
  -- update adores
  adjustProxiedSimingAdores a (qi + feigang)

end Taiyi.Ledger
