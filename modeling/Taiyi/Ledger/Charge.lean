import Taiyi.Ledger.Adore

set_option autoImplicit false

namespace Taiyi.Ledger

def getBalance (a : ℕ) (symbol : Symbol) : Call ℤ := do
  pure ((← getAccount a).assets.get symbol)

/-- `modify_balance` and `adjust_asset_balance`: no balance is left negative. -/
def modifyBalance (a : ℕ) (delta : ℤ) (symbol : Symbol) : Call Unit := do
  require (0 ≤ (← getBalance a symbol) + delta) "Insufficient funds"
  modifyAccount a fun acc ↦ { acc with assets := acc.assets.add delta symbol }

def adjustBalance (a : ℕ) (delta : ℤ) (symbol : Symbol) : Call Unit := do
  require (delta < 0 → -delta ≤ (← getBalance a symbol))
    "Account does not have sufficient funds for balance adjustment"
  modifyBalance a delta symbol

/-- A delta of QI is credited to the pending QI, a delta of YANG to the pending YANG when there
is none of QI. -/
def Account.reward (a : Account) (valueDelta shareDelta feigangDelta : ℤ) : Account :=
  { a with
    rewardYang := if shareDelta = 0 then a.rewardYang + valueDelta else a.rewardYang
    rewardQi := if shareDelta = 0 then a.rewardQi else a.rewardQi + shareDelta
    rewardFeigang := a.rewardFeigang + feigangDelta }

def modifyRewardBalance (a : ℕ) (valueDelta shareDelta feigangDelta : ℤ) (check : Bool) :
    Call Unit := do
  let acc ← getAccount a
  let rewarded := acc.reward valueDelta shareDelta feigangDelta
  require (check → 0 ≤ if shareDelta = 0 then rewarded.rewardYang else rewarded.rewardQi)
    "Insufficient reward funds"
  require (check → 0 ≤ rewarded.rewardFeigang) "Insufficient reward QI (Feigang) funds"
  modifyAccount a fun acc ↦ acc.reward valueDelta shareDelta feigangDelta

def adjustRewardBalance (a : ℕ) (liquidDelta shareDelta feigangDelta : ℤ) : Call Unit :=
  modifyRewardBalance a liquidDelta shareDelta feigangDelta true

def getNfaBalance (n : ℕ) (symbol : Symbol) : Call ℤ := do
  pure ((← getNfa n).assets.get symbol)

def adjustNfaBalance (n : ℕ) (delta : ℤ) (symbol : Symbol) : Call Unit := do
  require (delta < 0 → -delta ≤ (← getNfaBalance n symbol))
    "NFA does not have sufficient assets for balance adjustment"
  if symbol ≠ .qi then
    require (0 ≤ (← getNfaBalance n symbol) + delta) "Insufficient Assets funds"
  modifyNfa n fun nfa ↦ { nfa with assets := nfa.assets.add delta symbol }

/-- A `const asset&` argument: an amount of QI, or the QI of an account wherever it is read. -/
inductive AssetRef
  | value (amount : ℤ)
  | qiOf (account : ℕ)
  deriving DecidableEq

def AssetRef.read : AssetRef → Call ℤ
  | .value amount => pure amount
  | .qiOf a => getBalance a .qi

/-- `create_qi2`, which is never asked to pay into the reward balance. -/
def createQi (toAccount : ℕ) (liquid : ℤ) : Call ℤ := do
  let newQi ← yangToQi liquid
  adjustBalance toAccount newQi .qi
  modifyProps fun p ↦ { p with totalQi := p.totalQi + newQi }
  adjustProxiedSimingAdores toAccount newQi
  pure newQi

/-- `reward_feigang` from an account. -/
def rewardFeigang (toAccount fromAccount : ℕ) (feigang : AssetRef) : Call Unit := do
  require (0 < (← feigang.read)) "feigang.amount.value > 0"
  adjustBalance fromAccount (-(← feigang.read)) .qi
  adjustProxiedSimingAdores fromAccount (-(← feigang.read))
  modifyRewardBalance toAccount 0 0 (← feigang.read) false
  let f ← feigang.read
  modifyProps fun p ↦
    { p with
      pendingRewardedFeigang := p.pendingRewardedFeigang + f
      totalQi := p.totalQi - f }

/-- `reward_feigang` from an NFA. -/
def rewardFeigangFromNfa (toAccount nfa : ℕ) (feigang : ℤ) : Call Unit := do
  require (0 < feigang) "feigang.amount.value > 0"
  adjustNfaBalance nfa (-feigang) .qi
  modifyRewardBalance toAccount 0 0 feigang false
  modifyProps fun p ↦
    { p with
      pendingRewardedFeigang := p.pendingRewardedFeigang + feigang
      totalQi := p.totalQi - feigang }

/-- A charge that goes to the treasury alone. -/
def chargeTreasury (payer : ℕ) (usedQi : ℤ) : Call Unit := do
  require (usedQi ≤ (← getBalance payer .qi)) "account does not have enough qi"
  rewardFeigang taiyiDaoAccount payer (.value usedQi)

/-- The treasury's part of the QI a run of a contract used. -/
def forTreasury (usedQi : ℤ) : ℤ := (usedQi * 2000).tdiv taiyi100Percent

/-- What a call of a contract costs its caller: the drops go to the owner of the contract, the
rest and a fifth of the drops to the treasury. -/
def chargeCaller (contractOwner caller : ℕ) (usedDrops apiExePoint : ℤ) : Call Unit := do
  let usedQi := usedDrops - forTreasury usedDrops
  require (usedQi ≤ (← getBalance caller .qi)) "Caller account does not have enough qi"
  rewardFeigang contractOwner caller (.value usedQi)
  chargeTreasury caller (50 + apiExePoint + forTreasury usedDrops)

/-- A charge of `execute_proposals`: a treasury without enough QI pays all it has to the owner
of the contract. -/
def chargeOrDrain (payee contractOwner : ℕ) (usedQi : ℤ) : Call Unit := do
  let qi ← getBalance taiyiDaoAccount .qi
  if usedQi ≤ qi then
    rewardFeigang payee taiyiDaoAccount (.value usedQi)
  else if 0 < qi then
    rewardFeigang contractOwner taiyiDaoAccount (.qiOf taiyiDaoAccount)

/-- What `execute_proposals` charges the treasury after a proposal was run. -/
def chargeProposal (contractOwner : ℕ) (usedDrops apiExePoint : ℤ) : Call Unit := do
  chargeOrDrain contractOwner contractOwner (usedDrops - forTreasury usedDrops)
  chargeOrDrain taiyiDaoAccount contractOwner (50 + apiExePoint + forTreasury usedDrops)

end Taiyi.Ledger
