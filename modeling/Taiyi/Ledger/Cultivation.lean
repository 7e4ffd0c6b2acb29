import Taiyi.Ledger.NfaHandler

set_option autoImplicit false

namespace Taiyi.Ledger

open Library.IdMap

/-- The shares of the beneficiaries, each cut to 32 bits; the last share named for an NFA
counts. -/
def beneficiaryMap (entries : List (ℕ × ℤ)) : Table ℕ :=
  entries.foldl (fun m e ↦ m.insert e.1 (e.2 % 2 ^ 32).toNat) ∅

def shareSum (m : Table ℕ) : ℕ := (m.toList.map fun r ↦ r.2).sum

/-- `contract_handler::create_cultivation` with the `create_cultivation` of the database. The
first sum of the shares is an `uint64_t`, the second an `uint`. -/
def createCultivation (caller cult managerNfa : ℕ) (entries : List (ℕ × ℤ))
    (prepareTimeBlocks : ℕ) : Call Unit := do
  requireOperator caller managerNfa
  entries.forM fun e ↦ do
    let _ ← getNfa e.1
    require (0 < e.2) "invalid share"
  require ((entries.map Prod.snd).sum % 2 ^ 64 = taiyi100Percent) "sum of shares is not 100%"
  require (20 ≤ prepareTimeBlocks) "prepare time not enough"
  let m := beneficiaryMap entries
  m.toList.forM fun b ↦ do
    let _ ← getNfa b.1
    require (0 < b.2) "invalid beneficiary share weight"
  require ((shareSum m : ℤ) % 2 ^ 32 = taiyi100Percent)
    "sum of beneficiaries share is not 100%"
  let s ← get
  require (s.cultivations[cult]? = none) "could not insert object"
  let now := s.props.headBlockNumber
  modify fun s ↦
    { s with
      cultivations := s.cultivations.insert cult
        { managerNfaId := managerNfa, beneficiaryMap := m, createTime := now,
          startDeadline := (now + prepareTimeBlocks) % 2 ^ 32 } }

/-- The QI that the participants get back, one NFA after the other. -/
def returnQi : List ℕ → Call ℤ
  | [] => pure 0
  | p :: ps => do
    let value := (← getNfa p).cultivationValue
    modifyNfa p fun n ↦
      { n with
        assets := n.assets.add n.cultivationValue .qi
        cultivationValue := 0 }
    let rest ← returnQi ps
    pure (value + rest)

def dissolveCultivation (cult : ℕ) : Call Unit := do
  let c ← getCultivation cult
  let totalCultivationQi ← returnQi c.participants.toList
  modifyCultivation cult fun c ↦
    { c with participants := ∅, startTime := maximum, lastUpdateTime := maximum,
             qiAccumulated := 0 }
  if 0 < totalCultivationQi then
    modifyProps fun p ↦
      { p with
        totalQi := p.totalQi + totalCultivationQi
        pendingCultivationQi := p.pendingCultivationQi - totalCultivationQi }

def participateCultivation (caller cult nfa value : ℕ) : Call Unit := do
  let c ← getCultivation cult
  require (c.startTime = maximum) "can not participate in a started cultivation"
  requireOperator caller nfa
  let n ← getNfa nfa
  require (n.cultivationValue = 0) "nfa already in underway cultivation"
  require (0 < value) "can not participate in a cultivation without any value"
  require (value ≤ n.assets.qi) "nfa have not enough qi to participate"
  modifyCultivation cult fun c ↦ { c with participants := c.participants.insert nfa }
  modifyNfa nfa fun n ↦
    { n with
      cultivationValue := value
      assets := n.assets.add (-value) .qi }
  modifyProps fun p ↦
    { p with
      totalQi := p.totalQi - value
      pendingCultivationQi := p.pendingCultivationQi + value }

def startCultivation (caller cult : ℕ) : Call Unit := do
  let c ← getCultivation cult
  requireOperator caller c.managerNfaId
  require (c.startTime = maximum) "cultivation is already underway"
  require (c.participants.isEmpty = false) "cultivation can not start without any participants"
  let now := (← get).props.headBlockNumber
  modifyCultivation cult fun c ↦
    { c with startTime := now, lastUpdateTime := now, qiAccumulated := 0 }

namespace Stock

def total (p : Stock) : ℤ := p.gold + p.food + p.wood + p.fabric + p.herb

/-- How far the phases of one stock generate those of another: wood, fire, earth, metal, water. -/
def generates (p q : Stock) : ℤ :=
  p.wood * q.herb + p.herb * q.food + p.food * q.gold + p.gold * q.fabric + p.fabric * q.wood

def overcomes (p q : Stock) : ℤ :=
  p.wood * q.food + p.food * q.fabric + p.fabric * q.herb + p.herb * q.gold + p.gold * q.wood

def merge (p q : Stock) : Stock where
  gold := p.gold + q.gold
  food := p.food + q.food
  wood := p.wood + q.wood
  fabric := p.fabric + q.fabric
  herb := p.herb + q.herb

end Stock

def calculateZoneSpiritualEnergy (zone : Zone) : Call ℤ := do
  let m ← getMaterial zone.nfaId
  let base := toInt64 m.total
  pure <|
    if 0 < base then
      toInt64 (base +
        ((toInt64 (5000 * (m.generates m - m.overcomes m) * 5)).tdiv taiyi100Percent).tdiv base)
    else 0

/-- The zone that the actor of an NFA is in. -/
def zoneOfActor (nfa : ℕ) : Call Zone := do
  let actor ← lookup (← get).actors nfa
  match actor.location with
  | some z => lookup (← get).zones z
  | none => throw "unknown key"

/-- What the participants have put in and the sum of their materials. -/
def gatherParticipants : List ℕ → Call (ℕ × Stock)
  | [] => pure (0, {})
  | p :: ps => do
    let value := (← getNfa p).cultivationValue
    let m ← getMaterial p
    let rest ← gatherParticipants ps
    pure (value + rest.1, m.merge rest.2)

/-- The bonus or malus of one pair of stocks; their phases weigh against `square`. -/
def harmony (gen ovc square : ℤ) : ℤ :=
  if square ≤ 0 then 0
  else if ovc < gen then (toInt64 ((gen - ovc) * 5000 * 5)).tdiv square
  else if gen < ovc then -(toInt64 ((ovc - gen) * 5000 * 5)).tdiv square
  else 0

def efficiency (zone : Zone) (p : Stock) : Call ℤ := do
  let total := toInt64 p.total
  if 0 < total then
    let inner := harmony (toInt64 (p.generates p)) (toInt64 (p.overcomes p)) (toInt64 (total * total))
    let z ← getMaterial zone.nfaId
    let zoneTotal := toInt64 z.total
    let outer :=
      if 0 < zoneTotal then
        harmony (toInt64 (z.generates p)) (toInt64 (z.overcomes p)) (toInt64 (zoneTotal * total))
      else 0
    pure (max (taiyi100Percent + inner + outer) 1000)
  else pure (max taiyi100Percent 1000)

def cultivationMaxTime : ℕ := 7 * 28800

section Update

-- `hasher::hash` of a seed
variable (hash : ℕ → ℕ)

/-- `update_cultivation`. The product is an `uint64_t`. -/
def updateCultivation (cult seed : ℕ) : Call Unit := do
  let c ← getCultivation cult
  require (c.startTime ≠ maximum) "cultivation have not started"
  let now := (← get).props.headBlockNumber
  require (c.startTime ≤ now) "invalid start time"
  if c.lastUpdateTime < now then
    let dt := min (now - c.lastUpdateTime) cultivationMaxTime
    let zone ← zoneOfActor c.managerNfaId
    let energy ← calculateZoneSpiritualEnergy zone
    let put ← gatherParticipants c.participants.toList
    let e ← efficiency zone put.2
    let p := hash (seed + cult) % 10000
    let rv := (energy + put.1) * p * dt * e % 2 ^ 64 / cultivationMaxTime / 10000 / 10000
    if 0 < rv then
      modifyCultivation cult fun c ↦
        { c with qiAccumulated := c.qiAccumulated + rv, lastUpdateTime := now }

/-- The part of a reward for one share, an `int64_t` product before the division. -/
def payout (rv : ℤ) (share : ℕ) : ℤ := (toInt64 (rv * share)).tdiv taiyi100Percent

/-- What is left over for the last beneficiary. -/
def rewardLeft (rv : ℤ) (shares : List (ℕ × ℕ)) : ℤ :=
  rv - (shares.map fun b ↦ payout rv b.2).sum

def payBeneficiaries (rv : ℤ) (shares : List (ℕ × ℕ)) : Call Unit := do
  shares.forM fun b ↦ adjustNfaBalance b.1 (payout rv b.2) .qi
  if 0 < rewardLeft rv shares then
    match shares.getLast? with
    | some b => adjustNfaBalance b.1 (rewardLeft rv shares) .qi
    | none => throw "no beneficiary"

def cultivationFund : ℕ := 0

/-- The reward is paid out of the cultivation fund. -/
def payReward (rv : ℤ) (shares : List (ℕ × ℕ)) : Call Unit := do
  if 0 < rv then
    payBeneficiaries rv shares
    modifyFund cultivationFund fun f ↦ { f with rewardQiBalance := f.rewardQiBalance - rv }
    modifyProps fun p ↦
      { p with pendingRewardedQi := p.pendingRewardedQi - rv, totalQi := p.totalQi + rv }

def stopCultivation (cult seed : ℕ) : Call Unit := do
  updateCultivation hash cult seed
  let c ← getCultivation cult
  let rf ← lookup (← get).funds cultivationFund
  let rv := if rf.rewardQiBalance < c.qiAccumulated then rf.rewardQiBalance else c.qiAccumulated
  payReward rv c.beneficiaryMap.toList
  dissolveCultivation cult

def removeCultivation (cult : ℕ) : Call Unit :=
  modify fun s ↦ { s with cultivations := s.cultivations.erase cult }

def stopAndCloseCultivation (caller cult seed : ℕ) : Call Unit := do
  let c ← getCultivation cult
  requireOperator caller c.managerNfaId
  if c.startTime ≠ maximum then stopCultivation hash cult seed else dissolveCultivation cult
  removeCultivation cult

/-- `contract_handler::update_cultivation`. -/
def updateCultivationByContract (caller cult seed : ℕ) : Call Unit := do
  let c ← getCultivation cult
  requireOperator caller c.managerNfaId
  updateCultivation hash cult seed

/-- The order of the index by start time. -/
def startsBefore (b c : ℕ × Cultivation) : Prop :=
  b.2.startTime < c.2.startTime ∨ b.2.startTime = c.2.startTime ∧ b.1 < c.1

instance (b c : ℕ × Cultivation) : Decidable (startsBefore b c) :=
  inferInstanceAs (Decidable (_ ∨ _))

/-- The first row of an index over these rows. -/
def firstStarted : List (ℕ × Cultivation) → Option (ℕ × Cultivation)
  | [] => none
  | b :: rows =>
    match firstStarted rows with
    | none => some b
    | some c => if startsBefore b c then some b else some c

def firstByStartTime (t : Table Cultivation) : Option (ℕ × Cultivation) := firstStarted t.toList

/-- The iterator after a row, which may have moved in the index since it was reached. -/
def nextByStartTime (t : Table Cultivation) (cult : ℕ) : Option (ℕ × Cultivation) := do
  let c ← t[cult]?
  firstStarted (t.toList.filter fun b ↦ startsBefore (cult, c) b)

/-- The loop of `clean_cultivations` over the index by start time, with a bound on its turns;
it returns the cultivations it stopped. -/
def stopExpired (seed : ℕ) : ℕ → Option (ℕ × Cultivation) → Call (List ℕ)
  | 0, _ => pure []
  | _, none => pure []
  | turns + 1, some (cult, c) => do
    let now := (← get).props.headBlockNumber
    if c.startTime = maximum ∨ now < (c.startTime + cultivationMaxTime) % 2 ^ 32 then pure []
    else
      stopCultivation hash cult seed
      let rest ← stopExpired seed turns (nextByStartTime (← get).cultivations cult)
      pure (cult :: rest)

/-- The cultivations that have not started by their deadline. -/
def overdue (s : State) : List ℕ :=
  (s.cultivations.toList.filter fun b ↦
    b.2.startDeadline ≤ s.props.headBlockNumber ∧ b.2.startTime = maximum).map Prod.fst

def cleanCultivations (seed : ℕ) : Call Unit := do
  let late := overdue (← get)
  late.forM dissolveCultivation
  let t := (← get).cultivations
  let stopped ← stopExpired hash seed (t.size + 1) (firstByStartTime t)
  (late ++ stopped).forM removeCultivation

end Update

end Taiyi.Ledger
