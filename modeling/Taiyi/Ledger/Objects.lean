import Mathlib.Algebra.Group.Int.Defs
import Mathlib.Algebra.Group.Nat.Defs
import Mathlib.Data.Int.Notation
import Taiyi.Library.IdMap
import Taiyi.Library.Outcome

set_option autoImplicit false

namespace Taiyi.Ledger

open Library.IdMap Library.Outcome

/-- The five resources an NFA is made of. -/
inductive Resource
  | gold | food | wood | fabric | herb
  deriving DecidableEq

inductive Symbol
  | yang | qi
  | resource (r : Resource)
  deriving DecidableEq

structure Stock where
  gold : ℤ := 0
  food : ℤ := 0
  wood : ℤ := 0
  fabric : ℤ := 0
  herb : ℤ := 0
  deriving DecidableEq

namespace Stock

def get (p : Stock) : Resource → ℤ
  | .gold => p.gold
  | .food => p.food
  | .wood => p.wood
  | .fabric => p.fabric
  | .herb => p.herb

def add (p : Stock) (d : ℤ) : Resource → Stock
  | .gold => { p with gold := p.gold + d }
  | .food => { p with food := p.food + d }
  | .wood => { p with wood := p.wood + d }
  | .fabric => { p with fabric := p.fabric + d }
  | .herb => { p with herb := p.herb + d }

theorem get_add (p : Stock) (d : ℤ) (r r' : Resource) :
    (p.add d r).get r' = if r = r' then p.get r' + d else p.get r' := by
  cases r <;> cases r' <;> rfl

end Stock

/-- What an account or an NFA holds: its YANG, its QI, and its balance objects of resources,
where no object is a balance of zero. -/
structure Purse where
  yang : ℤ := 0
  qi : ℤ := 0
  stock : Stock := {}
  deriving DecidableEq

namespace Purse

def get (p : Purse) : Symbol → ℤ
  | .yang => p.yang
  | .qi => p.qi
  | .resource r => p.stock.get r

def add (p : Purse) (d : ℤ) : Symbol → Purse
  | .yang => { p with yang := p.yang + d }
  | .qi => { p with qi := p.qi + d }
  | .resource r => { p with stock := p.stock.add d r }

theorem get_add (p : Purse) (d : ℤ) (a b : Symbol) :
    (p.add d a).get b = if a = b then p.get b + d else p.get b := by
  cases a <;> cases b <;> simp [add, get, Stock.get_add]

end Purse

/-- The last value of `time_point_sec` and of a block number. -/
def maximum : ℕ := 2 ^ 32 - 1

/-- A `withdraw_qi_route_object`, kept by the account it leads to. -/
structure Route where
  percent : ℕ
  autoVest : Bool
  deriving DecidableEq

/-- An account with the objects that are indexed by its name: its balances, its
`siming_adore_object`s and its withdraw routes. -/
structure Account where
  proxy : Option ℕ := none
  canAdore : Bool := true
  assets : Purse := {}
  rewardYang : ℤ := 0
  rewardQi : ℤ := 0
  rewardFeigang : ℤ := 0
  delegatedQi : ℤ := 0
  qiWithdrawRate : ℤ := 0
  nextQiWithdrawalTime : ℕ := maximum
  withdrawn : ℤ := 0
  toWithdraw : ℤ := 0
  withdrawRoutes : ℕ := 0
  proxiedVsfAdores : Fin 4 → ℤ := fun _ ↦ 0
  simingsAdoredFor : ℕ := 0
  adores : IdSet := ∅
  routes : Table Route := ∅

/-- An NFA with its `nfa_material_object`, if that was created. -/
structure Nfa where
  ownerAccount : ℕ
  activeAccount : ℕ
  minEquivalentQi : ℕ := 0
  assets : Purse := {}
  hasMaterial : Bool := true
  material : Stock := {}
  debtValue : ℤ := 0
  debtContract : ℕ := maximum
  cultivationValue : ℕ := 0
  nextTickBlock : ℕ := maximum

structure Siming where
  adores : ℤ := 0
  virtualPosition : ℕ := 0
  virtualLastUpdate : ℕ := 0
  virtualScheduledTime : ℕ := 2 ^ 128 - 1

structure Cultivation where
  managerNfaId : ℕ
  beneficiaryMap : Table ℕ
  participants : IdSet := ∅
  createTime : ℕ := maximum
  startDeadline : ℕ := maximum
  startTime : ℕ := maximum
  lastUpdateTime : ℕ := maximum
  qiAccumulated : ℤ := 0

structure RewardFund where
  percentContentRewards : ℕ
  rewardBalance : ℤ := 0
  rewardQiBalance : ℤ := 0

/-- The `dynamic_global_property_object`, with the virtual time of the siming schedule. -/
structure Props where
  headBlockNumber : ℕ := 0
  time : ℕ := 0
  currentSiming : ℕ := 0
  currentVirtualTime : ℕ := 0
  currentSupply : ℤ := 0
  totalQi : ℤ := 0
  pendingRewardedQi : ℤ := 0
  pendingRewardedFeigang : ℤ := 0
  pendingCultivationQi : ℤ := 0
  total : Stock := {}
  contentRewardYangPercent : ℕ := 1500
  contentRewardQiFundPercent : ℕ := 7500
  lastSimingProductionReward : ℤ := 0

/-- An actor, which is in no zone before it is born, and a zone, by their NFAs. -/
structure Actor where
  location : Option ℕ := none
  deriving DecidableEq

structure Zone where
  nfaId : ℕ
  deriving DecidableEq

structure State where
  accounts : Table Account := ∅
  simings : Table Siming := ∅
  nfas : Table Nfa := ∅
  actors : Table Actor := ∅
  zones : Table Zone := ∅
  cultivations : Table Cultivation := ∅
  funds : Table RewardFund := ∅
  declines : Table ℕ := ∅
  props : Props := {}

/-- A call into the database: it throws or returns, and keeps what it wrote before a throw. -/
abbrev Call := EStateM String State

/-- `FC_ASSERT`. -/
def require (c : Prop) [Decidable c] (msg : String) : Call Unit :=
  if c then pure () else throw msg

def lookup {V : Type} (t : Table V) (id : ℕ) : Call V :=
  match t[id]? with
  | some v => pure v
  | none => throw "unknown key"

def getAccount (id : ℕ) : Call Account := do lookup (← get).accounts id

def getNfa (id : ℕ) : Call Nfa := do lookup (← get).nfas id

def getSiming (id : ℕ) : Call Siming := do lookup (← get).simings id

def getCultivation (id : ℕ) : Call Cultivation := do lookup (← get).cultivations id

/-- The `nfa_material_object` of an NFA. -/
def getMaterial (id : ℕ) : Call Stock := do
  let n ← getNfa id
  require n.hasMaterial "unknown key"
  pure n.material

/-- `modify` of the object with a given id in one of the tables. -/
def modifyIn {V : Type} (table : State → Table V) (store : Table V → State → State) (id : ℕ)
    (f : V → V) : Call Unit := do
  let v ← lookup (table (← get)) id
  modify fun s ↦ store ((table s).insert id (f v)) s

def modifyAccount (id : ℕ) (f : Account → Account) : Call Unit :=
  modifyIn State.accounts (fun t s ↦ { s with accounts := t }) id f

def modifyNfa (id : ℕ) (f : Nfa → Nfa) : Call Unit :=
  modifyIn State.nfas (fun t s ↦ { s with nfas := t }) id f

def modifySiming (id : ℕ) (f : Siming → Siming) : Call Unit :=
  modifyIn State.simings (fun t s ↦ { s with simings := t }) id f

def modifyCultivation (id : ℕ) (f : Cultivation → Cultivation) : Call Unit :=
  modifyIn State.cultivations (fun t s ↦ { s with cultivations := t }) id f

def modifyFund (id : ℕ) (f : RewardFund → RewardFund) : Call Unit :=
  modifyIn State.funds (fun t s ↦ { s with funds := t }) id f

def modifyProps (f : Props → Props) : Call Unit :=
  modify fun s ↦ { s with props := f s.props }

section Outcomes

variable {s t : State} {id : ℕ}

theorem require_ok {c : Prop} [Decidable c] {msg : String} {u : Unit} :
    (require c msg).run s = .ok u t ↔ c ∧ t = s := by
  unfold require
  split
  · next h => simp [h, EStateM.run_pure, eq_comm]
  · next h => simp [h]

theorem require_of {c : Prop} [Decidable c] {msg : String} (h : c) :
    (require c msg).run s = .ok ⟨⟩ s := require_ok.mpr ⟨h, rfl⟩

theorem lookup_ok {V : Type} {m : Table V} {v : V} :
    (lookup m id).run s = .ok v t ↔ m[id]? = some v ∧ t = s := by
  unfold lookup
  split
  · next u h => simp [h, EStateM.run_pure, eq_comm]
  · next h =>
    rw [h]
    exact ⟨nofun, nofun⟩

theorem getAccount_ok {a : Account} :
    (getAccount id).run s = .ok a t ↔ s.accounts[id]? = some a ∧ t = s := lookup_ok

theorem getNfa_ok {n : Nfa} :
    (getNfa id).run s = .ok n t ↔ s.nfas[id]? = some n ∧ t = s := lookup_ok

theorem getSiming_ok {w : Siming} :
    (getSiming id).run s = .ok w t ↔ s.simings[id]? = some w ∧ t = s := lookup_ok

theorem getCultivation_ok {c : Cultivation} :
    (getCultivation id).run s = .ok c t ↔ s.cultivations[id]? = some c ∧ t = s := lookup_ok

theorem modifyIn_ok {V : Type} {table : State → Table V} {store : Table V → State → State}
    {f : V → V} {u : Unit} :
    (modifyIn table store id f).run s = .ok u t ↔
      ∃ v, (table s)[id]? = some v ∧ t = store ((table s).insert id (f v)) s := by
  unfold modifyIn
  simp only [bind_ok, lookup_ok]
  constructor
  · intro ⟨_, _, hg, v, u, ⟨hv, hu⟩, h⟩
    cases hg
    cases hu
    cases h
    exact ⟨v, hv, rfl⟩
  · intro ⟨v, hv, h⟩
    exact ⟨s, s, rfl, v, s, ⟨hv, rfl⟩, h ▸ rfl⟩

end Outcomes

/-- A sum or product of `int64_t` values. -/
def toInt64 (x : ℤ) : ℤ := x.bmod (2 ^ 64)

def taiyiMaxProxyRecursionDepth : ℕ := 4

def taiyi100Percent : ℤ := 10000

def taiyiDaoAccount : ℕ := 0

/-- One unit of a resource is worth this much QI. -/
def qiPrice : Resource → ℤ
  | .gold => 5
  | .food => 3
  | .wood => 2
  | .fabric => 3
  | .herb => 4

/-- `asset * price`: the amount times the ratio, rounded down. The high word of the product of
a negative amount is never zero. -/
def timesPrice (amount num den : ℤ) : Call ℤ := do
  require (0 ≤ amount) "result.hi == 0"
  pure (amount * num / den)

/-- `asset * TAIYI_QI_SHARE_PRICE` from QI to YANG. -/
def qiToYang (qi : ℤ) : Call ℤ := timesPrice qi 1000 1000000

/-- `asset * TAIYI_QI_SHARE_PRICE` from YANG to QI. -/
def yangToQi (yang : ℤ) : Call ℤ := timesPrice yang 1000000 1000

end Taiyi.Ledger
