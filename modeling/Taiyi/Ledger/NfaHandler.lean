import Taiyi.Ledger.Charge

set_option autoImplicit false

namespace Taiyi.Ledger

namespace Nfa

def operatedBy (nfa : Nfa) (caller : ℕ) : Prop :=
  nfa.ownerAccount = caller ∨ nfa.activeAccount = caller

instance (nfa : Nfa) (caller : ℕ) : Decidable (nfa.operatedBy caller) :=
  inferInstanceAs (Decidable (_ ∨ _))

end Nfa

def requireOperator (caller nfa : ℕ) : Call Unit := do
  require ((← getNfa nfa).operatedBy caller) "caller account not the owner or active operator"

/-- `contract_handler::transfer_by_contract`. -/
def transferByContract (fromAccount toAccount : ℕ) (amount : ℤ) (symbol : Symbol) :
    Call Unit := do
  require (fromAccount ≠ toAccount) "It's no use transferring money to yourself"
  let _ ← getAccount toAccount
  require (amount ≤ (← getBalance fromAccount symbol)) "Insufficient Balance"
  require (0 ≤ amount) "token amount must big than zero"
  adjustBalance fromAccount (-amount) symbol
  adjustBalance toAccount amount symbol

/-- `contract_nfa_handler::transfer_by_contract`. -/
def transferNfaByContract (caller fromNfa toNfa : ℕ) (amount : ℤ) (symbol : Symbol) :
    Call Unit := do
  require (fromNfa ≠ toNfa) "It's no use transferring resource to yourself"
  requireOperator caller fromNfa
  let _ ← getNfa toNfa
  require (amount ≤ (← getNfaBalance fromNfa symbol)) "Insufficient Balance"
  require (0 ≤ amount) "resource amount must big than zero"
  adjustNfaBalance fromNfa (-amount) symbol
  adjustNfaBalance toNfa amount symbol

def withdrawByContract (caller fromNfa toAccount : ℕ) (amount : ℤ) (symbol : Symbol) :
    Call Unit := do
  requireOperator caller fromNfa
  let _ ← getAccount toAccount
  require (amount ≤ (← getNfaBalance fromNfa symbol)) "Insufficient Balance"
  require (0 ≤ amount) "resource amount must big than zero"
  adjustNfaBalance fromNfa (-amount) symbol
  adjustBalance toAccount amount symbol
  if symbol = .qi then adjustProxiedSimingAdores toAccount amount

def depositByContract (caller fromAccount toNfa : ℕ) (amount : ℤ) (symbol : Symbol) :
    Call Unit := do
  require (caller = fromAccount)
    "caller have no authority to transfer assets from this account"
  let _ ← getAccount fromAccount
  let _ ← getNfa toNfa
  require (amount ≤ (← getBalance fromAccount symbol)) "Insufficient Balance"
  require (0 ≤ amount) "resource amount must big than zero"
  adjustBalance fromAccount (-amount) symbol
  if symbol = .qi then adjustProxiedSimingAdores fromAccount (-amount)
  adjustNfaBalance toNfa amount symbol

def convertQiToResource (caller nfa : ℕ) (amount : ℤ) (r : Resource) : Call Unit := do
  requireOperator caller nfa
  require (0 < amount) "convert qi is zero"
  require (amount ≤ (← getNfaBalance nfa .qi)) "the NFA has not enough qi"
  let newResource ← timesPrice amount 1 (qiPrice r)
  -- the QI really used, without what the division leaves over
  let qi ← timesPrice newResource (qiPrice r) 1
  adjustNfaBalance nfa (-qi) .qi
  adjustNfaBalance nfa newResource (.resource r)
  modifyProps fun p ↦ { p with totalQi := p.totalQi - qi, total := p.total.add newResource r }

def convertResourceToQi (caller nfa : ℕ) (amount : ℤ) (r : Resource) : Call Unit := do
  requireOperator caller nfa
  require (0 < amount) "convert resource is zero"
  require (amount ≤ (← getNfaBalance nfa (.resource r))) "the NFA has not enough of the resource"
  let newQi ← timesPrice amount (qiPrice r) 1
  adjustNfaBalance nfa newQi .qi
  adjustNfaBalance nfa (-amount) (.resource r)
  modifyProps fun p ↦ { p with totalQi := p.totalQi + newQi, total := p.total.add (-amount) r }

def adjustMaterial (nfa : ℕ) (delta : ℤ) (r : Resource) : Call Unit := do
  let _ ← getMaterial nfa
  modifyNfa nfa fun n ↦ { n with material := n.material.add delta r }

def injectMaterialByContract (caller fromNfa toNfa : ℕ) (amount : ℤ) (r : Resource) :
    Call Unit := do
  require (0 ≤ amount) "resource amount must big than zero"
  requireOperator caller fromNfa
  requireOperator caller toNfa
  require (amount ≤ (← getNfaBalance fromNfa (.resource r))) "Insufficient Balance"
  adjustNfaBalance fromNfa (-amount) (.resource r)
  adjustMaterial toNfa amount r

def separateMaterialByContract (caller fromNfa toNfa : ℕ) (amount : ℤ) (r : Resource) :
    Call Unit := do
  require (0 ≤ amount) "resource amount must big than zero"
  requireOperator caller fromNfa
  let _ ← getNfa toNfa
  require (amount ≤ (← getMaterial fromNfa).get r) "Insufficient material"
  adjustMaterial fromNfa (-amount) r
  adjustNfaBalance toNfa amount (.resource r)

/-- The NFA pays the treasury for an action of its actor. -/
def takeQi (caller nfa : ℕ) (qi : ℤ) : Call Unit := do
  requireOperator caller nfa
  require (qi ≤ (← getNfaBalance nfa .qi)) "the actor has not enough qi left"
  rewardFeigangFromNfa taiyiDaoAccount nfa qi

/-- What `change_nfa_contract` and `create_named_contract` charge the account that called. -/
def chargeInCall (payee payer : ℕ) (usedQi : ℤ) : Call Unit := do
  require (usedQi ≤ (← getBalance payer .qi)) "not enough qi"
  rewardFeigang payee payer (.value usedQi)

section Consume

-- `hasher::hash` of a seed
variable (hash : ℕ → ℕ)

def consumeOffset : Resource → ℕ
  | .gold => 30011
  | .food => 30223
  | .wood => 30253
  | .fabric => 30271
  | .herb => 30341

/-- The QI that the material is worth. -/
def materialQi (m : Stock) : ℤ :=
  m.gold * qiPrice .gold + m.food * qiPrice .food + m.wood * qiPrice .wood +
    m.fabric * qiPrice .fabric + m.herb * qiPrice .herb

/-- How much of a resource one action uses up: a random part of what its share of the material
allows, and not more than there is. -/
def consumed (m : Stock) (base : ℤ) (seed : ℕ) (r : Resource) : ℤ :=
  let qi := base * (m.get r * qiPrice r) / materialQi m
  let used : ℤ := if 0 < qi then (hash (seed + consumeOffset r) % (qi.toNat % 2 ^ 32) : ℕ) else 0
  max 0 (min (m.get r) (used / qiPrice r))

def consumeNfaMaterialRandom (nfa seed : ℕ) : Call Unit := do
  let n ← getNfa nfa
  let base : ℤ := (n.minEquivalentQi / 50 : ℕ)
  if base ≠ 0 ∧ 0 < materialQi (← getMaterial nfa) then
    let rs : List Resource := [.gold, .food, .wood, .fabric, .herb]
    rs.forM fun r ↦ adjustMaterial nfa (-consumed hash n.material base seed r) r
    rs.forM fun r ↦ adjustBalance taiyiDaoAccount (consumed hash n.material base seed r) (.resource r)

end Consume

/-- `create_nfa`, as far as the new NFA and its empty material: the material is created after
the init function of the main contract was run. -/
def createNfa (nfa creator minEquivalentQi : ℕ) (initialised : Bool) : Call Unit := do
  require ((← get).nfas[nfa]? = none) "could not insert object"
  modify fun s ↦
    { s with
      nfas := s.nfas.insert nfa
        { ownerAccount := creator, activeAccount := creator, minEquivalentQi := minEquivalentQi,
          hasMaterial := false } }
  require initialised "the init function failed"
  modifyNfa nfa fun n ↦ { n with hasMaterial := true }

end Taiyi.Ledger
