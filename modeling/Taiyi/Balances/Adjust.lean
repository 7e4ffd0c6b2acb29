import Taiyi.Library.Attempt
import Taiyi.Library.Outcome
import Taiyi.Library.SparseRows
import Taiyi.Protocol.AssetSymbol

set_option autoImplicit false

namespace Taiyi.Balances

open Library.Attempt Library.SparseRows Protocol

/-- A `share_type`: the values of an `int64_t`. -/
structure ShareType where
  value : ℤ
  fits : -2 ^ 63 ≤ value ∧ value < 2 ^ 63
  deriving DecidableEq

namespace ShareType

instance : Zero ShareType := ⟨0, by decide⟩

/-- The result of an operation on `share_type`, which throws when it is no `int64_t`. -/
def ofInt (x : ℤ) : Except String ShareType :=
  if h : -2 ^ 63 ≤ x ∧ x < 2 ^ 63 then .ok ⟨x, h⟩ else .error "Integer Overflow"

theorem ofInt_ok {x : ℤ} {a : ShareType} : ofInt x = .ok a ↔ a.value = x := by
  unfold ofInt
  constructor
  · intro h
    split at h
    · cases h
      rfl
    · cases h
  · rintro rfl
    rw [dif_pos a.fits]

end ShareType

structure Asset where
  amount : ShareType
  symbol : AssetSymbol
  deriving DecidableEq

namespace Asset

/-- `operator+` and `operator+=`. -/
def add (a b : Asset) : Except String Asset :=
  if a.symbol = b.symbol then (ShareType.ofInt (a.amount.value + b.amount.value)).map (⟨·, a.symbol⟩)
  else .error "symbol == o.symbol"

def neg (a : Asset) : Except String Asset :=
  (ShareType.ofInt (-a.amount.value)).map (⟨·, a.symbol⟩)

/-- `operator>=`. -/
def ge (a b : Asset) : Except String Bool :=
  if a.symbol = b.symbol then .ok (b.amount.value ≤ a.amount.value) else .error "a.symbol == b.symbol"

theorem add_ok {a b c : Asset} : a.add b = .ok c ↔
    a.symbol = b.symbol ∧ c.symbol = a.symbol ∧ c.amount.value = a.amount.value + b.amount.value := by
  unfold add
  constructor
  · intro h
    split at h
    · next heq =>
      obtain ⟨x, hx, rfl⟩ := map_eq_ok.mp h
      exact ⟨heq, rfl, ShareType.ofInt_ok.mp hx⟩
    · cases h
  · rintro ⟨heq, hsymbol, hvalue⟩
    rw [if_pos heq, map_eq_ok]
    exact ⟨c.amount, ShareType.ofInt_ok.mpr hvalue, by rw [← hsymbol]⟩

theorem neg_ok {a b : Asset} (h : a.neg = .ok b) : b.amount.value = -a.amount.value := by
  obtain ⟨x, hx, rfl⟩ := map_eq_ok.mp h
  exact ShareType.ofInt_ok.mp hx

theorem ge_ok {a b : Asset} (h : a.ge b = .ok true) : b.amount.value ≤ a.amount.value := by
  unfold ge at h
  split at h
  · rw [Except.ok.injEq] at h
    exact of_decide_eq_true h
  · cases h

end Asset

abbrev AccountName := String

def yangSymbol : AssetSymbol := .fromAssetNum Legacy.yang.assetNum

def qiSymbol : AssetSymbol := .fromAssetNum Legacy.qi.assetNum

/-- The fields of an `account_object` that hold balances. -/
structure AccountObject where
  name : AccountName
  balance : Asset := ⟨0, yangSymbol⟩
  qi : Asset := ⟨0, qiSymbol⟩

structure NfaObject where
  id : ℕ
  qi : Asset := ⟨0, qiSymbol⟩

/-- An `account_regular_balance_object`. -/
structure AccountRegularBalance where
  owner : AccountName
  liquid : Asset
  qi : Asset

/-- An `nfa_regular_balance_object`. -/
structure NfaRegularBalance where
  nfa : ℕ
  liquid : Asset

structure State where
  accounts : List AccountObject := []
  nfas : List NfaObject := []
  accountRegularBalances : List AccountRegularBalance := []
  nfaRegularBalances : List NfaRegularBalance := []

abbrev Call := EStateM String State

def require (c : Prop) [Decidable c] (msg : String) : Call Unit :=
  if c then pure ⟨⟩ else throw msg

def attempt {α : Type} : Except String α → Call α
  | .ok a => pure a
  | .error e => throw e

namespace AccountRegularBalance

/-- The key of `by_owner_liquid_symbol`. -/
def byOwnerLiquidSymbol (b : AccountRegularBalance) : AccountName × AssetSymbol :=
  (b.owner, b.liquid.symbol)

def clearBalance (liquidSymbol : AssetSymbol) : AccountRegularBalance :=
  ⟨"", ⟨0, liquidSymbol⟩, ⟨0, liquidSymbol.getPairedSymbol⟩⟩

/-- `add_to_balance` of the `asset_regular_balance_operator`. -/
def addToBalance (delta : Asset) (b : AccountRegularBalance) : Except String AccountRegularBalance :=
  if delta.symbol.isQi then (b.qi.add delta).map fun qi ↦ { b with qi := qi }
  else (b.liquid.add delta).map fun liquid ↦ { b with liquid := liquid }

/-- The balance with the delta, and whether both balances are then zero. -/
def getCombinedBalance (delta : Asset) (b : AccountRegularBalance) : Except String (ℤ × Bool) :=
  (if delta.symbol.isQi then b.qi.add delta else b.liquid.add delta).map fun result ↦
    (result.amount.value, result.amount.value = 0 &&
      (if delta.symbol.isQi then b.liquid.amount.value else b.qi.amount.value) = 0)

end AccountRegularBalance

namespace NfaRegularBalance

/-- The key of `by_nfa_liquid_symbol`. -/
def byNfaLiquidSymbol (b : NfaRegularBalance) : ℕ × AssetSymbol := (b.nfa, b.liquid.symbol)

def addToBalance (delta : Asset) (b : NfaRegularBalance) : Except String NfaRegularBalance :=
  (b.liquid.add delta).map fun liquid ↦ { b with liquid := liquid }

def getCombinedBalance (delta : Asset) (b : NfaRegularBalance) : Except String (ℤ × Bool) :=
  (b.liquid.add delta).map fun result ↦ (result.amount.value, result.amount.value = 0)

end NfaRegularBalance

open AccountRegularBalance NfaRegularBalance

/-- The symbol of the row that the balance of a symbol is in. -/
def liquidSymbol (symbol : AssetSymbol) : AssetSymbol :=
  if symbol.isQi then symbol.getPairedSymbol else symbol

/-- The symbols whose balances are no fields of the account. -/
def isAsset (symbol : AssetSymbol) : Bool :=
  symbol.space = .faiSpace || symbol.legacy = some .gold || symbol.legacy = some .food ||
    symbol.legacy = some .wood || symbol.legacy = some .fabric || symbol.legacy = some .herb

def getAccount (name : AccountName) : Call AccountObject := do
  match find AccountObject.name (← get).accounts name with
  | some a => pure a
  | none => throw "unknown account"

def getNfa (id : ℕ) : Call NfaObject := do
  match find NfaObject.id (← get).nfas id with
  | some n => pure n
  | none => throw "unknown key"

/-- `get_balance` of an account object, which is given by its name. -/
def getBalance (a : AccountName) (symbol : AssetSymbol) : Call Asset := do
  match symbol.legacy with
  | some .yang => pure (← getAccount a).balance
  | some .qi => pure (← getAccount a).qi
  | _ =>
    require (isAsset symbol) "Invalid symbol"
    match find byOwnerLiquidSymbol (← get).accountRegularBalances (a, liquidSymbol symbol) with
    | none => pure ⟨0, symbol⟩
    | some arbo => pure (if symbol.isQi then arbo.qi else arbo.liquid)

/-- `get_balance` of an account name. -/
def getBalanceByName (name : AccountName) (symbol : AssetSymbol) : Call Asset := do
  getBalance (← getAccount name).name symbol

def getNfaBalance (nfa : ℕ) (symbol : AssetSymbol) : Call Asset := do
  if symbol.legacy = some .qi then
    pure (← getNfa nfa).qi
  else
    match find byNfaLiquidSymbol (← get).nfaRegularBalances (nfa, symbol) with
    | none => pure ⟨0, symbol⟩
    | some rbo => pure rbo.liquid

/-- The check in front of an adjustment by a negative delta. -/
def requireAvailable (available : Call Asset) (delta : Asset) (msg : String) : Call Unit := do
  if delta.amount.value < 0 then
    let required ← attempt delta.neg
    require ((← attempt ((← available).ge required)) = true) msg

def createAccountRegularBalance (b : AccountRegularBalance) : Call Unit := do
  require ((find byOwnerLiquidSymbol (← get).accountRegularBalances b.byOwnerLiquidSymbol).isNone)
    "Could not create object, most likely a uniqueness constraint was violated"
  modify fun s ↦ { s with accountRegularBalances := s.accountRegularBalances ++ [b] }

def createNfaRegularBalance (b : NfaRegularBalance) : Call Unit := do
  require ((find byNfaLiquidSymbol (← get).nfaRegularBalances b.byNfaLiquidSymbol).isNone)
    "Could not create object, most likely a uniqueness constraint was violated"
  modify fun s ↦ { s with nfaRegularBalances := s.nfaRegularBalances ++ [b] }

def adjustAssetBalance (name : AccountName) (delta : Asset) (checkAccount : Bool) : Call Unit := do
  let key := (name, liquidSymbol delta.symbol)
  match find byOwnerLiquidSymbol (← get).accountRegularBalances key with
  | none =>
    require (0 ≤ delta.amount.value) "Insufficient FA funds"
    if delta.amount.value = 0 then
      pure ⟨⟩
    else
      if checkAccount then
        let _ ← getAccount name
      createAccountRegularBalance
        (← attempt (addToBalance delta { clearBalance (liquidSymbol delta.symbol) with owner := name }))
  | some bo =>
    let (result, isAllZero) ← attempt (getCombinedBalance delta bo)
    require (0 ≤ result) "Insufficient FA funds"
    if isAllZero then
      modify fun s ↦
        { s with accountRegularBalances := remove byOwnerLiquidSymbol s.accountRegularBalances key }
    else
      let assetBalance ← attempt (addToBalance delta bo)
      modify fun s ↦ { s with
        accountRegularBalances :=
          update byOwnerLiquidSymbol s.accountRegularBalances key fun _ ↦ assetBalance }

/-- The template behind `adjust_nfa_balance`. -/
def adjustNfaAssetBalance (nfa : ℕ) (delta : Asset) : Call Unit := do
  require (delta.symbol.isQi = false) "Qi is not go there."
  let key := (nfa, delta.symbol)
  match find byNfaLiquidSymbol (← get).nfaRegularBalances key with
  | none =>
    require (0 ≤ delta.amount.value) "Insufficient FA funds"
    if delta.amount.value = 0 then
      pure ⟨⟩
    else
      createNfaRegularBalance (← attempt (addToBalance delta ⟨nfa, ⟨0, delta.symbol⟩⟩))
  | some bo =>
    let (result, isAllZero) ← attempt (getCombinedBalance delta bo)
    require (0 ≤ result) "Insufficient Assets funds"
    if isAllZero then
      modify fun s ↦ { s with nfaRegularBalances := remove byNfaLiquidSymbol s.nfaRegularBalances key }
    else
      let nfaBalance ← attempt (addToBalance delta bo)
      modify fun s ↦ { s with
        nfaRegularBalances := update byNfaLiquidSymbol s.nfaRegularBalances key fun _ ↦ nfaBalance }

def setAccount (a : AccountObject) : Call Unit :=
  modify fun s ↦ { s with accounts := update AccountObject.name s.accounts a.name fun _ ↦ a }

/-- The account is written before its balance is checked. -/
def modifyBalance (a : AccountName) (delta : Asset) (checkBalance : Bool) : Call Unit := do
  let acnt ← getAccount a
  match delta.symbol.legacy with
  | some .yang =>
    let balance ← attempt (acnt.balance.add delta)
    setAccount { acnt with balance := balance }
    if checkBalance then
      require (0 ≤ balance.amount.value) "Insufficient YANG funds"
  | some .qi =>
    let qi ← attempt (acnt.qi.add delta)
    setAccount { acnt with qi := qi }
    if checkBalance then
      require (0 ≤ qi.amount.value) "Insufficient QI funds"
  | _ => throw "invalid symbol"

/-- `adjust_balance` of an account object, which is given by its name. -/
def adjustBalance (a : AccountName) (delta : Asset) : Call Unit := do
  requireAvailable (getBalance a delta.symbol) delta
    "Account does not have sufficient funds for balance adjustment."
  if isAsset delta.symbol then
    adjustAssetBalance a delta false
  else
    modifyBalance a delta true

/-- `adjust_balance` of an account name. -/
def adjustBalanceByName (name : AccountName) (delta : Asset) : Call Unit := do
  requireAvailable (getBalanceByName name delta.symbol) delta
    "Account does not have sufficient funds for balance adjustment."
  if isAsset delta.symbol then
    adjustAssetBalance name delta true
  else
    modifyBalance (← getAccount name).name delta true

def adjustNfaBalance (nfa : ℕ) (delta : Asset) : Call Unit := do
  requireAvailable (getNfaBalance nfa delta.symbol) delta
    "NFA does not have sufficient assets for balance adjustment."
  if delta.symbol.legacy = some .qi then
    let obj ← getNfa nfa
    let qi ← attempt (obj.qi.add delta)
    modify fun s ↦ { s with nfas := update NfaObject.id s.nfas nfa fun obj ↦ { obj with qi := qi } }
  else
    adjustNfaAssetBalance nfa delta

end Taiyi.Balances
