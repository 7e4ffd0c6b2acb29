import Mathlib.Tactic.Ring
import Taiyi.Ledger.Charge
import Taiyi.Library.Meter
import Taiyi.Library.IdMap

set_option autoImplicit false

namespace Taiyi.Ledger

open Library.IdMap Library.Meter Library.Outcome

def Stock.dot (w p : Stock) : ℤ :=
  w.gold * p.gold + w.food * p.food + w.wood * p.wood + w.fabric * p.fabric + w.herb * p.herb

theorem Stock.dot_add (w p : Stock) (d : ℤ) (r : Resource) :
    w.dot (p.add d r) = w.dot p + w.get r * d := by
  cases r <;> simp only [dot, add, get] <;> ring

def Purse.dot (w p : Purse) : ℤ := w.yang * p.yang + w.qi * p.qi + w.stock.dot p.stock

theorem Purse.dot_add (w p : Purse) (d : ℤ) (a : Symbol) :
    w.dot (p.add d a) = w.dot p + w.get a * d := by
  cases a <;> simp only [dot, add, get, Stock.dot_add] <;> ring

/-- How much each amount that the objects keep counts in a linear measure of the state, and how
much each pool of the global properties counts against it. -/
structure Weights where
  assets : Purse := {}
  rewardYang : ℤ := 0
  rewardQi : ℤ := 0
  rewardFeigang : ℤ := 0
  nfa : Purse := {}
  material : Stock := {}
  cultivation : ℤ := 0
  fundYang : ℤ := 0
  fundQi : ℤ := 0
  currentSupply : ℤ := 0
  totalQi : ℤ := 0
  pendingRewardedQi : ℤ := 0
  pendingRewardedFeigang : ℤ := 0
  pendingCultivationQi : ℤ := 0
  total : Stock := {}

namespace Weights

variable (w : Weights)

def account (a : Account) : ℤ :=
  w.assets.dot a.assets + w.rewardYang * a.rewardYang + w.rewardQi * a.rewardQi +
    w.rewardFeigang * a.rewardFeigang

def ofNfa (n : Nfa) : ℤ :=
  w.nfa.dot n.assets + w.material.dot n.material + w.cultivation * n.cultivationValue

def fund (f : RewardFund) : ℤ := w.fundYang * f.rewardBalance + w.fundQi * f.rewardQiBalance

def props (p : Props) : ℤ :=
  w.currentSupply * p.currentSupply + w.totalQi * p.totalQi +
    w.pendingRewardedQi * p.pendingRewardedQi +
    w.pendingRewardedFeigang * p.pendingRewardedFeigang +
    w.pendingCultivationQi * p.pendingCultivationQi + w.total.dot p.total

def weigh (s : State) : ℤ :=
  rowSum (fun _ a ↦ w.account a) s.accounts + rowSum (fun _ n ↦ w.ofNfa n) s.nfas +
    rowSum (fun _ f ↦ w.fund f) s.funds - w.props s.props

end Weights

variable {w : Weights} {d : ℤ}

section Basic

theorem shifts_require {c : Prop} [Decidable c] {msg : String} :
    Shifts w.weigh (require c msg) 0 :=
  .ite (fun _ ↦ .pure _) fun _ ↦ .throw _

theorem shifts_lookup {V : Type} {t : Table V} {id : ℕ} : Shifts w.weigh (lookup t id) 0 := by
  unfold lookup
  split
  · exact .pure _
  · exact .throw _

theorem shifts_getAccount {id : ℕ} : Shifts w.weigh (getAccount id) 0 :=
  .read .get fun _ ↦ shifts_lookup

theorem shifts_getNfa {id : ℕ} : Shifts w.weigh (getNfa id) 0 :=
  .read .get fun _ ↦ shifts_lookup

theorem shifts_getSiming {id : ℕ} : Shifts w.weigh (getSiming id) 0 :=
  .read .get fun _ ↦ shifts_lookup

theorem shifts_modifyAccount {id : ℕ} {f : Account → Account}
    (h : ∀ a, w.account (f a) = w.account a + d) : Shifts w.weigh (modifyAccount id f) d := by
  intro s _ t hr
  obtain ⟨a, ha, rfl⟩ := modifyIn_ok.mp hr
  simp only [Weights.weigh, rowSum_insert _ ha, h a]
  ring

theorem shifts_modifyNfa {id : ℕ} {f : Nfa → Nfa} (h : ∀ n, w.ofNfa (f n) = w.ofNfa n + d) :
    Shifts w.weigh (modifyNfa id f) d := by
  intro s _ t hr
  obtain ⟨n, hn, rfl⟩ := modifyIn_ok.mp hr
  simp only [Weights.weigh, rowSum_insert _ hn, h n]
  ring

theorem shifts_modifySiming {id : ℕ} {f : Siming → Siming} :
    Shifts w.weigh (modifySiming id f) 0 := by
  intro s _ t hr
  obtain ⟨_, _, rfl⟩ := modifyIn_ok.mp hr
  exact (add_zero _).symm

/-- What a pool gains, the measure loses. -/
theorem shifts_modifyProps {f : Props → Props} (h : ∀ p, w.props (f p) = w.props p + d) :
    Shifts w.weigh (modifyProps f) (-d) := by
  apply Shifts.update
  intro s
  simp only [Weights.weigh, h]
  ring

end Basic

section Balances

variable {a n : ℕ} {symbol : Symbol}

theorem shifts_getBalance : Shifts w.weigh (getBalance a symbol) 0 :=
  .read shifts_getAccount fun _ ↦ .pure _

theorem shifts_getNfaBalance : Shifts w.weigh (getNfaBalance n symbol) 0 :=
  .read shifts_getNfa fun _ ↦ .pure _

theorem shifts_modifyBalance {delta : ℤ} :
    Shifts w.weigh (modifyBalance a delta symbol) (w.assets.get symbol * delta) := by
  refine .read shifts_getBalance fun _ ↦ .read shifts_require fun _ ↦ shifts_modifyAccount ?_
  intro acc
  simp only [Weights.account, Purse.dot_add]
  ring

theorem shifts_adjustBalance {delta : ℤ} :
    Shifts w.weigh (adjustBalance a delta symbol) (w.assets.get symbol * delta) :=
  .read shifts_getBalance fun _ ↦ .read shifts_require fun _ ↦ shifts_modifyBalance

end Balances

section Rewards

variable {a n : ℕ}

end Rewards

section Adores

variable {a : ℕ} {delta : ℤ}

theorem shifts_adjustSimingAdore {siming : ℕ} :
    Shifts w.weigh (adjustSimingAdore siming delta) 0 :=
  .read shifts_getSiming fun _ ↦ .read .get fun _ ↦ .read shifts_require fun _ ↦
    shifts_modifySiming

theorem shifts_adjustSimingAdores : Shifts w.weigh (adjustSimingAdores a delta) 0 :=
  .read shifts_getAccount fun _ ↦ .forM_zero fun _ _ ↦ shifts_adjustSimingAdore

/-- Proxied adores are in no measure. -/
theorem shifts_propagate {credit : ℕ → Account → Account} {settle : ℕ → ℤ}
    (h : ∀ depth acc, w.account (credit depth acc) = w.account acc) {left : ℕ} :
    Shifts w.weigh (propagate credit settle left a) 0 := by
  induction left generalizing a with
  | zero =>
    refine .read shifts_getAccount fun _ ↦ .ite (fun _ ↦ shifts_adjustSimingAdores) fun _ ↦ .pure _
  | succ left ih =>
    refine .read shifts_getAccount fun acc ↦ ?_
    split
    · exact shifts_adjustSimingAdores
    · refine .read (shifts_modifyAccount fun acc ↦ ?_) fun _ ↦ ih
      rw [h, add_zero]

theorem shifts_adjustProxied : Shifts w.weigh (adjustProxiedSimingAdores a delta) 0 := by
  apply shifts_propagate
  intro _ _
  rfl

end Adores

section Charges

variable {a b n : ℕ} {f : ℤ}

theorem shifts_timesPrice {num den : ℤ} : Shifts w.weigh (timesPrice f num den) 0 :=
  .read shifts_require fun _ ↦ .pure _

theorem timesPrice_ok {num den v : ℤ} {s t : State} :
    (timesPrice f num den).run s = .ok v t ↔ (0 ≤ f ∧ v = f * num / den) ∧ t = s := by
  unfold timesPrice
  simp only [bind_ok, require_ok]
  constructor
  · intro ⟨_, _, ⟨h, hu⟩, hr⟩
    cases hu
    cases hr
    exact ⟨⟨h, rfl⟩, rfl⟩
  · intro ⟨⟨h, hv⟩, ht⟩
    exact ⟨⟨⟩, s, ⟨h, rfl⟩, by rw [hv, ht]; rfl⟩

theorem yangToQi_ok {v : ℤ} {s t : State} :
    (yangToQi f).run s = .ok v t ↔ (0 ≤ f ∧ v = 1000 * f) ∧ t = s := by
  have h : f * 1000000 / 1000 = 1000 * f := by omega
  rw [yangToQi, timesPrice_ok, h]

theorem qiToYang_ok {v : ℤ} {s t : State} :
    (qiToYang f).run s = .ok v t ↔ (0 ≤ f ∧ v = f / 1000) ∧ t = s := by
  have h : f * 1000 / 1000000 = f / 1000 := by omega
  rw [qiToYang, timesPrice_ok, h]

theorem shifts_createQi :
    Shifts w.weigh (createQi a f) (1000 * f * (w.assets.qi - w.totalQi)) := by
  refine .bind_of fun s newQi t hr ↦ ?_
  obtain ⟨⟨_, rfl⟩, rfl⟩ := yangToQi_ok.mp hr
  refine ⟨rfl, ?_⟩
  have hp : Shifts w.weigh (modifyProps fun p ↦ { p with totalQi := p.totalQi + 1000 * f })
      (-(w.totalQi * (1000 * f))) := by
    apply shifts_modifyProps
    intro p
    simp only [Weights.props]
    ring
  refine .of_eq (.bind shifts_adjustBalance fun _ ↦ .bind hp fun _ ↦
    .read shifts_adjustProxied fun _ ↦ .pure _) ?_
  simp only [Purse.get]
  ring

end Charges

end Taiyi.Ledger
