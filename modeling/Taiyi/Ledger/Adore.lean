import Mathlib.Algebra.BigOperators.Fin
import Mathlib.Data.Fin.Tuple.Basic
import Taiyi.Ledger.Objects

set_option autoImplicit false

namespace Taiyi.Ledger

open Library.IdMap

namespace Account

/-- The weight an account without a proxy gives to each siming it adores. -/
def simingAdoreWeight (a : Account) : ℤ := a.assets.qi + ∑ i, a.proxiedVsfAdores i

/-- The QI of the account, then what is proxied to it over one hop, two hops and so on. -/
def shares (a : Account) : Fin 5 → ℤ := Fin.cons a.assets.qi a.proxiedVsfAdores

end Account

/-- The greatest `uint128`. -/
def lapLength : ℕ := 2 ^ 128 - 1

def toUint128 (x : ℤ) : ℕ := (x % 2 ^ 128).toNat

namespace Siming

/-- The siming when its adores change at the virtual time `now`. -/
def advance (w : Siming) (now : ℕ) (delta : ℤ) : Siming :=
  let position :=
    (w.virtualPosition + toUint128 w.adores * toUint128 (now - w.virtualLastUpdate)) % 2 ^ 128
  let scheduled := (now + (lapLength - position) / toUint128 (w.adores + delta + 1)) % 2 ^ 128
  { adores := w.adores + delta
    virtualPosition := position
    virtualLastUpdate := now
    -- few adores can push the time over the end of the lap and so into the past
    virtualScheduledTime := if scheduled < now then lapLength else scheduled }

end Siming

def adjustSimingAdore (siming : ℕ) (delta : ℤ) : Call Unit := do
  let w ← getSiming siming
  let s ← get
  require (w.adores + delta ≤ s.props.totalQi) "w.adores <= total_qi"
  modifySiming siming fun w ↦ w.advance s.props.currentVirtualTime delta

def adjustSimingAdores (a : ℕ) (delta : ℤ) : Call Unit := do
  (← getAccount a).adores.toList.forM fun siming ↦ adjustSimingAdore siming delta

/-- The recursion of both overloads of `adjust_proxied_siming_adores` with `left` hops to go:
each proxy is credited and the account at the end settles with its simings. -/
def propagate (credit : ℕ → Account → Account) (settle : ℕ → ℤ) : ℕ → ℕ → Call Unit
  | 0, a => do
    -- nested proxies are not supported, adore will not propagate
    if (← getAccount a).proxy = none then
      adjustSimingAdores a (settle taiyiMaxProxyRecursionDepth)
  | left + 1, a => do
    let depth := taiyiMaxProxyRecursionDepth - (left + 1)
    match (← getAccount a).proxy with
    | none => adjustSimingAdores a (settle depth)
    | some p => do
      modifyAccount p (credit depth)
      propagate credit settle left p

namespace Account

def creditArray (delta : Fin 5 → ℤ) (depth : ℕ) (a : Account) : Account :=
  { a with
    proxiedVsfAdores := fun i ↦
      if depth ≤ i then a.proxiedVsfAdores i + delta ⟨i - depth, by omega⟩
      else a.proxiedVsfAdores i }

def creditAmount (delta : ℤ) (depth : ℕ) (a : Account) : Account :=
  { a with
    proxiedVsfAdores := fun i ↦
      if depth = i then a.proxiedVsfAdores i + delta else a.proxiedVsfAdores i }

end Account

/-- The changes that have not run out of hops after `depth` of them. -/
def settleArray (delta : Fin 5 → ℤ) (depth : ℕ) : ℤ :=
  ∑ i : Fin 5, if i + depth ≤ taiyiMaxProxyRecursionDepth then delta i else 0

/-- `adjust_proxied_siming_adores` for an array of changes. -/
def adjustProxiedArray (a : ℕ) (delta : Fin 5 → ℤ) : Call Unit :=
  propagate (Account.creditArray delta) (settleArray delta) taiyiMaxProxyRecursionDepth a

/-- `adjust_proxied_siming_adores` for one amount of QI. -/
def adjustProxiedSimingAdores (a : ℕ) (delta : ℤ) : Call Unit :=
  propagate (Account.creditAmount delta) (fun _ ↦ delta) taiyiMaxProxyRecursionDepth a

def clearSimingAdores (a : ℕ) : Call Unit :=
  modifyAccount a fun acc ↦ { acc with adores := ∅, simingsAdoredFor := 0 }

theorem creditArray_cons (delta : ℤ) (depth : ℕ) (a : Account) :
    a.creditArray (Fin.cons delta fun _ ↦ 0) depth = a.creditAmount delta depth := by
  simp only [Account.creditArray, Account.creditAmount]
  congr 1
  funext i
  rcases Nat.lt_trichotomy depth i with h | h | h
  · have hne : depth ≠ i := by omega
    obtain ⟨j, hj⟩ : ∃ j : Fin 4, (⟨i - depth, by omega⟩ : Fin 5) = j.succ :=
      ⟨⟨i - depth - 1, by omega⟩, Fin.ext (by simp only [Fin.val_succ]; omega)⟩
    rw [if_pos (Nat.le_of_lt h), if_neg hne, hj, Fin.cons_succ, Int.add_zero]
  · have hz : (⟨i - depth, by omega⟩ : Fin 5) = 0 := Fin.ext (by simp only [Fin.val_zero]; omega)
    rw [if_pos (Nat.le_of_eq h), if_pos h, hz, Fin.cons_zero]
  · rw [if_neg (Nat.not_le.mpr h), if_neg (Nat.ne_of_gt h)]

theorem settleArray_cons (delta : ℤ) {depth : ℕ} (h : depth ≤ taiyiMaxProxyRecursionDepth) :
    settleArray (Fin.cons delta fun _ ↦ 0) depth = delta := by
  simp [settleArray, Fin.sum_univ_succ, h]

theorem propagate_congr {credit : ℕ → Account → Account} {settle settle' : ℕ → ℤ}
    (h : ∀ depth, depth ≤ taiyiMaxProxyRecursionDepth → settle depth = settle' depth)
    (left a : ℕ) : propagate credit settle left a = propagate credit settle' left a := by
  induction left generalizing a with
  | zero => simp only [propagate, h _ (Nat.le_refl _)]
  | succ left ih => simp only [propagate, h _ (Nat.sub_le _ _), ih]

/-- One amount is an array with nothing proxied. -/
theorem adjustProxiedSimingAdores_eq (a : ℕ) (delta : ℤ) :
    adjustProxiedSimingAdores a delta = adjustProxiedArray a (Fin.cons delta fun _ ↦ 0) := by
  have hc : Account.creditArray (Fin.cons delta fun _ ↦ 0) = Account.creditAmount delta := by
    funext depth b
    exact creditArray_cons delta depth b
  unfold adjustProxiedSimingAdores adjustProxiedArray
  rw [hc]
  exact propagate_congr (fun depth hd ↦ (settleArray_cons delta hd).symm) _ a

end Taiyi.Ledger
