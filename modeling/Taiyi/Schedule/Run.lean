import Taiyi.Schedule.WellFormed

set_option autoImplicit false

namespace Taiyi.Schedule

open Ledger

/-- What changes the simings and the schedule. -/
inductive Step
  | register (owner : ℕ) (signingKey : Option ℕ) (props : ChainProperties)
  | setProperties (owner : ℕ) (signingKey : Option ℕ) (props : ChainProperties)
  | report (owner runningVersion hardforkVersionVote hardforkTimeVote : ℕ)
  | adjustAdore (owner : ℕ) (delta totalQi : ℤ)
  | updateSchedule (headBlockTime headBlockNum : ℕ)

section Step

variable (divide : ℕ → ℕ → Option ℕ)

/-- The siming after `adjust_siming_adore` at the virtual time `now`. -/
def Siming.adjust (x : Siming) (now : ℕ) (delta totalQi : ℤ) : Option Siming :=
  let position :=
    (x.virtualPosition + toUint128 x.adores * toUint128 (now - x.virtualLastUpdate)) % 2 ^ 128
  if x.adores + delta ≤ totalQi then
    (divide (lapLength - position) (toUint128 (x.adores + delta + 1))).map fun rest ↦
      { x with
        adores := x.adores + delta
        virtualPosition := position
        virtualLastUpdate := now
        -- few adores can push the time over the end of the lap and so into the past
        virtualScheduledTime :=
          if (now + rest) % 2 ^ 128 < now then lapLength else (now + rest) % 2 ^ 128 }
  else none

/-- Where the lap can be divided, the siming advances as in the ledger. -/
theorem adjust_eq_advance {x y : Siming} {now : ℕ} {delta totalQi : ℤ} (hdiv : Divides divide)
    (hne : toUint128 (x.adores + delta + 1) ≠ 0) (h : x.adjust divide now delta totalQi = some y) :
    y = { x with toSiming := x.toSiming.advance now delta } := by
  unfold Siming.adjust at h
  dsimp only at h
  split at h
  · rw [hdiv.quotient _ _ hne] at h
    cases h
    rfl
  · cases h

/-- The schedule before and after a step; a step that throws has no state after it. -/
def State.step (s : State) : Step → Option State
  | .register owner signingKey props =>
    if s.simings.any (·.owner = owner) then none
    else some { s with
      simings := s.simings ++ [{ id := s.simings.length, owner, signingKey, props }] }
  | .setProperties owner signingKey props => do
    let _ ← s.getSiming owner
    some (s.modifySimings (fun x ↦ x.owner = owner) fun x ↦
      { x with signingKey := signingKey, props := props })
  | .report owner version vote time => do
    let _ ← s.getSiming owner
    some (s.modifySimings (fun x ↦ x.owner = owner) fun x ↦
      { x with
        runningVersion := version, hardforkVersionVote := vote, hardforkTimeVote := time })
  | .adjustAdore owner delta totalQi => do
    let x ← s.getSiming owner
    let y ← x.adjust divide s.wso.currentVirtualTime delta totalQi
    some (s.modifySimings (fun x ↦ x.owner = owner) fun _ ↦ y)
  | .updateSchedule time num => updateSimingSchedule divide time num s

/-- The states of the runs from `s₀`. -/
inductive State.Reaches (s₀ : State) : State → Prop
  | start : Reaches s₀ s₀
  | step {s t : State} (st : Step) : Reaches s₀ s → s.step divide st = some t → Reaches s₀ t

end Step

/-- A siming between two updates. No position is ever gained: virtual time passes only when every
siming begins a lap. -/
structure Siming.OnTime (divide : ℕ → ℕ → Option ℕ) (now : ℕ) (x : Siming) : Prop where
  lastUpdate : x.virtualLastUpdate ≤ now
  scheduled : now ≤ x.virtualScheduledTime
  position : x.virtualPosition = 0
  idle : x.adores = 0 ∨ x.virtualLastUpdate = now
  lap : ∃ rest, divide (lapLength - x.virtualPosition) (toUint128 (x.adores + 1)) = some rest ∧
    x.virtualScheduledTime = min lapLength (x.virtualLastUpdate + rest)

structure Timely (divide : ℕ → ℕ → Option ℕ) (s : State) : Prop where
  consistent : Consistent s
  numbered : s.simings.map Siming.id = List.range s.simings.length
  bound : s.wso.currentVirtualTime ≤ lapLength
  simings : ∀ x ∈ s.simings, x.OnTime divide s.wso.currentVirtualTime

section Simings

variable {divide : ℕ → ℕ → Option ℕ} {now : ℕ} {x y : Siming}

theorem Siming.OnTime.congr (h : x.OnTime divide now) (hy : y.toSiming = x.toSiming) :
    y.OnTime divide now := by
  obtain ⟨h₁, h₂, h₃, h₄, h₅⟩ := h
  exact ⟨hy ▸ h₁, hy ▸ h₂, hy ▸ h₃, hy ▸ h₄, hy ▸ h₅⟩

theorem Siming.Begins.onTime (h : x.Begins divide now) : x.OnTime divide now := by
  obtain ⟨lap, hlap, hsched, hfits⟩ := h.scheduled
  refine ⟨h.lastUpdate.le, by omega, h.position, .inr h.lastUpdate, lap, ?_, ?_⟩
  · rw [h.position]
    exact hlap
  · rw [hsched, h.lastUpdate, min_eq_right]
    unfold lapLength
    omega

theorem Siming.OnTime.bound (h : x.OnTime divide now) : x.virtualScheduledTime ≤ lapLength := by
  obtain ⟨rest, -, hsched⟩ := h.lap
  exact hsched ▸ min_le_left _ _

/-- The end of the lap, or the greatest time where the sum runs over it. -/
theorem scheduled_eq_min {rest : ℕ} (hnow : now ≤ lapLength) (hrest : rest ≤ lapLength) :
    (if (now + rest) % 2 ^ 128 < now then lapLength else (now + rest) % 2 ^ 128) =
      min lapLength (now + rest) := by
  unfold lapLength at *
  split <;> omega

theorem Siming.OnTime.adjust {delta totalQi : ℤ} (hdiv : Divides divide) (hnow : now ≤ lapLength)
    (h : x.OnTime divide now) (hy : x.adjust divide now delta totalQi = some y) :
    y.OnTime divide now ∧ y.id = x.id ∧ y.owner = x.owner := by
  have hposition :
      (x.virtualPosition + toUint128 x.adores * toUint128 (now - x.virtualLastUpdate)) % 2 ^ 128 =
        0 := by
    rcases h.idle with ha | hl
    · rw [h.position, ha]
      simp [toUint128]
    · rw [h.position, hl, sub_self]
      simp [toUint128]
  unfold Siming.adjust at hy
  rw [hposition] at hy
  split at hy
  · obtain ⟨rest, hrest, rfl⟩ := Option.map_eq_some_iff.mp hy
    have hrange := hdiv.range _ _ _ (Nat.sub_le _ _) hrest
    have hmin := scheduled_eq_min hnow hrange
    refine ⟨⟨le_rfl, ?_, rfl, .inr rfl, rest, hrest, hmin⟩, rfl, rfl⟩
    dsimp only
    rw [hmin]
    exact le_min hnow (Nat.le_add_right _ _)
  · cases hy

end Simings

end Taiyi.Schedule
