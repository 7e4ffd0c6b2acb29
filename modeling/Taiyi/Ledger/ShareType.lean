import Taiyi.Ledger.Checked

set_option autoImplicit false

namespace Taiyi.Ledger

open Library.IdMap Library.Meter Library.Outcome Library.Wp Checked

namespace ShareType

/-- The values of an `int64_t`. -/
def Fits (x : ℤ) : Prop := -2 ^ 63 ≤ x ∧ x < 2 ^ 63

instance {x : ℤ} : Decidable (Fits x) := inferInstanceAs (Decidable (_ ∧ _))

/-- The result of an operation on `share_type`, a `safe<int64_t>`, which throws when the result
is no `int64_t`. -/
abbrev share (x : ℤ) : Call ℤ := check Fits x

def adjustBalance (a : ℕ) (delta : ℤ) (symbol : Symbol) : Call Unit := do
  let _ ← share ((← getBalance a symbol) + delta)
  Ledger.adjustBalance a delta symbol

def createQi (toAccount : ℕ) (liquid : ℤ) : Call ℤ := do
  let newQi ← share (← yangToQi liquid)
  adjustBalance toAccount newQi .qi
  let _ ← share ((← get).props.totalQi + newQi)
  modifyProps fun p ↦ { p with totalQi := p.totalQi + newQi }
  adjustProxied Fits newQi taiyiMaxProxyRecursionDepth toAccount
  pure newQi

section Refinement

theorem refines_adjustBalance (a : ℕ) (delta : ℤ) (symbol : Symbol) :
    Refines (adjustBalance a delta symbol) (Ledger.adjustBalance a delta symbol) := by
  refine .drop (fun s b t h ↦ ?_) fun _ ↦ refines_check (.refl _)
  obtain ⟨acc, _, hacc, hb⟩ := bind_ok.mp h
  obtain ⟨-, rfl⟩ := getAccount_ok.mp hacc
  cases hb
  rfl

theorem refines_createQi (a : ℕ) (liquid : ℤ) :
    Refines (createQi a liquid) (Ledger.createQi a liquid) :=
  .bind (.refl _) fun _ ↦ refines_check <| .bind (refines_adjustBalance _ _ _) fun _ ↦
    .drop (fun _ _ _ h ↦ by cases h; rfl) fun _ ↦ refines_check <| .bind (.refl _) fun _ ↦
    .bind (refines_adjustProxied _ _) fun _ ↦ .refl _

end Refinement

section Measures

variable {w : Weights} {a : ℕ} {delta : ℤ}

theorem shifts_adjustBalance {symbol : Symbol} :
    Shifts w.weigh (adjustBalance a delta symbol) (w.assets.get symbol * delta) :=
  .read shifts_getBalance fun _ ↦ .read shifts_check fun _ ↦ Ledger.shifts_adjustBalance

theorem shifts_createQi {f : ℤ} :
    Shifts w.weigh (createQi a f) (1000 * f * (w.assets.qi - w.totalQi)) := by
  refine .bind_of fun s _ t hr ↦ ?_
  obtain ⟨⟨_, rfl⟩, rfl⟩ := yangToQi_ok.mp hr
  refine ⟨rfl, .bind_of fun s newQi t hr ↦ ?_⟩
  obtain ⟨⟨-, rfl⟩, rfl⟩ := check_ok.mp hr
  refine ⟨rfl, ?_⟩
  have hp : Shifts w.weigh (modifyProps fun p ↦ { p with totalQi := p.totalQi + 1000 * f })
      (-(w.totalQi * (1000 * f))) := by
    apply shifts_modifyProps
    intro p
    simp only [Weights.props]
    ring
  refine .of_eq (.bind shifts_adjustBalance fun _ ↦ .read .get fun _ ↦ .read shifts_check fun _ ↦
    .bind hp fun _ ↦ .read Checked.shifts_adjustProxied fun _ ↦ .pure _) ?_
  simp only [Purse.get]
  ring

end Measures

section Completion

variable {s t : State} {a : ℕ} {delta room : ℤ}

theorem wp_adjustBalance {symbol : Symbol} {Q : Unit → State → Prop} (hd : 0 ≤ delta) :
    wp (adjustBalance a delta symbol) Q s ↔
      ∃ acc, s.accounts[a]? = some acc ∧ Fits (acc.assets.get symbol + delta) ∧
        0 ≤ acc.assets.get symbol + delta ∧
        Q ⟨⟩ { s with accounts := s.accounts.insert a { acc with assets := acc.assets.add delta symbol } } := by
  simp only [adjustBalance, Ledger.adjustBalance, modifyBalance, modifyAccount, wp_bind,
    wp_getBalance, wp_check, wp_require, wp_modifyIn]
  constructor
  · rintro ⟨acc, ha, hfits, _, _, -, _, h₁, hle, _, h₂, hq⟩
    rw [ha] at h₁ h₂
    cases h₁
    cases h₂
    exact ⟨acc, ha, hfits, hle, hq⟩
  · rintro ⟨acc, ha, hfits, hle, hq⟩
    exact ⟨acc, ha, hfits, acc, ha, by omega, acc, ha, hle, acc, ha, hq⟩

theorem completes_createQi {liquid : ℤ} :
    Completes (createQi a liquid) s ↔
      0 ≤ liquid ∧ Fits (1000 * liquid) ∧
        (∃ acc, s.accounts[a]? = some acc ∧ Fits (acc.assets.qi + 1000 * liquid) ∧
          0 ≤ acc.assets.qi + 1000 * liquid) ∧
        Fits (s.props.totalQi + 1000 * liquid) ∧
        Carries Fits s s.props.totalQi (1000 * liquid) taiyiMaxProxyRecursionDepth a := by
  rw [Completes, createQi, wp_bind, wp_yangToQi]
  refine and_congr_right fun hl ↦ ?_
  rw [wp_bind, wp_check]
  refine and_congr_right fun _ ↦ ?_
  rw [wp_bind, wp_adjustBalance (by omega)]
  simp only [wp_bind, wp_get, wp_check, wp_modifyProps, wp_pure]
  have hrest : ∀ acc, s.accounts[a]? = some acc →
      (wp (adjustProxied Fits (1000 * liquid) taiyiMaxProxyRecursionDepth a) (fun _ _ ↦ True)
        { s with
          accounts := s.accounts.insert a
            { acc with assets := acc.assets.add (1000 * liquid) .qi }
          props := { s.props with totalQi := s.props.totalQi + 1000 * liquid } } ↔
        Carries Fits s s.props.totalQi (1000 * liquid) taiyiMaxProxyRecursionDepth a) := by
    intro acc ha
    refine (completes_adjustProxied (Nat.le_refl _)).trans ?_
    simp only [Int.add_sub_cancel]
    exact carries_insert ha rfl rfl ⟨rfl, rfl, fun _ _ ↦ rfl⟩
  constructor
  · rintro ⟨acc, ha, hfits, hle, htotal, hc⟩
    exact ⟨⟨acc, ha, hfits, hle⟩, htotal, (hrest acc ha).mp hc⟩
  · rintro ⟨⟨acc, ha, hfits, hle⟩, htotal, hc⟩
    exact ⟨acc, ha, hfits, hle, htotal, (hrest acc ha).mpr hc⟩

end Completion

end ShareType

end Taiyi.Ledger
