import Mathlib.Algebra.BigOperators.Group.List.Basic
import Mathlib.Algebra.Module.Defs
import Taiyi.Library.Outcome

set_option autoImplicit false

namespace Taiyi.Library.Meter

open Outcome

variable {ε σ α β M : Type} [AddCommGroup M] {m : σ → M} {x : EStateM ε σ α}
  {f : α → EStateM ε σ β} {d e : M}

/-- Every successful run of the program changes the measure by the given amount. -/
def Shifts (m : σ → M) (x : EStateM ε σ α) (d : M) : Prop :=
  ∀ s a t, x.run s = .ok a t → m t = m s + d

namespace Shifts

theorem pure (a : α) : Shifts m (Pure.pure a : EStateM ε σ α) 0 := by
  intro s b t h
  rw [EStateM.run_pure] at h
  cases h
  exact (add_zero _).symm

theorem throw (err : ε) : Shifts m (MonadExcept.throw err : EStateM ε σ α) d := by
  intro s b t h
  cases h

theorem get : Shifts m (MonadState.get : EStateM ε σ σ) 0 := by
  intro s b t h
  cases h
  exact (add_zero _).symm

theorem update {g : σ → σ} (h : ∀ s, m (g s) = m s + d) :
    Shifts m (modify g : EStateM ε σ PUnit) d := by
  intro s b t hr
  cases hr
  exact h s

theorem bind (hx : Shifts m x d) (hf : ∀ a, Shifts m (f a) e) : Shifts m (x >>= f) (d + e) := by
  intro s b t h
  obtain ⟨a, u, hu, ht⟩ := bind_ok.mp h
  rw [hf a u b t ht, hx s a u hu, add_assoc]

/-- The amount of the second part may depend on what the first part read. -/
theorem bind_of (hf : ∀ s a t, x.run s = .ok a t → m t = m s ∧ Shifts m (f a) d) :
    Shifts m (x >>= f) d := by
  intro s b t h
  obtain ⟨a, u, hu, ht⟩ := bind_ok.mp h
  obtain ⟨hm, hs⟩ := hf s a u hu
  rw [hs u b t ht, hm]

/-- A first part that leaves the measure alone. -/
theorem read (hx : Shifts m x 0) (hf : ∀ a, Shifts m (f a) e) : Shifts m (x >>= f) e := by
  have h := hx.bind hf
  rwa [zero_add] at h

theorem map {g : α → β} (hx : Shifts m x d) : Shifts m (g <$> x) d := by
  intro s b t h
  rw [map_eq_pure_bind, bind_ok] at h
  obtain ⟨a, u, hu, ht⟩ := h
  cases ht
  exact hx s a t hu

theorem of_eq (hx : Shifts m x d) (h : d = e) : Shifts m x e := h ▸ hx

theorem ite {c : Prop} [Decidable c] {y : EStateM ε σ α} (hx : c → Shifts m x d)
    (hy : ¬c → Shifts m y d) : Shifts m (if c then x else y) d := by
  split
  · next h => exact hx h
  · next h => exact hy h

theorem forM {g : α → EStateM ε σ PUnit} {c : α → M} {l : List α}
    (h : ∀ a ∈ l, Shifts m (g a) (c a)) : Shifts m (ForM.forM l g) (l.map c).sum := by
  induction l with
  | nil => exact pure _
  | cons a l ih =>
    intro s b t hr
    obtain ⟨u, hu, ht⟩ := forM_cons_ok.mp hr
    rw [ih (fun a' ha' ↦ h a' (List.mem_cons_of_mem _ ha')) u ⟨⟩ t ht,
      h a List.mem_cons_self s ⟨⟩ u hu, List.map_cons, List.sum_cons, add_assoc]

theorem forM_zero {g : α → EStateM ε σ PUnit} {l : List α} (h : ∀ a ∈ l, Shifts m (g a) 0) :
    Shifts m (ForM.forM l g) 0 := by
  have hs := forM (c := fun _ ↦ 0) h
  rwa [List.map_const', List.sum_replicate, smul_zero] at hs

end Shifts

/-- From a state that meets a condition every successful run of the program leads to one that does
and changes the measure by the given amount. -/
def ShiftsOn (P : σ → Prop) (m : σ → M) (x : EStateM ε σ α) (d : M) : Prop :=
  ∀ s a t, P s → x.run s = .ok a t → P t ∧ m t = m s + d

namespace ShiftsOn

variable {P : σ → Prop}

theorem pure (a : α) : ShiftsOn P m (Pure.pure a : EStateM ε σ α) 0 := by
  intro s b t hs h
  cases h
  exact ⟨hs, (add_zero _).symm⟩

theorem bind (hx : ShiftsOn P m x d) (hf : ∀ a, ShiftsOn P m (f a) e) :
    ShiftsOn P m (x >>= f) (d + e) := by
  intro s b t hs h
  obtain ⟨a, u, hu, ht⟩ := bind_ok.mp h
  obtain ⟨hu, hd⟩ := hx s a u hs hu
  obtain ⟨ht, he⟩ := hf a u b t hu ht
  exact ⟨ht, by rw [he, hd, add_assoc]⟩

/-- A first part that leaves the measure alone. -/
theorem read (hx : ShiftsOn P m x 0) (hf : ∀ a, ShiftsOn P m (f a) e) :
    ShiftsOn P m (x >>= f) e := by
  have h := hx.bind hf
  rwa [zero_add] at h

theorem of_eq (hx : ShiftsOn P m x d) (h : d = e) : ShiftsOn P m x e := h ▸ hx

theorem ite {c : Prop} [Decidable c] {y : EStateM ε σ α} (hx : c → ShiftsOn P m x d)
    (hy : ¬c → ShiftsOn P m y d) : ShiftsOn P m (if c then x else y) d := by
  split
  · next h => exact hx h
  · next h => exact hy h

theorem forM_zero {g : α → EStateM ε σ PUnit} {l : List α} (h : ∀ a ∈ l, ShiftsOn P m (g a) 0) :
    ShiftsOn P m (ForM.forM l g) 0 := by
  induction l with
  | nil => exact pure _
  | cons a l ih =>
    exact read (h a List.mem_cons_self) fun _ ↦ ih fun b hb ↦ h b (List.mem_cons_of_mem _ hb)

end ShiftsOn

end Taiyi.Library.Meter
