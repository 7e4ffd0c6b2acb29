import Taiyi.Library.Outcome

set_option autoImplicit false

namespace Taiyi.Library.Wp

open Outcome

variable {ε σ α β : Type} {x : EStateM ε σ α} {f : α → EStateM ε σ β} {s : σ}

/-- What must hold for a program to succeed and to end as the condition asks. -/
def wp (x : EStateM ε σ α) (Q : α → σ → Prop) (s : σ) : Prop :=
  ∃ a t, x.run s = .ok a t ∧ Q a t

section Rules

variable {Q : α → σ → Prop}

theorem wp_pure {a : α} : wp (pure a : EStateM ε σ α) Q s ↔ Q a s := by
  constructor
  · rintro ⟨b, t, h, hq⟩
    cases h
    exact hq
  · exact fun h ↦ ⟨a, s, rfl, h⟩

theorem wp_get {Q : σ → σ → Prop} : wp (get : EStateM ε σ σ) Q s ↔ Q s s := by
  constructor
  · rintro ⟨b, t, h, hq⟩
    cases h
    exact hq
  · exact fun h ↦ ⟨s, s, rfl, h⟩

theorem wp_modify {Q : PUnit → σ → Prop} {g : σ → σ} :
    wp (modify g : EStateM ε σ PUnit) Q s ↔ Q ⟨⟩ (g s) := by
  constructor
  · rintro ⟨b, t, h, hq⟩
    cases h
    exact hq
  · exact fun h ↦ ⟨⟨⟩, g s, rfl, h⟩

theorem wp_bind {Q : β → σ → Prop} :
    wp (x >>= f) Q s ↔ wp x (fun a t ↦ wp (f a) Q t) s := by
  constructor
  · rintro ⟨b, u, h, hq⟩
    obtain ⟨a, t, ht, hu⟩ := bind_ok.mp h
    exact ⟨a, t, ht, b, u, hu, hq⟩
  · rintro ⟨a, t, ht, b, u, hu, hq⟩
    exact ⟨b, u, bind_ok.mpr ⟨a, t, ht, hu⟩, hq⟩

theorem wp_congr {Q' : α → σ → Prop} (h : ∀ a t, x.run s = .ok a t → (Q a t ↔ Q' a t)) :
    wp x Q s ↔ wp x Q' s := by
  constructor
  · rintro ⟨a, t, hr, hq⟩
    exact ⟨a, t, hr, (h a t hr).mp hq⟩
  · rintro ⟨a, t, hr, hq⟩
    exact ⟨a, t, hr, (h a t hr).mpr hq⟩

theorem wp_unit {x : EStateM ε σ Unit} {Q : σ → Prop} :
    (∃ t, x.run s = .ok ⟨⟩ t ∧ Q t) ↔ wp x (fun _ t ↦ Q t) s :=
  ⟨fun ⟨t, h⟩ ↦ ⟨⟨⟩, t, h⟩, fun ⟨_, t, h⟩ ↦ ⟨t, h⟩⟩

/-- What does not depend on the run comes out of its condition. -/
theorem wp_and {c : Prop} : wp x (fun a t ↦ c ∧ Q a t) s ↔ c ∧ wp x Q s := by
  constructor
  · rintro ⟨a, t, hr, hc, hq⟩
    exact ⟨hc, a, t, hr, hq⟩
  · rintro ⟨hc, a, t, hr, hq⟩
    exact ⟨a, t, hr, hc, hq⟩

end Rules

/-- That a program succeeds. -/
def Completes (x : EStateM ε σ α) (s : σ) : Prop := wp x (fun _ _ ↦ True) s

/-- A loop over distinct elements completes when each of its steps would in the state at its
start, where no step changes whether another would. -/
theorem completes_forM {g : α → EStateM ε σ PUnit}
    (hkeep : ∀ a b s t, a ≠ b → (g a).run s = .ok ⟨⟩ t → (Completes (g b) t ↔ Completes (g b) s))
    {l : List α} (hl : l.Nodup) : Completes (forM l g) s ↔ ∀ a ∈ l, Completes (g a) s := by
  induction l generalizing s with
  | nil => exact ⟨fun _ _ ha ↦ absurd ha List.not_mem_nil, fun _ ↦ ⟨⟨⟩, s, rfl, trivial⟩⟩
  | cons a l ih =>
    rw [List.nodup_cons] at hl
    have hrest : ∀ t, (g a).run s = .ok ⟨⟩ t →
        (Completes (forM l g) t ↔ ∀ b ∈ l, Completes (g b) s) := by
      intro t ht
      rw [ih hl.2]
      refine forall₂_congr fun b hb ↦ hkeep a b s t ?_ ht
      rintro rfl
      exact hl.1 hb
    rw [List.forall_mem_cons, List.forM_cons, Completes, wp_bind]
    constructor
    · rintro ⟨⟨⟩, t, ht, hr⟩
      exact ⟨⟨⟨⟩, t, ht, trivial⟩, (hrest t ht).mp hr⟩
    · rintro ⟨⟨⟨⟩, t, ht, -⟩, hr⟩
      exact ⟨⟨⟩, t, ht, (hrest t ht).mpr hr⟩

/-- A second part whose condition is the same after every run of the first. -/
theorem completes_bind {c : Prop} (h : ∀ a t, x.run s = .ok a t → (Completes (f a) t ↔ c)) :
    Completes (x >>= f) s ↔ Completes x s ∧ c := by
  rw [Completes, wp_bind, Completes, and_comm, ← wp_and]
  refine wp_congr fun a t ht ↦ (h a t ht).trans ?_
  simp

/-- What each step of a loop carries on holds of the whole list at its end. -/
theorem forM_trace {R : List α → σ → Prop} {g : α → EStateM ε σ PUnit} {l : List α} {t : σ}
    (hstep : ∀ l' a u v, R l' u → (g a).run u = .ok ⟨⟩ v → R (l' ++ [a]) v) (hs : R [] s)
    (hr : (forM l g).run s = .ok ⟨⟩ t) : R l t := by
  have h : ∀ done, R done s → R (done ++ l) t := by
    clear hs
    induction l generalizing s with
    | nil =>
      cases hr
      exact fun done h ↦ (List.append_nil done).symm ▸ h
    | cons a l ih =>
      obtain ⟨u, hu, ht⟩ := forM_cons_ok.mp hr
      intro done h
      have hrest := ih ht _ (hstep done a s u h hu)
      rwa [List.append_assoc] at hrest
  exact h [] hs

/-- A loop completes when each step would after the steps before it. -/
theorem completes_forM_trace {R : List α → σ → Prop} {P : List α → α → Prop}
    {g : α → EStateM ε σ PUnit} {l : List α}
    (hstep : ∀ l' a u v, R l' u → (g a).run u = .ok ⟨⟩ v → R (l' ++ [a]) v)
    (hc : ∀ l' a u, R l' u → (Completes (g a) u ↔ P l' a)) (hs : R [] s) :
    Completes (forM l g) s ↔ ∀ l₁ a l₂, l = l₁ ++ a :: l₂ → P l₁ a := by
  have h : ∀ done, R done s → (Completes (forM l g) s ↔
      ∀ l₁ a l₂, l = l₁ ++ a :: l₂ → P (done ++ l₁) a) := by
    clear hs
    induction l generalizing s with
    | nil => exact fun done _ ↦ ⟨fun _ l₁ a l₂ he ↦ by simp at he, fun _ ↦ ⟨⟨⟩, s, rfl, trivial⟩⟩
    | cons a l ih =>
      intro done h
      rw [List.forM_cons, Completes, wp_bind]
      constructor
      · rintro ⟨⟨⟩, u, hu, hrest⟩ l₁ b l₂ he
        cases l₁ with
        | nil =>
          cases he
          exact (List.append_nil done).symm ▸ (hc done a s h).mp ⟨⟨⟩, u, hu, trivial⟩
        | cons b' l₁ =>
          cases he
          have hp := (ih _ (hstep done a s u h hu)).mp hrest l₁ b l₂ rfl
          rwa [List.append_assoc] at hp
      · intro hall
        have ha := hall [] a l rfl
        rw [List.append_nil] at ha
        obtain ⟨⟨⟩, u, hu, -⟩ := (hc done a s h).mpr ha
        refine ⟨⟨⟩, u, hu, (ih _ (hstep done a s u h hu)).mpr fun l₁ b l₂ he ↦ ?_⟩
        rw [List.append_assoc]
        exact hall (a :: l₁) b l₂ (congrArg (a :: ·) he)
  exact h [] hs

/-- Every successful run of the first program is one of the second. -/
def Refines (x y : EStateM ε σ α) : Prop := ∀ s a t, x.run s = .ok a t → y.run s = .ok a t

namespace Refines

variable {y : EStateM ε σ α}

theorem refl (x : EStateM ε σ α) : Refines x x := fun _ _ _ h ↦ h

theorem bind {g : α → EStateM ε σ β} (hx : Refines x y) (hf : ∀ a, Refines (f a) (g a)) :
    Refines (x >>= f) (y >>= g) := by
  intro s b u h
  obtain ⟨a, t, ht, hu⟩ := bind_ok.mp h
  exact bind_ok.mpr ⟨a, t, hx s a t ht, hf a t b u hu⟩

/-- A first part that only looks at the state may be left out. -/
theorem drop {z : EStateM ε σ β} (hx : ∀ s a t, x.run s = .ok a t → t = s)
    (hf : ∀ a, Refines (f a) z) : Refines (x >>= f) z := by
  intro s b u h
  obtain ⟨a, t, ht, hu⟩ := bind_ok.mp h
  exact hf a s b u (hx s a t ht ▸ hu)

theorem ite {c : Prop} [Decidable c] {x' y' : EStateM ε σ α} (h : Refines x y)
    (h' : Refines x' y') : Refines (if c then x else x') (if c then y else y') := by
  split
  · exact h
  · exact h'

theorem forM {g g' : α → EStateM ε σ PUnit} (h : ∀ a, Refines (g a) (g' a)) (l : List α) :
    Refines (ForM.forM l g) (ForM.forM l g') := by
  induction l with
  | nil => exact refl _
  | cons a l ih =>
    rw [List.forM_cons, List.forM_cons]
    exact bind (h a) fun _ ↦ ih

end Refines

end Taiyi.Library.Wp
