import Mathlib.Tactic.Common

set_option autoImplicit false

namespace Taiyi.Library.Outcome

variable {ε σ α β : Type}

theorem bind_ok {x : EStateM ε σ α} {f : α → EStateM ε σ β} {s s' : σ} {b : β} :
    (x >>= f).run s = .ok b s' ↔ ∃ a t, x.run s = .ok a t ∧ (f a).run t = .ok b s' := by
  rw [EStateM.run_bind]
  cases x.run s <;> simp

theorem succeeds_bind {x : EStateM ε σ α} {f : α → EStateM ε σ β} {s t : σ} {a : α}
    (hx : x.run s = .ok a t) (hf : ∃ b u, (f a).run t = .ok b u) :
    ∃ b u, (x >>= f).run s = .ok b u := by
  obtain ⟨b, u, hu⟩ := hf
  exact ⟨b, u, bind_ok.mpr ⟨a, t, hx, hu⟩⟩

/-- Whether a run succeeds, as a test. -/
def succeeds (x : EStateM ε σ α) (s : σ) : Bool :=
  match x.run s with
  | .ok _ _ => true
  | .error _ _ => false

theorem ok_of_succeeds {x : EStateM ε σ α} {s : σ} (h : succeeds x s = true) :
    ∃ a t, x.run s = .ok a t := by
  unfold succeeds at h
  split at h
  · next a t ht => exact ⟨a, t, ht⟩
  · cases h

theorem forM_cons_ok {f : α → EStateM ε σ PUnit} {a : α} {l : List α} {s s' : σ} :
    (forM (a :: l) f).run s = .ok ⟨⟩ s' ↔
      ∃ t, (f a).run s = .ok ⟨⟩ t ∧ (forM l f).run t = .ok ⟨⟩ s' := by
  rw [List.forM_cons, bind_ok]
  exact ⟨fun ⟨_, t, h⟩ ↦ ⟨t, h⟩, fun ⟨t, h⟩ ↦ ⟨⟨⟩, t, h⟩⟩

theorem forM_append_ok {f : α → EStateM ε σ PUnit} {l l' : List α} {s s' : σ} :
    (forM (l ++ l') f).run s = .ok ⟨⟩ s' ↔
      ∃ t, (forM l f).run s = .ok ⟨⟩ t ∧ (forM l' f).run t = .ok ⟨⟩ s' := by
  rw [List.forM_append, bind_ok]
  exact ⟨fun ⟨_, t, h⟩ ↦ ⟨t, h⟩, fun ⟨t, h⟩ ↦ ⟨⟨⟩, t, h⟩⟩

/-- An invariant of every successful step is an invariant of every successful run. -/
theorem forM_preserves {f : α → EStateM ε σ PUnit} (P : σ → Prop)
    (hstep : ∀ a s s', P s → (f a).run s = .ok ⟨⟩ s' → P s') {l : List α} {s s' : σ}
    (hs : P s) (hr : (forM l f).run s = .ok ⟨⟩ s') : P s' := by
  induction l generalizing s with
  | nil =>
    rw [List.forM_nil, EStateM.run_pure] at hr
    cases hr
    exact hs
  | cons a l ih =>
    obtain ⟨t, ht, hr⟩ := forM_cons_ok.mp hr
    exact ih (hstep a s t hs ht) hr

/-- A run succeeds when every step does from the states that the steps before it lead to. -/
theorem forM_succeeds {f : α → EStateM ε σ PUnit} (P : σ → Prop) {l : List α}
    (hstep : ∀ a ∈ l, ∀ s, P s → ∃ s', (f a).run s = .ok ⟨⟩ s' ∧ P s') {s : σ} (hs : P s) :
    ∃ s', (forM l f).run s = .ok ⟨⟩ s' ∧ P s' := by
  induction l generalizing s with
  | nil => exact ⟨s, rfl, hs⟩
  | cons a l ih =>
    obtain ⟨t, ht, hp⟩ := hstep a List.mem_cons_self s hs
    obtain ⟨u, hu, hp⟩ := ih (fun b hb ↦ hstep b (List.mem_cons_of_mem _ hb)) hp
    exact ⟨u, forM_cons_ok.mpr ⟨t, ht, hu⟩, hp⟩

end Taiyi.Library.Outcome

/-! Conditions on both ends of a program: the state it succeeds in and the state it throws in. -/

namespace Taiyi.Library.Ends

variable {ε σ α β : Type}

/-- A program that succeeds ends as the first condition asks, one that throws as the second. -/
def ends (x : EStateM ε σ α) (Q : α → σ → Prop) (E : σ → Prop) (s : σ) : Prop :=
  match x.run s with
  | .ok a t => Q a t
  | .error _ t => E t

section Rules

variable {Q : α → σ → Prop} {E : σ → Prop} {s : σ}

theorem ends_pure {a : α} : ends (pure a : EStateM ε σ α) Q E s ↔ Q a s := Iff.rfl

theorem ends_throw {e : ε} : ends (throw e : EStateM ε σ α) Q E s ↔ E s := Iff.rfl

theorem ends_get {Q : σ → σ → Prop} : ends (get : EStateM ε σ σ) Q E s ↔ Q s s := Iff.rfl

theorem ends_modify {Q : PUnit → σ → Prop} {g : σ → σ} :
    ends (modify g : EStateM ε σ PUnit) Q E s ↔ Q ⟨⟩ (g s) := Iff.rfl

theorem ends_bind {x : EStateM ε σ α} {f : α → EStateM ε σ β} {Q : β → σ → Prop} :
    ends (x >>= f) Q E s ↔ ends x (fun a t ↦ ends (f a) Q E t) E s := by
  unfold ends
  rw [EStateM.run_bind]
  cases x.run s <;> rfl

theorem ends_mono {x : EStateM ε σ α} {Q' : α → σ → Prop} {E' : σ → Prop} (h : ends x Q E s)
    (hq : ∀ a t, Q a t → Q' a t) (he : ∀ t, E t → E' t) : ends x Q' E' s := by
  unfold ends at h ⊢
  cases hr : x.run s with
  | ok a t => rw [hr] at h; exact hq a t h
  | error e t => rw [hr] at h; exact he t h

end Rules

/-- The state after a program, also when it throws. -/
def after (x : EStateM ε σ α) (s : σ) : σ :=
  match x.run s with
  | .ok _ t => t
  | .error _ t => t

theorem after_of_ends {x : EStateM ε σ α} {Q : α → σ → Prop} {E P : σ → Prop} {s : σ}
    (h : ends x Q E s) (hq : ∀ a t, Q a t → P t) (he : ∀ t, E t → P t) : P (after x s) := by
  unfold ends at h
  unfold after
  cases hr : x.run s with
  | ok a t => rw [hr] at h; exact hq a t h
  | error e t => rw [hr] at h; exact he t h

end Taiyi.Library.Ends
