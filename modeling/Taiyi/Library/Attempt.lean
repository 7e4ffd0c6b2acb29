import Mathlib.Data.List.Forall2
import Mathlib.Data.List.Perm.Basic
import Mathlib.Tactic.Common

set_option autoImplicit false

namespace Taiyi.Library.Attempt

variable {α β γ : Type} {f : α → Option β} {l : List α} {l' : List β}

theorem mapM_cons_some {a : α} :
    (a :: l).mapM f = some l' ↔ ∃ b l₁, f a = some b ∧ l.mapM f = some l₁ ∧ l' = b :: l₁ := by
  rw [List.mapM_cons]
  simp only [Option.bind_eq_bind, Option.bind_eq_some_iff, Option.pure_def, Option.some.injEq]
  constructor
  · rintro ⟨b, hb, l₁, hl, rfl⟩
    exact ⟨b, l₁, hb, hl, rfl⟩
  · rintro ⟨b, l₁, hb, hl, rfl⟩
    exact ⟨b, hb, l₁, hl, rfl⟩

/-- A list of attempts succeeds with the results of each. -/
theorem mapM_some_iff : l.mapM f = some l' ↔ List.Forall₂ (fun a b ↦ f a = some b) l l' := by
  induction l generalizing l' with
  | nil =>
    rw [List.mapM_nil, List.forall₂_nil_left_iff, Option.pure_def, Option.some.injEq, eq_comm]
  | cons a l ih =>
    rw [mapM_cons_some, List.forall₂_cons_left_iff]
    simp only [ih]

theorem mapM_isSome : (l.mapM f).isSome ↔ ∀ a ∈ l, (f a).isSome := by
  induction l with
  | nil => simp
  | cons a l ih =>
    rw [List.forall_mem_cons, ← ih]
    constructor
    · intro h
      obtain ⟨l', hl⟩ := Option.isSome_iff_exists.mp h
      obtain ⟨b, l₁, hb, hl₁, -⟩ := mapM_cons_some.mp hl
      exact ⟨Option.isSome_of_eq_some hb, Option.isSome_of_eq_some hl₁⟩
    · rintro ⟨ha, hl⟩
      obtain ⟨b, hb⟩ := Option.isSome_iff_exists.mp ha
      obtain ⟨l₁, hl₁⟩ := Option.isSome_iff_exists.mp hl
      exact Option.isSome_of_eq_some (mapM_cons_some.mpr ⟨b, l₁, hb, hl₁, rfl⟩)

theorem exists_of_mem_mapM (h : l.mapM f = some l') {b : β} (hb : b ∈ l') : ∃ a ∈ l, f a = some b := by
  have hall := mapM_some_iff.mp h
  clear h
  induction hall with
  | nil => exact absurd hb List.not_mem_nil
  | @cons a b' l l' hab _ ih =>
    obtain rfl | hb := List.mem_cons.mp hb
    · exact ⟨a, List.mem_cons_self, hab⟩
    · obtain ⟨a', ha', hab'⟩ := ih hb
      exact ⟨a', List.mem_cons_of_mem _ ha', hab'⟩

/-- What every single attempt keeps. -/
theorem map_of_mapM {g : α → γ} {g' : β → γ} (h : l.mapM f = some l')
    (hf : ∀ a b, f a = some b → g' b = g a) : l'.map g' = l.map g := by
  have hall := mapM_some_iff.mp h
  induction hall with
  | nil => rfl
  | cons hab _ ih =>
    rw [List.map_cons, List.map_cons, hf _ _ hab, ih (mapM_some_iff.mpr ‹_›)]

theorem forall_of_mapM {P : α → Prop} {Q : β → Prop} (h : l.mapM f = some l')
    (hl : ∀ a ∈ l, P a) (hf : ∀ a b, P a → f a = some b → Q b) : ∀ b ∈ l', Q b := by
  have hall := mapM_some_iff.mp h
  clear h
  induction hall with
  | nil => exact fun _ hb ↦ absurd hb (List.not_mem_nil)
  | cons hab _ ih =>
    rw [List.forall_mem_cons] at hl ⊢
    exact ⟨hf _ _ hl.1 hab, ih hl.2⟩

/-- Attempts that succeed alike, as far as a view of their results goes. -/
theorem mapM_congr_view {f' : α → Option β} {g : β → γ} (h : l.mapM f = some l')
    (hf : ∀ a, (f' a).map g = (f a).map g) : ∃ l₁, l.mapM f' = some l₁ ∧ l₁.map g = l'.map g := by
  induction l generalizing l' with
  | nil =>
    cases h
    exact ⟨[], rfl, rfl⟩
  | cons a l ih =>
    obtain ⟨b, l₁, hb, hl₁, rfl⟩ := mapM_cons_some.mp h
    obtain ⟨l₂, hl₂, hmap⟩ := ih hl₁
    have hview := hf a
    rw [hb, Option.map_some] at hview
    obtain ⟨c, hc, hbc⟩ := Option.map_eq_some_iff.mp hview
    exact ⟨c :: l₂, mapM_cons_some.mpr ⟨c, l₂, hc, hl₂, rfl⟩, by rw [List.map_cons, List.map_cons, hbc, hmap]⟩

/-- A list of attempts in another order succeeds with the results in that order. -/
theorem mapM_perm {l₁ : List α} (hperm : l₁.Perm l) (h : l.mapM f = some l') :
    ∃ l₂, l₁.mapM f = some l₂ ∧ l₂.Perm l' := by
  obtain ⟨l₂, hall, hperm'⟩ := List.perm_comp_forall₂ hperm (mapM_some_iff.mp h)
  exact ⟨l₂, mapM_some_iff.mpr hall, hperm'⟩

/-- A fold that attempts each element folds over the results of the attempts. -/
theorem foldlM_eq_mapM {σ : Type} (g : σ → β → σ) (l : List α) (s : σ) :
    l.foldlM (fun s a ↦ (f a).map (g s)) s = (l.mapM f).map fun l' ↦ l'.foldl g s := by
  induction l generalizing s with
  | nil => rfl
  | cons a l ih =>
    rw [List.foldlM_cons, List.mapM_cons]
    cases f a with
    | none => rfl
    | some b =>
      refine (ih (g s b)).trans ?_
      cases l.mapM f <;> rfl

section Except

variable {ε σ : Type}

theorem bind_eq_ok {x : Except ε α} {f : α → Except ε β} {b : β} :
    (x >>= f) = .ok b ↔ ∃ a, x = .ok a ∧ f a = .ok b := by
  cases x with
  | error e => exact iff_of_false nofun (by rintro ⟨a, ha, -⟩; cases ha)
  | ok a => exact ⟨fun h ↦ ⟨a, rfl, h⟩, by rintro ⟨a', ha, h⟩; cases ha; exact h⟩

theorem map_eq_ok {x : Except ε α} {f : α → β} {b : β} : x.map f = .ok b ↔ ∃ a, x = .ok a ∧ f a = b := by
  cases x with
  | error e => exact iff_of_false nofun (by rintro ⟨a, ha, -⟩; cases ha)
  | ok a =>
    rw [Except.map, Except.ok.injEq]
    exact ⟨fun h ↦ ⟨a, rfl, h⟩, by rintro ⟨a', ha, h⟩; cases ha; exact h⟩

theorem ok_bind (a : α) (f : α → Except ε β) : (Except.ok a >>= f) = f a := rfl

theorem mapM_ok {f : α → Except ε β} {g : α → β} {l : List α} (h : ∀ a ∈ l, f a = .ok (g a)) :
    l.mapM f = .ok (l.map g) := by
  induction l with
  | nil => rfl
  | cons a l ih =>
    rw [List.mapM_cons, h a List.mem_cons_self, ih fun b hb ↦ h b (List.mem_cons_of_mem _ hb)]
    rfl

theorem mapM_ok_mem {f : α → Except ε β} {l : List α} {r : List β} {a : α} (h : l.mapM f = .ok r)
    (ha : a ∈ l) : ∃ b, f a = .ok b := by
  induction l generalizing r with
  | nil => exact absurd ha List.not_mem_nil
  | cons c l ih =>
    rw [List.mapM_cons] at h
    obtain ⟨b, hb, h⟩ := bind_eq_ok.mp h
    obtain ⟨r', hl, -⟩ := bind_eq_ok.mp h
    obtain rfl | hmem := List.mem_cons.mp ha
    · exact ⟨b, hb⟩
    · exact ih hl hmem

theorem foldlM_ok {step : σ → α → Except ε σ} {l : List α} (h : ∀ s, ∀ a ∈ l, ∃ s', step s a = .ok s')
    (s : σ) : ∃ s', l.foldlM step s = .ok s' := by
  induction l generalizing s with
  | nil => exact ⟨s, rfl⟩
  | cons a l ih =>
    obtain ⟨s', hs'⟩ := h s a List.mem_cons_self
    rw [List.foldlM_cons, hs']
    exact ih (fun s b hb ↦ h s b (List.mem_cons_of_mem _ hb)) s'

/-- What is seen of the state follows a fold of its own. -/
theorem view_of_foldlM {step : σ → α → Except ε σ} (view : σ → β) {g : β → α → β}
    (hstep : ∀ s a s', step s a = .ok s' → view s' = g (view s) a) {l : List α} {s s' : σ}
    (h : l.foldlM step s = .ok s') : view s' = l.foldl g (view s) := by
  induction l generalizing s with
  | nil => cases h; rfl
  | cons a l ih =>
    rw [List.foldlM_cons] at h
    obtain ⟨s₁, hs₁, h⟩ := bind_eq_ok.mp h
    rw [List.foldl_cons, ← hstep s a s₁ hs₁]
    exact ih h

end Except

end Taiyi.Library.Attempt
