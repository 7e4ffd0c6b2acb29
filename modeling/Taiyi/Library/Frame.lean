import Mathlib.Order.Defs.Unbundled
import Taiyi.Library.Meter

set_option autoImplicit false

namespace Taiyi.Library.Frame

open Outcome Meter

variable {ε σ α β γ δ : Type} {view : σ → γ} {x : EStateM ε σ α} {f : α → EStateM ε σ β}

/-- Every successful run of the program leaves a part of the state as it is. -/
def Keeps (view : σ → γ) (x : EStateM ε σ α) : Prop :=
  ∀ s a t, x.run s = .ok a t → view t = view s

namespace Keeps

theorem pure (a : α) : Keeps view (Pure.pure a : EStateM ε σ α) := by
  intro s b t h
  rw [EStateM.run_pure] at h
  cases h
  rfl

theorem throw (err : ε) : Keeps view (MonadExcept.throw err : EStateM ε σ α) := by
  intro s b t h
  cases h

theorem get : Keeps view (MonadState.get : EStateM ε σ σ) := by
  intro s b t h
  cases h
  rfl

theorem update {g : σ → σ} (h : ∀ s, view (g s) = view s) :
    Keeps view (modify g : EStateM ε σ PUnit) := by
  intro s b t hr
  cases hr
  exact h s

theorem bind (hx : Keeps view x) (hf : ∀ a, Keeps view (f a)) : Keeps view (x >>= f) := by
  intro s b t h
  obtain ⟨a, u, hu, ht⟩ := bind_ok.mp h
  exact (hf a u b t ht).trans (hx s a u hu)

theorem ite {c : Prop} [Decidable c] {y : EStateM ε σ α} (hx : c → Keeps view x)
    (hy : ¬c → Keeps view y) : Keeps view (if c then x else y) := by
  split
  · next h => exact hx h
  · next h => exact hy h

theorem forM {g : α → EStateM ε σ PUnit} {l : List α} (h : ∀ a ∈ l, Keeps view (g a)) :
    Keeps view (ForM.forM l g) := by
  induction l with
  | nil => exact pure _
  | cons a l ih =>
    intro s b t hr
    obtain ⟨u, hu, ht⟩ := forM_cons_ok.mp hr
    exact (ih (fun a' ha' ↦ h a' (List.mem_cons_of_mem _ ha')) u ⟨⟩ t ht).trans
      (h a List.mem_cons_self s ⟨⟩ u hu)

/-- A successful run that writes nothing ends where it began. -/
theorem in_place (hx : Keeps id x) {s : σ} (h : ∃ a t, x.run s = .ok a t) :
    ∃ a, x.run s = .ok a s := by
  obtain ⟨a, t, ht⟩ := h
  cases hx s a t ht
  exact ⟨a, ht⟩

/-- A run of checks that write nothing is passed when each check is passed. -/
theorem forM_all {g : α → EStateM ε σ PUnit} {l : List α} (h : ∀ a, Keeps id (g a)) {s t : σ}
    (hr : (ForM.forM l g).run s = .ok ⟨⟩ t) : t = s ∧ ∀ a ∈ l, (g a).run s = .ok ⟨⟩ s := by
  induction l with
  | nil =>
    cases hr
    exact ⟨rfl, fun _ ha ↦ nomatch ha⟩
  | cons a l ih =>
    obtain ⟨u, hu, ht⟩ := forM_cons_ok.mp hr
    cases h a _ _ _ hu
    obtain ⟨he, hall⟩ := ih ht
    refine ⟨he, fun b hb ↦ ?_⟩
    rcases List.mem_cons.mp hb with rfl | hb
    · exact hu
    · exact hall b hb

/-- What is kept is kept in any view of it. -/
theorem comp (hx : Keeps view x) (g : γ → δ) : Keeps (fun s ↦ g (view s)) x :=
  fun s a t h ↦ congrArg g (hx s a t h)

theorem shifts {M : Type} [AddCommGroup M] {m : σ → M} (hx : Keeps m x) : Shifts m x 0 :=
  fun s a t h ↦ (hx s a t h).trans (add_zero _).symm

end Keeps

/-- The state that a program leaves behind, also when it throws. -/
def after (x : EStateM ε σ α) (s : σ) : σ :=
  match x.run s with
  | .ok _ t => t
  | .error _ t => t

theorem after_ok {s t : σ} {a : α} (h : x.run s = .ok a t) : after x s = t := by
  rw [after, h]

theorem after_error {s t : σ} {err : ε} (h : x.run s = .error err t) : after x s = t := by
  rw [after, h]

/-- The program as one that never throws, but tells how it ended. -/
def attempt (x : EStateM ε σ α) : EStateM ε σ (Except ε α) := fun s ↦
  match x.run s with
  | .ok a t => .ok (.ok a) t
  | .error err t => .ok (.error err) t

theorem after_attempt (x : EStateM ε σ α) (s : σ) : after (attempt x) s = after x s := by
  unfold after attempt EStateM.run
  dsimp only
  cases x s <;> rfl

theorem attempt_ok {s t : σ} {a : α} (h : x.run s = .ok a t) :
    (attempt x).run s = .ok (.ok a) t := by
  change (match x.run s with | .ok a t => _ | .error err t => _) = _
  rw [h]

theorem attempt_error {s t : σ} {err : ε} (h : x.run s = .error err t) :
    (attempt x).run s = .ok (.error err) t := by
  change (match x.run s with | .ok a t => _ | .error err t => _) = _
  rw [h]

theorem after_bind_ok {s t : σ} {a : α} (h : x.run s = .ok a t) :
    after (x >>= f) s = after (f a) t := by
  simp only [after, EStateM.run_bind, h]

theorem after_bind_error {s t : σ} {err : ε} (h : x.run s = .error err t) :
    after (x >>= f) s = t := by
  simp only [after, EStateM.run_bind, h]

/-- Every run of the program, also one that throws, moves the state along a relation. -/
def Moves (R : σ → σ → Prop) (x : EStateM ε σ α) : Prop := ∀ s, R s (after x s)

/-- The states agree in a view of them. -/
def Same (view : σ → γ) (s t : σ) : Prop := view t = view s

/-- What is so of the first state is so of the second. -/
def Holds (P : σ → Prop) (s t : σ) : Prop := P s → P t

instance : IsPreorder σ (Same view) where
  refl _ := rfl
  trans _ _ _ h h' := h'.trans h

instance {P : σ → Prop} : IsPreorder σ (Holds P) where
  refl _ := id
  trans _ _ _ h h' := h' ∘ h

namespace Moves

variable {R R' : σ → σ → Prop}

theorem mono (hx : Moves R x) (h : ∀ s t, R s t → R' s t) : Moves R' x := fun s ↦ h _ _ (hx s)

theorem update {g : σ → σ} (h : ∀ s, R s (g s)) : Moves R (modify g : EStateM ε σ PUnit) :=
  fun s ↦ h s

theorem ite {c : Prop} [Decidable c] {y : EStateM ε σ α} (hx : c → Moves R x)
    (hy : ¬c → Moves R y) : Moves R (if c then x else y) := by
  split
  · next h => exact hx h
  · next h => exact hy h

theorem attempt (hx : Moves R x) : Moves R (attempt x) := fun s ↦ (after_attempt x s).symm ▸ hx s

variable [IsPreorder σ R]

theorem pure (a : α) : Moves R (Pure.pure a : EStateM ε σ α) := fun s ↦ refl_of R s

theorem throw (err : ε) : Moves R (MonadExcept.throw err : EStateM ε σ α) := fun s ↦ refl_of R s

theorem get : Moves R (MonadState.get : EStateM ε σ σ) := fun s ↦ refl_of R s

/-- A sequence from one state: what comes second is looked at where the first part ends. -/
theorem bind_at {s : σ} (hx : R s (after x s))
    (hf : ∀ a t, x.run s = .ok a t → R t (after (f a) t)) : R s (after (x >>= f) s) := by
  cases hr : x.run s with
  | ok a t =>
    rw [after_bind_ok hr]
    exact trans_of R (after_ok hr ▸ hx) (hf a t hr)
  | error err t =>
    rw [after_bind_error hr]
    exact after_error hr ▸ hx

/-- What comes after a part that only reads. -/
theorem read_at (hx : Moves (Same id) x) {s : σ}
    (hf : ∀ a, x.run s = .ok a s → R s (after (f a) s)) : R s (after (x >>= f) s) := by
  have hs : after x s = s := hx s
  have hr : R s (after x s) := hs.symm ▸ refl_of R s
  refine bind_at hr fun a t ht ↦ ?_
  obtain rfl : t = s := (after_ok ht).symm.trans hs
  exact hf a ht

theorem bind (hx : Moves R x) (hf : ∀ a, Moves R (f a)) : Moves R (x >>= f) :=
  fun s ↦ bind_at (hx s) fun a t _ ↦ hf a t

theorem forM {g : α → EStateM ε σ PUnit} {l : List α} (h : ∀ a ∈ l, Moves R (g a)) :
    Moves R (ForM.forM l g) := by
  induction l with
  | nil => exact pure _
  | cons a l ih =>
    exact bind (h a List.mem_cons_self) fun _ ↦ ih fun b hb ↦ h b (List.mem_cons_of_mem _ hb)

end Moves

theorem Moves.ends {R : σ → σ → Prop} {s t : σ} {a : α} (hx : Moves R x)
    (h : x.run s = .ok a t) : R s t := after_ok h ▸ hx s

theorem Moves.keeps (hx : Moves (Same view) x) : Keeps view x :=
  fun s _ _ h ↦ after_ok h ▸ hx s

/-- What is so whenever the program throws. -/
def Throws (P : ε → σ → Prop) (x : EStateM ε σ α) : Prop :=
  ∀ s err t, x.run s = .error err t → P err t

namespace Throws

variable {P : ε → σ → Prop}

theorem pure (a : α) : Throws P (Pure.pure a : EStateM ε σ α) := by
  intro s err t h
  cases h

theorem get : Throws P (MonadState.get : EStateM ε σ σ) := by
  intro s err t h
  cases h

theorem update {g : σ → σ} : Throws P (modify g : EStateM ε σ PUnit) := by
  intro s err t h
  cases h

theorem throw {err : ε} (h : ∀ s, P err s) :
    Throws P (MonadExcept.throw err : EStateM ε σ α) := by
  intro s err t hr
  cases hr
  exact h s

theorem attempt : Throws P (attempt x) := by
  intro s err t h
  unfold Frame.attempt EStateM.run at h
  dsimp only at h
  split at h <;> cases h

theorem bind_at {s : σ} (hx : ∀ err t, x.run s = .error err t → P err t)
    (hf : ∀ a t, x.run s = .ok a t → ∀ err u, (f a).run t = .error err u → P err u) :
    ∀ err t, (x >>= f).run s = .error err t → P err t := by
  intro err t h
  rw [EStateM.run_bind] at h
  cases hr : x.run s with
  | ok a u =>
    rw [hr] at h
    exact hf a u hr err t h
  | error e u =>
    rw [hr] at h
    injection h with he hu
    subst he hu
    exact hx _ _ hr

theorem bind (hx : Throws P x) (hf : ∀ a, Throws P (f a)) : Throws P (x >>= f) :=
  fun s ↦ bind_at (hx s) fun a t _ ↦ hf a t

theorem ite {c : Prop} [Decidable c] {y : EStateM ε σ α} (hx : c → Throws P x)
    (hy : ¬c → Throws P y) : Throws P (if c then x else y) := by
  split
  · next h => exact hx h
  · next h => exact hy h

end Throws

end Taiyi.Library.Frame
