import Taiyi.Library.Attempt
import Taiyi.Schedule.Active

set_option autoImplicit false

namespace Taiyi.Schedule

open Library.Attempt Ledger

/-- The data of a siming that an update of the schedule leaves alone. -/
def Siming.fixed (x : Siming) : ℕ × ℕ × Option ℕ × ℤ := (x.id, x.owner, x.signingKey, x.adores)

def State.fixed (s : State) : List (ℕ × ℕ × Option ℕ × ℤ) := s.simings.map Siming.fixed

section Fixed

variable {s t : State} {x y : Siming} {p : Siming → Bool} {f : Siming → Siming}

theorem fixed_modifySimings (h : ∀ x, (f x).fixed = x.fixed) :
    (s.modifySimings p f).fixed = s.fixed := by
  unfold State.fixed State.modifySimings
  rw [List.map_map]
  refine List.map_congr_left fun x _ ↦ ?_
  rw [Function.comp_apply]
  split
  · exact h x
  · rfl

/-- What holds of the fixed data of all simings holds after they are rewritten. -/
theorem forall_of_fixed {P : ℕ × ℕ × Option ℕ × ℤ → Prop} (h : t.fixed = s.fixed) :
    (∀ x ∈ t.simings, P x.fixed) ↔ ∀ x ∈ s.simings, P x.fixed := by
  rw [← List.forall_mem_map, ← List.forall_mem_map (f := Siming.fixed)]
  unfold State.fixed at h
  rw [h]

theorem owners_of_fixed (h : t.fixed = s.fixed) :
    t.simings.map Siming.owner = s.simings.map Siming.owner := by
  have := congrArg (List.map fun d ↦ d.2.1) h
  simpa only [State.fixed, List.map_map, Function.comp_def, Siming.fixed] using this

theorem ids_of_fixed (h : t.fixed = s.fixed) :
    t.simings.map Siming.id = s.simings.map Siming.id := by
  have := congrArg (List.map fun d ↦ d.1) h
  simpa only [State.fixed, List.map_map, Function.comp_def, Siming.fixed] using this

end Fixed

/-- What the code relies on of the division of `uint128`. -/
structure Divides (divide : ℕ → ℕ → Option ℕ) : Prop where
  quotient : ∀ a b, b ≠ 0 → divide a b = some (a / b)
  range : ∀ a b q, a ≤ lapLength → divide a b = some q → q ≤ lapLength

section Restart

variable {divide : ℕ → ℕ → Option ℕ} {now now' : ℕ} {ps : List Siming} {s t : State}
  {x y : Siming} {overflow : Bool}

theorem lapTime_congr (h : y.adores = x.adores) : y.lapTime divide = x.lapTime divide := by
  rw [Siming.lapTime, Siming.lapTime, h]

/-- A siming that begins a lap at a virtual time. -/
structure Siming.Begins (divide : ℕ → ℕ → Option ℕ) (now : ℕ) (x : Siming) : Prop where
  position : x.virtualPosition = 0
  lastUpdate : x.virtualLastUpdate = now
  scheduled : ∃ lap, x.lapTime divide = some lap ∧ x.virtualScheduledTime = now + lap ∧
    now + lap < 2 ^ 128

theorem restartAll_fixed (h : restartAll divide now ps s = some (t, overflow)) :
    t.fixed = s.fixed ∧ t.wso = s.wso := by
  induction ps generalizing s with
  | nil =>
    cases h
    exact ⟨rfl, rfl⟩
  | cons p ps ih =>
    obtain ⟨lap, -, h⟩ := Option.bind_eq_some_iff.mp h
    dsimp only at h
    split at h
    · cases h
      exact ⟨rfl, rfl⟩
    · obtain ⟨hf, hw⟩ := ih h
      exact ⟨hf.trans (fixed_modifySimings fun _ ↦ rfl), hw⟩

theorem restartAll_isSome (h : ∀ p ∈ ps, (p.lapTime divide).isSome) :
    (restartAll divide now ps s).isSome := by
  induction ps generalizing s with
  | nil => rfl
  | cons p ps ih =>
    rw [List.forall_mem_cons] at h
    obtain ⟨lap, hlap⟩ := Option.isSome_iff_exists.mp h.1
    rw [restartAll, hlap]
    dsimp only [Option.bind_eq_bind, Option.bind_some]
    split
    · rfl
    · exact ih h.2

theorem lapTime_of_restartAll (h : restartAll divide now ps s = some (t, false)) :
    ∀ p ∈ ps, (p.lapTime divide).isSome := by
  induction ps generalizing s with
  | nil => exact fun _ hp ↦ absurd hp List.not_mem_nil
  | cons p ps ih =>
    obtain ⟨lap, hlap, h⟩ := Option.bind_eq_some_iff.mp h
    dsimp only at h
    split at h
    · cases h
    · exact List.forall_mem_cons.mpr ⟨Option.isSome_of_eq_some hlap, ih h⟩

/-- Without an overflow every processed siming begins a lap, and the others stay. -/
theorem begins_of_restartAll (hdiv : Divides divide) (hnow : now ≤ lapLength)
    (hps : ∀ p ∈ ps, ∀ x ∈ s.simings, x.id = p.id → x.adores = p.adores)
    (h : restartAll divide now ps s = some (t, false)) :
    ∀ y ∈ t.simings, y.Begins divide now ∨ y.id ∉ ps.map Siming.id ∧ y ∈ s.simings := by
  induction ps generalizing s with
  | nil =>
    cases h
    exact fun y hy ↦ .inr ⟨List.not_mem_nil, hy⟩
  | cons p ps ih =>
    obtain ⟨lap, hlap, h⟩ := Option.bind_eq_some_iff.mp h
    dsimp only at h
    split at h
    · cases h
    · next hle =>
      have hrange := hdiv.range _ _ _ le_rfl hlap
      unfold lapLength at hnow hrange
      have hfits : now + lap < 2 ^ 128 := by omega
      rw [List.forall_mem_cons] at hps
      have hrows : ∀ y ∈ (s.modifySimings (fun x ↦ x.id = p.id) fun x ↦
          x.restart now ((now + lap) % 2 ^ 128)).simings,
          y.Begins divide now ∨ y.id ≠ p.id ∧ y ∈ s.simings := by
        intro y hy
        obtain ⟨x, hx, rfl⟩ := List.mem_map.mp hy
        by_cases hid : x.id = p.id
        · rw [if_pos (decide_eq_true hid), Nat.mod_eq_of_lt hfits]
          exact .inl ⟨rfl, rfl, lap, (lapTime_congr (hps.1 x hx hid)).trans hlap, rfl, hfits⟩
        · rw [if_neg (by simpa using hid)]
          exact .inr ⟨hid, hx⟩
      have hlater : ∀ q ∈ ps, ∀ y ∈ (s.modifySimings (fun x ↦ x.id = p.id) fun x ↦
          x.restart now ((now + lap) % 2 ^ 128)).simings, y.id = q.id → y.adores = q.adores := by
        intro q hq y hy hid
        obtain ⟨x, hx, rfl⟩ := List.mem_map.mp hy
        have hsame := hps.2 q hq x hx
        by_cases hp : x.id = p.id
        · rw [if_pos (decide_eq_true hp)] at hid ⊢
          exact hsame hid
        · rw [if_neg (by simpa using hp)] at hid ⊢
          exact hsame hid
      intro y hy
      rcases ih hlater h y hy with hb | ⟨hid, hmem⟩
      · exact .inl hb
      · exact (hrows y hmem).imp_right fun ⟨hne, hmem⟩ ↦
          ⟨fun hcons ↦ (List.mem_cons.mp hcons).elim hne hid, hmem⟩

theorem reset_spec (h : resetVirtualScheduleTime divide s = some t) :
    t.fixed = s.fixed ∧ t.wso = { s.wso with currentVirtualTime := 0 } ∧
      ∀ y ∈ t.simings, ∃ lap, y.lapTime divide = some lap ∧ y.virtualPosition = 0 ∧
        y.virtualLastUpdate = 0 ∧ y.virtualScheduledTime = lap := by
  obtain ⟨simings, hmap, h⟩ := Option.bind_eq_some_iff.mp h
  cases h
  refine ⟨map_of_mapM hmap fun x y hxy ↦ ?_, rfl,
    forall_of_mapM (P := fun _ ↦ True) hmap (fun _ _ ↦ trivial) fun x y _ hxy ↦ ?_⟩
  · obtain ⟨lap, -, rfl⟩ := Option.map_eq_some_iff.mp hxy
    rfl
  · obtain ⟨lap, hlap, rfl⟩ := Option.map_eq_some_iff.mp hxy
    exact ⟨lap, hlap, rfl, rfl, rfl⟩

theorem reset_isSome :
    (resetVirtualScheduleTime divide s).isSome ↔ ∀ x ∈ s.simings, (x.lapTime divide).isSome := by
  have hmap : (s.simings.mapM fun x : Siming ↦ (x.lapTime divide).map (x.restart 0)).isSome ↔
      ∀ x ∈ s.simings, (x.lapTime divide).isSome := by
    rw [mapM_isSome]
    simp only [Option.isSome_map]
  rw [← hmap, resetVirtualScheduleTime]
  cases s.simings.mapM (fun x : Siming ↦ (x.lapTime divide).map (x.restart 0)) <;> simp

theorem laps_of_fixed (h : t.fixed = s.fixed) :
    (∀ x ∈ t.simings, (x.lapTime divide).isSome) ↔ ∀ x ∈ s.simings, (x.lapTime divide).isSome :=
  forall_of_fixed (P := fun d ↦ (divide lapLength (toUint128 (d.2.2.2 + 1))).isSome) h

variable {v : ℕ}

theorem advance_fixed (h : advanceVirtualTime divide ps now s = some (t, v)) :
    t.fixed = s.fixed ∧ ∃ c, t.wso = { s.wso with currentVirtualTime := c } := by
  obtain ⟨⟨u, overflow⟩, hr, h⟩ := Option.bind_eq_some_iff.mp h
  obtain ⟨hf, hw⟩ := restartAll_fixed hr
  dsimp only at h
  split at h
  · obtain ⟨u', hu, he⟩ := Option.map_eq_some_iff.mp h
    cases he
    obtain ⟨hf', hw', -⟩ := reset_spec hu
    exact ⟨hf'.trans hf, 0, hw'.trans (hw ▸ rfl)⟩
  · cases h
    exact ⟨hf, s.wso.currentVirtualTime, hw⟩

/-- An advance of all simings succeeds when the lap of each can be computed. -/
theorem advance_isSome (hps : ∀ x ∈ s.simings, ∃ p ∈ ps, p.adores = x.adores)
    (hps' : ∀ p ∈ ps, ∃ x ∈ s.simings, x.adores = p.adores) :
    (advanceVirtualTime divide ps now s).isSome ↔ ∀ x ∈ s.simings, (x.lapTime divide).isSome := by
  constructor
  · intro h
    obtain ⟨⟨t, v⟩, h⟩ := Option.isSome_iff_exists.mp h
    obtain ⟨⟨u, overflow⟩, hr, h⟩ := Option.bind_eq_some_iff.mp h
    cases overflow with
    | true =>
      obtain ⟨u', hu, -⟩ := Option.map_eq_some_iff.mp h
      exact (laps_of_fixed (restartAll_fixed hr).1).mp
        (reset_isSome.mp (Option.isSome_of_eq_some hu))
    | false =>
      intro x hx
      obtain ⟨p, hp, ha⟩ := hps x hx
      have hlap : p.lapTime divide = x.lapTime divide := lapTime_congr ha
      exact hlap ▸ lapTime_of_restartAll hr p hp
  · intro h
    have hlaps : ∀ p ∈ ps, (p.lapTime divide).isSome := fun p hp ↦ by
      obtain ⟨x, hx, ha⟩ := hps' p hp
      have hlap : x.lapTime divide = p.lapTime divide := lapTime_congr ha
      exact hlap ▸ h x hx
    obtain ⟨⟨u, overflow⟩, hr⟩ := Option.isSome_iff_exists.mp
      (restartAll_isSome hlaps : (restartAll divide now ps s).isSome)
    rw [advanceVirtualTime, hr]
    dsimp only [Option.bind_eq_bind, Option.bind_some]
    split
    · rw [Option.isSome_map, reset_isSome]
      exact (laps_of_fixed (restartAll_fixed hr).1).mpr h
    · rfl

end Restart

end Taiyi.Schedule
