import Taiyi.Schedule.Run

set_option autoImplicit false

namespace Taiyi.Schedule

open Ledger

section Rewrites

variable {s t : State} {p : Siming → Bool} {f : Siming → Siming} {x y : Siming} {owner : ℕ}

theorem registered_iff {slot : Option ℕ} :
    (∃ x ∈ s.simings, slot = some x.owner) ↔ slot ∈ (s.simings.map Siming.owner).map some := by
  simp only [List.map_map, List.mem_map, Function.comp_apply, eq_comm]

/-- Rows that keep their ids and names. -/
theorem Consistent.congr (hs : Consistent s)
    (hids : t.simings.map Siming.id = s.simings.map Siming.id)
    (howners : t.simings.map Siming.owner = s.simings.map Siming.owner)
    (hmax : t.wso.maxAdoredSimings = s.wso.maxAdoredSimings)
    (hslots : t.wso.currentShuffledSimings.toList.take t.wso.numScheduledSimings =
      s.wso.currentShuffledSimings.toList.take s.wso.numScheduledSimings) : Consistent t where
  ids := hids ▸ hs.ids
  owners := howners ▸ hs.owners
  maxAdored := hmax.trans hs.maxAdored
  slots slot hslot := by
    rw [registered_iff, howners, ← registered_iff]
    exact hs.slots slot (hslots ▸ hslot)

theorem map_modifySimings {β : Type} {g : Siming → β}
    (h : ∀ x ∈ s.simings, p x = true → g (f x) = g x) :
    (s.modifySimings p f).simings.map g = s.simings.map g := by
  unfold State.modifySimings
  rw [List.map_map]
  refine List.map_congr_left fun x hx ↦ ?_
  rw [Function.comp_apply]
  split
  · exact h x hx ‹_›
  · rfl

theorem forall_modifySimings {P : Siming → Prop} (hs : ∀ x ∈ s.simings, P x)
    (h : ∀ x ∈ s.simings, p x = true → P (f x)) :
    ∀ y ∈ (s.modifySimings p f).simings, P y := by
  intro y hy
  obtain ⟨x, hx, rfl⟩ := List.mem_map.mp hy
  split
  · exact h x hx ‹_›
  · exact hs x hx

theorem getSiming_some (h : s.getSiming (some owner) = some x) :
    x ∈ s.simings ∧ x.owner = owner :=
  ⟨List.mem_of_find?_eq_some h, by simpa using List.find?_some h⟩

/-- No two simings have one name. -/
theorem eq_of_owner (hs : Consistent s) (hx : x ∈ s.simings) (hy : y ∈ s.simings)
    (h : x.owner = y.owner) : x = y := List.inj_on_of_nodup_map hs.owners hx hy h

end Rewrites

section Step

variable {divide : ℕ → ℕ → Option ℕ} {s t : State} {time n : ℕ}

/-- A new siming waits until it is adored or the virtual time is reset. -/
theorem onTime_new (hdiv : Divides divide) {x : Siming} {now : ℕ} (hnow : now ≤ lapLength)
    (hx : x.toSiming = {}) : x.OnTime divide now := by
  have hone : toUint128 (0 + 1) = 1 := by decide
  refine ⟨?_, ?_, ?_, .inl ?_, lapLength, ?_, ?_⟩ <;> rw [hx]
  · exact Nat.zero_le _
  · exact hnow
  · rw [hone, hdiv.quotient _ _ one_ne_zero, Nat.sub_zero, Nat.div_one]
  · exact (min_eq_left (Nat.le_add_left _ _)).symm

theorem Timely.modify {p : Siming → Bool} {f : Siming → Siming} (h : Timely divide s)
    (hf : ∀ x ∈ s.simings, p x = true → (f x).id = x.id ∧ (f x).owner = x.owner ∧
      (f x).OnTime divide s.wso.currentVirtualTime) : Timely divide (s.modifySimings p f) where
  consistent := h.consistent.congr (map_modifySimings fun x hx hp ↦ (hf x hx hp).1)
    (map_modifySimings fun x hx hp ↦ (hf x hx hp).2.1) rfl rfl
  numbered := by
    rw [map_modifySimings fun x hx hp ↦ (hf x hx hp).1, h.numbered, State.modifySimings,
      List.length_map]
  bound := h.bound
  simings := forall_modifySimings h.simings fun x hx hp ↦ (hf x hx hp).2.2

theorem Timely.register (hdiv : Divides divide) (h : Timely divide s) {owner : ℕ}
    {signingKey : Option ℕ} {props : ChainProperties}
    (hnew : s.simings.any (·.owner = owner) = false) :
    Timely divide { s with
      simings := s.simings ++ [{ id := s.simings.length, owner, signingKey, props }] } where
  consistent :=
    { ids := by
        rw [List.map_append, h.numbered, List.map_singleton, ← List.range_succ]
        exact List.nodup_range
      owners := by
        rw [List.map_append, List.nodup_append]
        refine ⟨h.consistent.owners, List.nodup_singleton _, ?_⟩
        rintro o ho _ hmem rfl
        obtain ⟨x, hx, rfl⟩ := List.mem_map.mp ho
        have := List.any_eq_false.mp hnew x hx
        simp at hmem
        simp [hmem] at this
      maxAdored := h.consistent.maxAdored
      slots := fun slot hslot ↦ by
        obtain ⟨x, hx, rfl⟩ := h.consistent.slots slot hslot
        exact ⟨x, List.mem_append_left _ hx, rfl⟩ }
  numbered := by
    rw [List.map_append, h.numbered, List.length_append, List.map_singleton, List.length_singleton,
      List.range_succ]
  bound := h.bound
  simings := by
    intro x hx
    rcases List.mem_append.mp hx with hx | hx
    · exact h.simings x hx
    · obtain rfl := List.mem_singleton.mp hx
      exact onTime_new hdiv h.bound rfl

/-- A full reset, after which every siming begins its first lap. -/
structure State.Reset (divide : ℕ → ℕ → Option ℕ) (t : State) : Prop where
  time : t.wso.currentVirtualTime = 0
  simings : ∀ y ∈ t.simings, y.Begins divide 0

/-- Virtual time goes to the end of a lap, which is not behind it. -/
theorem newVirtualTime_bounds (h : Timely divide s) :
    s.wso.currentVirtualTime ≤ s.newVirtualTime ∧ s.newVirtualTime ≤ lapLength := by
  unfold State.newVirtualTime
  cases hlast : s.processed.getLast? with
  | none => exact ⟨le_rfl, h.bound⟩
  | some x =>
    have hx := h.simings x (mem_sorted.mp (lead_initial.subset (List.mem_of_getLast? hlast)))
    exact ⟨hx.scheduled, hx.bound⟩

/-- What an update does to virtual time: nothing with a full schedule of adored simings, else
every siming begins a lap at the last scheduled time, or at 0 after a reset. -/
theorem advance_cases (hdiv : Divides divide) (h : Timely divide s) {u : State} {v : ℕ}
    (hu : advanceVirtualTime divide s.processed s.newVirtualTime s.marked = some (u, v)) :
    (taiyiMaxSimings ≤ s.enabledCount ∧ v = s.wso.currentVirtualTime ∧ u = s.marked) ∨
      s.enabledCount < taiyiMaxSimings ∧ (∀ y ∈ u.simings, y.Begins divide v) ∧ v ≤ lapLength ∧
        (s.wso.currentVirtualTime ≤ v ∨ v = 0) := by
  by_cases hmany : taiyiMaxSimings ≤ s.enabledCount
  · have hnone := (second_phase_of_many h.consistent.maxAdored hmany).1
    rw [State.newVirtualTime, hnone] at hu
    cases hu
    exact .inl ⟨hmany, rfl, rfl⟩
  · refine .inr ⟨not_le.mp hmany, ?_⟩
    have hall := (second_phase_of_few h.consistent.maxAdored (not_le.mp hmany)).1
    obtain ⟨hle, hbound⟩ := newVirtualTime_bounds h
    obtain ⟨⟨r, overflow⟩, hr, hlast⟩ := Option.bind_eq_some_iff.mp hu
    rw [hall] at hr
    cases overflow with
    | true =>
      obtain ⟨r', hreset, he⟩ := Option.map_eq_some_iff.mp hlast
      cases he
      refine ⟨fun y hy ↦ ?_, Nat.zero_le _, .inr rfl⟩
      obtain ⟨lap, hlap, hposition, hupdate, hsched⟩ := (reset_spec hreset).2.2 y hy
      have hrange := hdiv.range _ _ _ le_rfl hlap
      unfold lapLength at hrange
      exact ⟨hposition, hupdate, lap, hlap, hsched.trans (Nat.zero_add _).symm, by omega⟩
    | false =>
      cases hlast
      refine ⟨fun y hy ↦ ?_, hbound, .inl hle⟩
      have hsame : ∀ x ∈ s.marked.simings, ∃ z ∈ s.simings, z.fixed = x.fixed :=
        (forall_of_fixed (P := fun d ↦ ∃ z ∈ s.simings, z.fixed = d) fixed_marked).mpr
          fun x hx ↦ ⟨x, hx, rfl⟩
      refine (begins_of_restartAll hdiv hbound ?_ hr y hy).resolve_right ?_
      · intro p hp x hx hid
        obtain ⟨z, hz, he⟩ := hsame x hx
        simp only [Siming.fixed, Prod.mk.injEq] at he
        have hzp : z = p := List.inj_on_of_nodup_map h.consistent.ids hz (mem_sorted.mp hp)
          (he.1.trans hid)
        rw [← he.2.2.2, hzp]
      · rintro ⟨hnot, hmem⟩
        obtain ⟨z, hz, he⟩ := hsame y hmem
        simp only [Siming.fixed, Prod.mk.injEq] at he
        exact hnot (he.1 ▸ List.mem_map_of_mem (mem_sorted.mpr hz))

/-- The state that an update leaves, up to the schedule it writes. -/
theorem update_cases (hdiv : Divides divide) (h : Timely divide s)
    (ht : updateSimingSchedule4 divide time n s = some t) :
    (taiyiMaxSimings ≤ s.enabledCount ∧ t.wso.currentVirtualTime = s.wso.currentVirtualTime ∧
        t.simings = s.marked.simings) ∨
      s.enabledCount < taiyiMaxSimings ∧
        (∀ y ∈ t.simings, y.Begins divide t.wso.currentVirtualTime) ∧
        t.wso.currentVirtualTime ≤ lapLength ∧
        (s.wso.currentVirtualTime ≤ t.wso.currentVirtualTime ∨ t.Reset divide) := by
  obtain ⟨u, v, scheduled, hu, -, hmedian⟩ := update_some_iff.mp ht
  obtain ⟨hsimings, props, hw⟩ := updateMedian_slots hmedian
  have htime : t.wso.currentVirtualTime = v := by rw [hw]; rfl
  have hrows : t.simings = u.simings := hsimings
  rw [htime, hrows]
  rcases advance_cases hdiv h hu with ⟨hmany, hv, rfl⟩ | ⟨hfew, hbegins, hbound, hmove⟩
  · exact .inl ⟨hmany, hv, rfl⟩
  · refine .inr ⟨hfew, hbegins, hbound, hmove.imp_right fun hv ↦ ⟨htime.trans hv, ?_⟩⟩
    rw [hrows, ← hv]
    exact hbegins

theorem fixed_update (ht : updateSimingSchedule4 divide time n s = some t) :
    t.fixed = s.fixed ∧ t.wso.maxAdoredSimings = s.wso.maxAdoredSimings := by
  obtain ⟨u, v, scheduled, hu, -, hmedian⟩ := update_some_iff.mp ht
  obtain ⟨hsimings, props, hw⟩ := updateMedian_slots hmedian
  obtain ⟨hf, c, hwso⟩ := advance_fixed hu
  refine ⟨?_, ?_⟩
  · rw [State.fixed, hsimings]
    exact hf.trans fixed_marked
  · rw [hw]
    change u.wso.maxAdoredSimings = _
    rw [hwso]
    rfl

theorem consistent_update (hs : Consistent s)
    (ht : updateSimingSchedule4 divide time n s = some t) : Consistent t := by
  obtain ⟨hf, hmax⟩ := fixed_update ht
  obtain ⟨-, -, names, hlen, -, hreg, -, heq⟩ := wellFormed_update hs ht
  refine ⟨ids_of_fixed hf ▸ hs.ids, owners_of_fixed hf ▸ hs.owners, hmax.trans hs.maxAdored, ?_⟩
  have hcut : (names.map some).length = t.wso.numScheduledSimings := by
    rw [List.length_map, hlen]
  rw [heq, List.take_append_of_le_length hcut.ge, List.take_of_length_le hcut.le]
  intro slot hslot
  obtain ⟨name, hname, rfl⟩ := List.mem_map.mp hslot
  obtain ⟨x, hx, rfl, -⟩ := hreg name hname
  rw [registered_iff, owners_of_fixed hf, ← registered_iff]
  exact ⟨x, hx, rfl⟩

theorem Timely.update (hdiv : Divides divide) (h : Timely divide s)
    (ht : updateSimingSchedule4 divide time n s = some t) : Timely divide t := by
  have hids := ids_of_fixed (fixed_update ht).1
  refine ⟨consistent_update h.consistent ht, ?_, ?_, ?_⟩
  · have hlen : t.simings.length = s.simings.length := by
      simpa using congrArg List.length hids
    rw [hids, h.numbered, hlen]
  · rcases update_cases hdiv h ht with ⟨-, htime, -⟩ | ⟨-, -, hbound, -⟩
    · exact htime ▸ h.bound
    · exact hbound
  · rcases update_cases hdiv h ht with ⟨-, htime, hrows⟩ | ⟨-, hbegins, -⟩
    · rw [hrows, htime]
      have hmark : ∀ {u : State} {l : List Siming} {schedule : SimingScheduleType} {c : ℕ},
          (∀ x ∈ u.simings, x.OnTime divide c) →
          ∀ x ∈ (u.markSchedule l schedule).simings, x.OnTime divide c := fun hu ↦
        forall_modifySimings hu fun x hx _ ↦ (hu x hx).congr rfl
      exact hmark (hmark h.simings)
    · exact fun y hy ↦ (hbegins y hy).onTime

theorem Timely.step (hdiv : Divides divide) (h : Timely divide s) {st : Step}
    (ht : s.step divide st = some t) : Timely divide t := by
  cases st with
  | register owner signingKey props =>
    simp only [State.step] at ht
    split at ht
    · cases ht
    · next hnew =>
      cases ht
      exact h.register hdiv (Bool.eq_false_iff.mpr hnew)
  | setProperties owner signingKey props =>
    obtain ⟨x, -, ht⟩ := Option.bind_eq_some_iff.mp ht
    cases ht
    exact h.modify fun x hx _ ↦ ⟨rfl, rfl, (h.simings x hx).congr rfl⟩
  | report owner version vote time =>
    obtain ⟨x, -, ht⟩ := Option.bind_eq_some_iff.mp ht
    cases ht
    exact h.modify fun x hx _ ↦ ⟨rfl, rfl, (h.simings x hx).congr rfl⟩
  | adjustAdore owner delta totalQi =>
    obtain ⟨x, hx, ht⟩ := Option.bind_eq_some_iff.mp ht
    obtain ⟨y, hy, ht⟩ := Option.bind_eq_some_iff.mp ht
    cases ht
    obtain ⟨hmem, rfl⟩ := getSiming_some hx
    obtain ⟨htimely, hid, howner⟩ := (h.simings x hmem).adjust hdiv h.bound hy
    refine h.modify fun z hz ho ↦ ?_
    obtain rfl := eq_of_owner h.consistent hz hmem (of_decide_eq_true ho)
    exact ⟨hid, howner, htimely⟩
  | updateSchedule time n =>
    simp only [State.step, updateSimingSchedule] at ht
    split at ht
    · exact h.update hdiv ht
    · cases ht
      exact h

theorem timely_genesis (hdiv : Divides divide) (initKey : ℕ) :
    Timely divide (genesis initKey) where
  consistent := consistent_genesis initKey
  numbered := rfl
  bound := Nat.zero_le _
  simings x hx := by
    obtain rfl := List.mem_singleton.mp hx
    exact onTime_new hdiv (Nat.zero_le _) rfl

theorem timely_of_reaches (hdiv : Divides divide) {initKey : ℕ}
    (h : (genesis initKey).Reaches divide s) : Timely divide s := by
  induction h with
  | start => exact timely_genesis hdiv initKey
  | step st _ hst ih => exact ih.step hdiv hst

end Step

section Laps

variable (divide : ℕ → ℕ → Option ℕ)

/-- The steps in which the siming of a name begins a lap: the updates that process it and those
that run over the end of virtual time. -/
def State.Laps (s : State) (owner : ℕ) : Step → Prop
  | .updateSchedule _ n => n % taiyiMaxSimings = 0 ∧ (owner ∈ s.processed.map Siming.owner ∨
      ∃ u, restartAll divide s.newVirtualTime s.processed s.marked = some (u, true))
  | _ => False

/-- The adores of the siming of a name. -/
def State.adoresOf (s : State) (owner : ℕ) : ℤ := ((s.getSiming owner).map fun x ↦ x.adores).getD 0

/-- How far the siming of a name is in its lap at the current virtual time. -/
def State.travelled (s : State) (owner : ℕ) : ℤ :=
  ((s.getSiming owner).map fun x ↦
    (x.virtualPosition + x.adores * (s.wso.currentVirtualTime - x.virtualLastUpdate) : ℤ)).getD 0

/-- A run in which the siming of a name begins no lap, with the sum of the virtual time that
passed in each step, times the adores in force during it. -/
inductive State.Passage (owner : ℕ) (s₀ : State) : ℤ → State → Prop
  | rest : Passage owner s₀ 0 s₀
  | step {d : ℤ} {s t : State} (st : Step) : Passage owner s₀ d s → s.step divide st = some t →
      ¬s.Laps divide owner st →
      Passage owner s₀ (d + s.adoresOf owner *
        (t.wso.currentVirtualTime - s.wso.currentVirtualTime)) t

variable {divide : ℕ → ℕ → Option ℕ} {s t : State} {st : Step} {owner : ℕ} {d : ℤ}

theorem travelled_eq_zero (h : Timely divide s) : s.travelled owner = 0 := by
  rw [State.travelled]
  cases hx : s.getSiming owner with
  | none => rfl
  | some x =>
    have hon := h.simings x (getSiming_some hx).1
    rw [Option.map_some, Option.getD_some, hon.position]
    rcases hon.idle with ha | hl
    · rw [ha, zero_mul]
      rfl
    · rw [hl, sub_self, mul_zero]
      rfl

/-- Virtual time stands still except in updates. -/
theorem time_or_update (ht : s.step divide st = some t) :
    t.wso.currentVirtualTime = s.wso.currentVirtualTime ∨
      ∃ time n, st = .updateSchedule time n ∧ n % taiyiMaxSimings = 0 ∧
        updateSimingSchedule4 divide time n s = some t := by
  cases st with
  | register =>
    simp only [State.step] at ht
    split at ht
    · cases ht
    · cases ht
      exact .inl rfl
  | setProperties =>
    obtain ⟨x, -, ht⟩ := Option.bind_eq_some_iff.mp ht
    cases ht
    exact .inl rfl
  | report =>
    obtain ⟨x, -, ht⟩ := Option.bind_eq_some_iff.mp ht
    cases ht
    exact .inl rfl
  | adjustAdore =>
    obtain ⟨x, -, ht⟩ := Option.bind_eq_some_iff.mp ht
    obtain ⟨y, -, ht⟩ := Option.bind_eq_some_iff.mp ht
    cases ht
    exact .inl rfl
  | updateSchedule time n =>
    simp only [State.step, updateSimingSchedule] at ht
    split at ht
    · next hn => exact .inr ⟨time, n, rfl, hn, ht⟩
    · cases ht
      exact .inl rfl

/-- Virtual time passes only in updates that process every siming. -/
theorem time_step (hdiv : Divides divide) (h : Timely divide s) (ht : s.step divide st = some t)
    (hlaps : ¬s.Laps divide owner st) :
    s.adoresOf owner * (t.wso.currentVirtualTime - s.wso.currentVirtualTime : ℤ) = 0 := by
  have hkeep : t.wso.currentVirtualTime = s.wso.currentVirtualTime →
      s.adoresOf owner * (t.wso.currentVirtualTime - s.wso.currentVirtualTime : ℤ) = 0 := by
    intro he
    rw [he, sub_self, mul_zero]
  rcases time_or_update ht with he | ⟨time, n, rfl, hn, hupdate⟩
  · exact hkeep he
  · rcases update_cases hdiv h hupdate with ⟨-, he, -⟩ | ⟨hfew, -⟩
    · exact hkeep he
    · have hall := (second_phase_of_few h.consistent.maxAdored hfew).1
      have hgone : s.getSiming owner = none := by
        by_contra hsome
        obtain ⟨x, hx⟩ := Option.ne_none_iff_exists'.mp hsome
        obtain ⟨hmem, rfl⟩ := getSiming_some hx
        exact hlaps ⟨hn, .inl (hall ▸ List.mem_map_of_mem (mem_sorted.mpr hmem))⟩
      rw [State.adoresOf, hgone]
      exact zero_mul _

theorem passage_of_timely (hdiv : Divides divide) (h : Timely divide s)
    (hp : s.Passage divide owner d t) : Timely divide t ∧ d = 0 := by
  induction hp with
  | rest => exact ⟨h, rfl⟩
  | step st _ hst hlaps ih =>
    obtain ⟨htimely, rfl⟩ := ih
    exact ⟨htimely.step hdiv hst, by rw [time_step hdiv htimely hst hlaps, add_zero]⟩

/-- Virtual time moves on or is reset for all. -/
theorem time_mono (hdiv : Divides divide) (h : Timely divide s)
    (ht : s.step divide st = some t) :
    s.wso.currentVirtualTime ≤ t.wso.currentVirtualTime ∨ t.Reset divide := by
  rcases time_or_update ht with he | ⟨time, n, rfl, hn, hupdate⟩
  · exact .inl he.ge
  · rcases update_cases hdiv h hupdate with ⟨-, he, -⟩ | ⟨-, -, -, hmove⟩
    · exact .inl he.ge
    · exact hmove

/-- The virtual times of a reachable state, and what every step from it does to them. -/
theorem virtual_time_of_reaches (hdiv : Divides divide) {initKey : ℕ}
    (h : (genesis initKey).Reaches divide s) :
    (∀ x ∈ s.simings, x.virtualLastUpdate ≤ s.wso.currentVirtualTime ∧
        s.wso.currentVirtualTime ≤ x.virtualScheduledTime ∧ x.virtualPosition ≤ lapLength ∧
        ∃ rest, divide (lapLength - x.virtualPosition) (toUint128 (x.adores + 1)) = some rest ∧
          x.virtualScheduledTime = min lapLength (x.virtualLastUpdate + rest)) ∧
      (∀ owner d t, s.Passage divide owner d t → t.travelled owner = s.travelled owner + d) ∧
      (∀ l y l' z, s.timeshare = l ++ y :: l' → z ∈ s.simings → z.signingKey ≠ none →
        z.id ∉ s.elected.map Siming.id → z ∉ l →
          y.virtualScheduledTime ≤ z.virtualScheduledTime) ∧
      ∀ st t, s.step divide st = some t →
        s.wso.currentVirtualTime ≤ t.wso.currentVirtualTime ∨ t.Reset divide := by
  have htimely := timely_of_reaches hdiv h
  refine ⟨fun x hx ↦ ?_, fun owner d t hp ↦ ?_, fun l y l' z hl hz hkey hn hnot ↦ ?_,
    fun st t ht ↦ time_mono hdiv htimely ht⟩
  · have hon := htimely.simings x hx
    exact ⟨hon.lastUpdate, hon.scheduled, hon.position ▸ Nat.zero_le _, hon.lap⟩
  · obtain ⟨ht, rfl⟩ := passage_of_timely hdiv htimely hp
    rw [travelled_eq_zero ht, travelled_eq_zero htimely, add_zero]
  · exact timeshare_minimal hl hz (Option.isSome_iff_ne_none.mpr hkey) hn hnot

end Laps

/-- A siming registers and is adored. -/
theorem virtual_time_adored :
    ∃ s : State, ((genesis 1).step checkedDivide (.register 5 (some 2) {})).bind
        (fun s ↦ s.step checkedDivide (.adjustAdore 5 10 100)) = some s ∧
      ∀ x ∈ s.simings, x.virtualLastUpdate ≤ s.wso.currentVirtualTime ∧
        s.wso.currentVirtualTime ≤ x.virtualScheduledTime := by
  have hsome : (((genesis 1).step checkedDivide (.register 5 (some 2) {})).bind
      fun s ↦ s.step checkedDivide (.adjustAdore 5 10 100)).isSome = true := by
    decide +kernel
  obtain ⟨s, hs⟩ := Option.isSome_iff_exists.mp hsome
  obtain ⟨r, hr, hadjust⟩ := Option.bind_eq_some_iff.mp hs
  have h := virtual_time_of_reaches divides_checked (.step _ (.step _ .start hr) hadjust)
  exact ⟨s, hs, fun x hx ↦ ⟨(h.1 x hx).1, (h.1 x hx).2.1⟩⟩

/-- After the only siming has given up its key, no schedule can be written. -/
theorem disabled_siming_throws :
    ∃ s : State, (genesis 1).Reaches checkedDivide s ∧ Consistent s ∧
      updateSimingSchedule checkedDivide 1762840863 21 s = none := by
  have hrun : ((genesis 1).step checkedDivide (.setProperties initSiming none {})).any
      (fun s ↦ (updateSimingSchedule checkedDivide 1762840863 21 s).isNone) = true := by
    decide +kernel
  obtain ⟨s, hs, hnone⟩ := (Option.any_eq_true _ _).mp hrun
  have hreaches : (genesis 1).Reaches checkedDivide s := .step _ .start hs
  exact ⟨s, hreaches, (timely_of_reaches divides_checked hreaches).consistent,
    Option.isNone_iff_eq_none.mp hnone⟩

end Taiyi.Schedule
