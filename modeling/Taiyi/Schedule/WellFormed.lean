import Taiyi.Schedule.VirtualTime

set_option autoImplicit false

namespace Taiyi.Schedule

open Library.Attempt Library.OrderStatistic Library.Shuffle Ledger

/-- What holds of the simings and of the schedule from one update to the next. -/
structure Consistent (s : State) : Prop where
  ids : (s.simings.map Siming.id).Nodup
  owners : (s.simings.map Siming.owner).Nodup
  maxAdored : s.wso.maxAdoredSimings = taiyiMaxSimings
  slots : ∀ slot ∈ s.wso.currentShuffledSimings.toList.take s.wso.numScheduledSimings,
    ∃ x ∈ s.simings, slot = some x.owner

/-- A schedule for the simings of `s`: the chosen names in some order, then empty slots. -/
structure WellFormed (s t : State) : Prop where
  pos : 1 ≤ t.wso.numScheduledSimings
  le : t.wso.numScheduledSimings ≤ taiyiMaxSimings
  slots : ∃ names : List ℕ, names.length = t.wso.numScheduledSimings ∧ names.Nodup ∧
    (∀ name ∈ names, ∃ x ∈ s.simings, x.owner = name ∧ x.signingKey ≠ none) ∧
    names.Perm (s.activeSimings.map Siming.owner) ∧
    t.wso.currentShuffledSimings.toList = names.map some ++
      List.replicate (taiyiMaxSimings - t.wso.numScheduledSimings) none

section Lookups

variable {s : State} {name : ℕ} {l : List Siming}

theorem getSiming_isSome : (s.getSiming (some name)).isSome ↔ ∃ x ∈ s.simings, x.owner = name := by
  simp [State.getSiming, List.find?_isSome]

theorem scheduled_isSome : s.scheduled.isSome ↔
    ∀ slot ∈ s.wso.currentShuffledSimings.toList.take s.wso.numScheduledSimings,
      ∃ x ∈ s.simings, slot = some x.owner := by
  rw [State.scheduled, mapM_isSome]
  refine forall₂_congr fun slot _ ↦ ?_
  cases slot with
  | none => simp [State.getSiming]
  | some name =>
    rw [getSiming_isSome]
    simp only [Option.some.injEq, eq_comm]

theorem length_scheduled (h : s.scheduled = some l)
    (hn : s.wso.numScheduledSimings ≤ taiyiMaxSimings) : l.length = s.wso.numScheduledSimings := by
  rw [← (mapM_some_iff.mp h).length_eq, List.length_take, Vector.length_toList]
  exact min_eq_left hn

theorem medianOf_isSome {κ : Type} [LinearOrder κ] {f : Siming → κ} (h : 0 < l.length) :
    (medianOf f l).isSome :=
  nthElement_isSome (by rw [List.length_map]; omega)

/-- The medians exist as soon as there is a siming in the schedule. -/
theorem updateMedian_isSome (hpos : 1 ≤ s.wso.numScheduledSimings)
    (hn : s.wso.numScheduledSimings ≤ taiyiMaxSimings) :
    (updateMedianSimingProps s).isSome ↔ s.scheduled.isSome := by
  rw [updateMedianSimingProps]
  cases hs : s.scheduled with
  | none => simp
  | some active =>
    have hlen : 0 < active.length := by
      rw [length_scheduled hs hn]
      omega
    obtain ⟨fee, hfee⟩ := Option.isSome_iff_exists.mp
      (medianOf_isSome (f := fun x ↦ x.props.accountCreationFee) hlen)
    obtain ⟨size, hsize⟩ := Option.isSome_iff_exists.mp
      (medianOf_isSome (f := fun x ↦ x.props.maximumBlockSize) hlen)
    obtain ⟨threshold, hthreshold⟩ := Option.isSome_iff_exists.mp
      (medianOf_isSome (f := fun x ↦ x.props.proposalAdoptedVotesThreshold) hlen)
    simp [hfee, hsize, hthreshold]

theorem updateMedian_slots {t : State} (h : updateMedianSimingProps s = some t) :
    t.simings = s.simings ∧ ∃ props, t.wso = { s.wso with medianProps := props } := by
  obtain ⟨active, -, h⟩ := Option.bind_eq_some_iff.mp h
  obtain ⟨fee, -, h⟩ := Option.bind_eq_some_iff.mp h
  obtain ⟨size, -, h⟩ := Option.bind_eq_some_iff.mp h
  obtain ⟨threshold, -, h⟩ := Option.bind_eq_some_iff.mp h
  cases h
  exact ⟨rfl, _, rfl⟩

end Lookups

section Write

variable {active : List Siming} {time num i : ℕ}

theorem shuffleJump_lt (h : i < num) : shuffleJump time num i < num := by
  have : ∀ k, i + k % (num - i) < num := fun k ↦ by
    have := Nat.mod_lt k (by omega : num - i > 0)
    omega
  exact this _

/-- The slots before the shuffle. -/
theorem written_slots (h : active.length ≤ taiyiMaxSimings) :
    (Vector.ofFn fun i : Fin taiyiMaxSimings ↦ active[i]?.map Siming.owner).toList =
      (active.map Siming.owner).map some ++
        List.replicate (taiyiMaxSimings - active.length) none := by
  refine List.ext_getElem (by simp; omega) fun i h₁ h₂ ↦ ?_
  rw [Vector.getElem_toList, Vector.getElem_ofFn]
  by_cases hi : i < active.length
  · rw [List.getElem_append_left (by simpa using hi)]
    simp [hi]
  · rw [List.getElem_append_right (by simpa using hi)]
    simp [hi]

/-- The shuffled slots, where some are chosen and where none are. -/
theorem shuffled_slots (h : active.length ≤ taiyiMaxSimings)
    (hnum : num = max (active.length % 2 ^ 8) 1) :
    ∃ first : List (Option ℕ), first.length = num ∧
      first.Perm ((active.map Siming.owner).map some ++ List.replicate (num - active.length) none) ∧
      (shuffle (shuffleJump time num) num
        (.ofFn fun i : Fin taiyiMaxSimings ↦ active[i]?.map Siming.owner)).toList =
        first ++ List.replicate (taiyiMaxSimings - num) none := by
  have hlen : active.length % 2 ^ 8 = active.length :=
    Nat.mod_eq_of_lt (lt_of_le_of_lt h (by decide))
  have hle : active.length ≤ num := by omega
  have hnum21 : num ≤ taiyiMaxSimings := by
    have : 1 ≤ taiyiMaxSimings := by decide
    omega
  obtain ⟨hfirst, hrest⟩ := reorders_shuffle
    (fun i hi ↦ (shuffleJump_lt hi : shuffleJump time num i < num))
    (v := Vector.ofFn fun i : Fin taiyiMaxSimings ↦ active[i]?.map Siming.owner)
  rw [written_slots h, show taiyiMaxSimings - active.length =
    (num - active.length) + (taiyiMaxSimings - num) by omega, List.replicate_add,
    ← List.append_assoc] at hfirst hrest
  have hcut : ((active.map Siming.owner).map some ++
      List.replicate (num - active.length) none).length = num := by
    simp only [List.length_append, List.length_map, List.length_replicate]
    omega
  rw [List.take_append_of_le_length hcut.ge, List.take_of_length_le hcut.le] at hfirst
  rw [List.drop_append_of_le_length hcut.ge, List.drop_of_length_le hcut.le, List.nil_append]
    at hrest
  refine ⟨_, hfirst.length_eq.trans hcut, hfirst, ?_⟩
  rw [← hrest]
  exact (List.take_append_drop _ _).symm

end Write

section Update

variable {divide : ℕ → ℕ → Option ℕ} {time n : ℕ} {s t u : State}

/-- The siming's divisor `adores.value + 1`, which is zero for a sum of adores of -1. -/
def Siming.divisor (x : Siming) : ℕ := toUint128 (x.adores + 1)

theorem lapTime_isSome (hdiv : Divides divide) {x : Siming} :
    (x.lapTime divide).isSome ↔ (x.divisor = 0 → (divide lapLength 0).isSome) := by
  rw [Siming.lapTime, Siming.divisor]
  by_cases h : toUint128 (x.adores + 1) = 0
  · rw [h]
    exact ⟨fun hs _ ↦ hs, fun hs ↦ hs rfl⟩
  · exact ⟨fun _ h₀ ↦ absurd h₀ h, fun _ ↦ Option.isSome_of_eq_some (hdiv.quotient _ _ h)⟩

/-- The state after both loops have marked what they chose. -/
def State.marked (s : State) : State :=
  (s.markSchedule s.elected .elected).markSchedule s.timeshare .timeshare

theorem fixed_markSchedule {l : List Siming} {schedule : SimingScheduleType} :
    (s.markSchedule l schedule).fixed = s.fixed := fixed_modifySimings fun _ ↦ rfl

theorem fixed_marked : s.marked.fixed = s.fixed := fixed_markSchedule.trans fixed_markSchedule

theorem update_some_iff : updateSimingSchedule4 divide time n s = some t ↔
    ∃ u v scheduled, advanceVirtualTime divide s.processed s.newVirtualTime s.marked = some (u, v) ∧
      u.scheduled = some scheduled ∧
      updateMedianSimingProps ((u.voteHardfork scheduled).writeSchedule s.activeSimings time n v
        (u.majorityVersion scheduled)) = some t := by
  constructor
  · intro h
    obtain ⟨⟨u, v⟩, hu, h⟩ := Option.bind_eq_some_iff.mp h
    obtain ⟨scheduled, hs, h⟩ := Option.bind_eq_some_iff.mp h
    exact ⟨u, v, scheduled, hu, hs, h⟩
  · rintro ⟨u, v, scheduled, hu, hs, h⟩
    exact Option.bind_eq_some_iff.mpr ⟨(u, v), hu, Option.bind_eq_some_iff.mpr ⟨scheduled, hs, h⟩⟩

/-- The virtual time can be advanced when nobody is processed or the lap of each siming can be
computed. -/
theorem advance_marked_isSome (hdiv : Divides divide) (hs : Consistent s) :
    (advanceVirtualTime divide s.processed s.newVirtualTime s.marked).isSome ↔
      taiyiMaxSimings ≤ s.enabledCount ∨
        ∀ x ∈ s.simings, x.divisor = 0 → (divide lapLength 0).isSome := by
  by_cases hmany : taiyiMaxSimings ≤ s.enabledCount
  · rw [(second_phase_of_many hs.maxAdored hmany).1]
    exact ⟨fun _ ↦ .inl hmany, fun _ ↦ rfl⟩
  · have hall := (second_phase_of_few hs.maxAdored (not_le.mp hmany)).1
    have hadores : ∀ P : ℤ → Prop, (∀ x ∈ s.marked.simings, P x.adores) ↔
        ∀ x ∈ s.simings, P x.adores := fun P ↦
      forall_of_fixed (P := fun d ↦ P d.2.2.2) fixed_marked
    rw [hall, advance_isSome, laps_of_fixed fixed_marked]
    · simp only [← lapTime_isSome hdiv]
      exact (or_iff_right hmany).symm
    · refine (hadores fun a ↦ ∃ p ∈ s.simings.insertionSort byScheduleTime, p.adores = a).mpr ?_
      exact fun x hx ↦ ⟨x, mem_sorted.mpr hx, rfl⟩
    · intro p hp
      by_contra hnone
      refine (hadores fun a ↦ a ≠ p.adores).mp (fun x hx h ↦ hnone ⟨x, hx, h⟩) p
        (mem_sorted.mp hp) rfl

theorem scheduled_of_fixed (hf : u.fixed = s.fixed) {c : ℕ}
    (hw : u.wso = { s.wso with currentVirtualTime := c }) (hs : Consistent s) :
    u.scheduled.isSome := by
  rw [scheduled_isSome, hw]
  intro slot hslot
  obtain ⟨x, hx, rfl⟩ := hs.slots slot hslot
  obtain ⟨y, hy, ho⟩ := List.mem_map.mp (owners_of_fixed hf ▸ List.mem_map_of_mem hx)
  exact ⟨y, hy, by rw [ho]⟩

variable {active : List Siming} {v m : ℕ}

theorem written_num (h : active.length ≤ taiyiMaxSimings) :
    1 ≤ (u.writeSchedule active time n v m).wso.numScheduledSimings ∧
      (u.writeSchedule active time n v m).wso.numScheduledSimings ≤ taiyiMaxSimings := by
  change 1 ≤ max (active.length % 2 ^ 8) 1 ∧ max (active.length % 2 ^ 8) 1 ≤ taiyiMaxSimings
  unfold taiyiMaxSimings at h ⊢
  omega

/-- The looked up schedule is there exactly when somebody was chosen. -/
theorem written_scheduled (h : active.length ≤ taiyiMaxSimings)
    (hreg : ∀ x ∈ active, ∃ y ∈ u.simings, y.owner = x.owner) :
    (u.writeSchedule active time n v m).scheduled.isSome ↔ active ≠ [] := by
  obtain ⟨first, hlen, hp, heq⟩ := shuffled_slots h rfl
  rw [scheduled_isSome]
  have htake : ((u.writeSchedule active time n v m).wso.currentShuffledSimings.toList.take
      (u.writeSchedule active time n v m).wso.numScheduledSimings) = first := by
    refine (congrArg (List.take _) heq).trans ?_
    change (first ++ _).take (max (active.length % 2 ^ 8) 1) = first
    rw [List.take_append_of_le_length hlen.ge, List.take_of_length_le hlen.le]
  rw [htake]
  constructor
  · rintro hall rfl
    obtain ⟨x, -, hx⟩ := hall none (hp.mem_iff.mpr (by simp))
    cases hx
  · intro hne slot hslot
    have hpos : 0 < active.length := List.length_pos_iff.mpr hne
    have hmod : active.length % 2 ^ 8 = active.length :=
      Nat.mod_eq_of_lt (lt_of_le_of_lt h (by decide))
    rw [show max (active.length % 2 ^ 8) 1 - active.length = 0 by omega, List.replicate_zero,
      List.append_nil] at hp
    obtain ⟨name, hname, rfl⟩ := List.mem_map.mp (hp.mem_iff.mp hslot)
    obtain ⟨x, hx, rfl⟩ := List.mem_map.mp hname
    obtain ⟨y, hy, ho⟩ := hreg x hx
    exact ⟨y, hy, by rw [ho]⟩

theorem nodup_owners (hs : Consistent s) : (s.activeSimings.map Siming.owner).Nodup :=
  (nodup_activeSimings hs.ids).of_map.map_on fun _ hx _ hy h ↦
    List.inj_on_of_nodup_map hs.owners (mem_activeSimings hx).1 (mem_activeSimings hy).1 h

theorem wellFormed_written (hs : Consistent s) (hne : s.activeSimings ≠ [])
    (hw : t.wso.currentShuffledSimings =
        (u.writeSchedule s.activeSimings time n v m).wso.currentShuffledSimings ∧
      t.wso.numScheduledSimings =
        (u.writeSchedule s.activeSimings time n v m).wso.numScheduledSimings) :
    WellFormed s t := by
  have hle := length_activeSimings hs.maxAdored.le
  obtain ⟨hslots, hnum⟩ := hw
  obtain ⟨hpos, hmax⟩ :
      1 ≤ t.wso.numScheduledSimings ∧ t.wso.numScheduledSimings ≤ taiyiMaxSimings := by
    rw [hnum]
    exact written_num hle
  obtain ⟨first, hlen, hp, heq⟩ := shuffled_slots hle rfl
  have hlen' : first.length = t.wso.numScheduledSimings := hlen.trans hnum.symm
  have hpos' : 0 < s.activeSimings.length := List.length_pos_iff.mpr hne
  have hmod : s.activeSimings.length % 2 ^ 8 = s.activeSimings.length :=
    Nat.mod_eq_of_lt (lt_of_le_of_lt hle (by decide))
  rw [show max (s.activeSimings.length % 2 ^ 8) 1 - s.activeSimings.length = 0 by omega,
    List.replicate_zero, List.append_nil] at hp
  have hnames : (first.filterMap id).map some = first := by
    rw [List.map_filterMap_some_eq_filter_map_isSome, List.map_id, List.filter_eq_self]
    intro slot hslot
    obtain ⟨name, -, rfl⟩ := List.mem_map.mp (hp.mem_iff.mp hslot)
    rfl
  have hperm : (first.filterMap id).Perm (s.activeSimings.map Siming.owner) := by
    have := hp.filterMap id
    rwa [List.filterMap_map, Function.id_comp, List.filterMap_some] at this
  refine ⟨hpos, hmax, first.filterMap id, ?_, ?_, ?_, hperm, ?_⟩
  · rw [← hlen', ← hnames, List.length_map, hnames]
  · exact hperm.nodup_iff.mpr (nodup_owners hs)
  · intro name hname
    obtain ⟨x, hx, rfl⟩ := List.mem_map.mp (hperm.mem_iff.mp hname)
    obtain ⟨hmem, he⟩ := mem_activeSimings hx
    refine ⟨x, hmem, rfl, fun hnull ↦ ?_⟩
    rw [enabled_eq_false.mpr hnull] at he
    cases he
  · rw [hnames, hslots, hnum]
    exact heq

/-- An update succeeds when the virtual time can be advanced and somebody is chosen. -/
theorem update_isSome (hs : Consistent s) : (updateSimingSchedule4 divide time n s).isSome ↔
    (advanceVirtualTime divide s.processed s.newVirtualTime s.marked).isSome ∧
      s.activeSimings ≠ [] := by
  have hle := length_activeSimings hs.maxAdored.le
  have hlast : ∀ {u : State} {scheduled : List Siming} {v : ℕ}, u.fixed = s.fixed →
      ((updateMedianSimingProps ((u.voteHardfork scheduled).writeSchedule s.activeSimings time n v
        (u.majorityVersion scheduled))).isSome ↔ s.activeSimings ≠ []) := by
    intro u scheduled v hf
    rw [updateMedian_isSome (written_num hle).1 (written_num hle).2, written_scheduled hle]
    intro x hx
    have hmem := List.mem_map_of_mem (f := Siming.owner) (mem_activeSimings hx).1
    rw [← owners_of_fixed hf] at hmem
    exact List.mem_map.mp hmem
  constructor
  · intro h
    obtain ⟨t, ht⟩ := Option.isSome_iff_exists.mp h
    obtain ⟨u, v, scheduled, hu, -, hmedian⟩ := update_some_iff.mp ht
    exact ⟨Option.isSome_of_eq_some hu,
      (hlast ((advance_fixed hu).1.trans fixed_marked)).mp (Option.isSome_of_eq_some hmedian)⟩
  · rintro ⟨hadvance, hne⟩
    obtain ⟨⟨u, v⟩, hu⟩ := Option.isSome_iff_exists.mp hadvance
    obtain ⟨hf, c, hw⟩ := advance_fixed hu
    have hf' := hf.trans fixed_marked
    obtain ⟨scheduled, hsched⟩ := Option.isSome_iff_exists.mp (scheduled_of_fixed hf' hw hs)
    obtain ⟨t, ht⟩ := Option.isSome_iff_exists.mp ((hlast hf').mpr hne)
    exact Option.isSome_of_eq_some (update_some_iff.mpr ⟨u, v, scheduled, hu, hsched, ht⟩)

theorem wellFormed_update (hs : Consistent s)
    (h : updateSimingSchedule4 divide time n s = some t) : WellFormed s t := by
  have hne := ((update_isSome hs).mp (Option.isSome_of_eq_some h)).2
  obtain ⟨u, v, scheduled, -, -, hmedian⟩ := update_some_iff.mp h
  obtain ⟨-, props, hw⟩ := updateMedian_slots hmedian
  exact wellFormed_written hs hne ⟨by rw [hw], by rw [hw]⟩

/-- An update writes a schedule in good order exactly when a siming can sign and, with less
than a full schedule of those that can, no lap is divided by zero. -/
theorem updateSimingSchedule_wellFormed_iff (hdiv : Divides divide) (hs : Consistent s) :
    (∃ t, updateSimingSchedule divide time n s = some t ∧
        (n % taiyiMaxSimings = 0 → WellFormed s t)) ↔
      (n % taiyiMaxSimings = 0 → (∃ x ∈ s.simings, x.signingKey ≠ none) ∧
        (taiyiMaxSimings ≤ s.enabledCount ∨
          ∀ x ∈ s.simings, x.divisor = 0 → (divide lapLength 0).isSome)) := by
  by_cases hn : n % taiyiMaxSimings = 0
  · simp only [updateSimingSchedule, hn, if_true, true_imp_iff]
    rw [← advance_marked_isSome hdiv hs]
    have hchosen : s.activeSimings ≠ [] ↔ ∃ x ∈ s.simings, x.signingKey ≠ none := by
      rw [ne_eq, activeSimings_eq_nil hs.maxAdored]
      push Not
      rfl
    rw [← hchosen, and_comm]
    constructor
    · rintro ⟨t, ht, -⟩
      exact (update_isSome hs).mp (Option.isSome_of_eq_some ht)
    · intro h
      obtain ⟨t, ht⟩ := Option.isSome_iff_exists.mp ((update_isSome hs).mpr h)
      exact ⟨t, ht, wellFormed_update hs ht⟩
  · simp only [updateSimingSchedule, if_neg hn]
    exact ⟨fun _ h ↦ absurd h hn, fun _ ↦ ⟨s, rfl, fun h ↦ absurd h hn⟩⟩

end Update

/-- A division that throws for a divisor of zero. -/
def checkedDivide (a b : ℕ) : Option ℕ := if b = 0 then none else some (a / b)

theorem divides_checked : Divides checkedDivide where
  quotient _ _ h := if_neg h
  range a b q ha h := by
    unfold checkedDivide at h
    split at h
    · cases h
    · cases h
      exact (Nat.div_le_self a b).trans ha

theorem consistent_genesis (initKey : ℕ) : Consistent (genesis initKey) where
  ids := List.nodup_singleton _
  owners := List.nodup_singleton _
  maxAdored := rfl
  slots slot hslot := by
    refine ⟨_, List.mem_singleton_self _, ?_⟩
    simpa [genesis, Vector.toList_ofFn, taiyiMaxSimings, List.ofFn_succ] using hslot

/-- The first schedule after the genesis. -/
theorem wellFormed_genesis : ∃ t, updateSimingSchedule checkedDivide 1762840863 21 (genesis 1) =
    some t ∧ (21 % taiyiMaxSimings = 0 → WellFormed (genesis 1) t) :=
  (updateSimingSchedule_wellFormed_iff divides_checked (consistent_genesis 1)).mpr fun _ ↦
    ⟨⟨_, List.mem_singleton_self _, nofun⟩, .inr (by decide)⟩

end Taiyi.Schedule
