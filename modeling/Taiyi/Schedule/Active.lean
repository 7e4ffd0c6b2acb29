import Taiyi.Schedule.Update

set_option autoImplicit false

namespace Taiyi.Schedule

/-- Whether a siming can sign. -/
def Siming.enabled (x : Siming) : Bool := x.signingKey.isSome

section Loops

variable {x : Siming} {l : List Siming} {selected : List ℕ} {n count : ℕ}

theorem enabled_eq_false : x.enabled = false ↔ x.signingKey = none := by
  rw [Siming.enabled, Option.isSome_eq_false_iff, Option.isNone_iff_eq_none]

theorem elect_eq : elect n l = (l.filter Siming.enabled).take n := by
  induction l generalizing n with
  | nil => cases n <;> simp [elect]
  | cons x l ih =>
    cases n with
    | zero => simp [elect]
    | succ n =>
      rw [elect]
      split
      · next hx => rw [List.filter_cons, enabled_eq_false.mpr hx, if_neg Bool.false_ne_true, ih]
      · next hx =>
        have hx : x.enabled = true := by
          rw [← Bool.not_eq_false]
          exact fun h ↦ hx (enabled_eq_false.mp h)
        rw [List.filter_cons, hx, if_pos rfl, List.take_succ_cons, ih]

/-- What the second loop can add to the active simings. -/
def rests (selected : List ℕ) (x : Siming) : Bool := x.enabled ∧ x.id ∉ selected

theorem rests_eq_false : rests selected x = false ↔ x.signingKey = none ∨ x.id ∈ selected := by
  rw [rests, decide_eq_false_iff_not, not_and_or, not_not, Bool.not_eq_true, enabled_eq_false]

theorem lead_timeshare :
    (lead selected count l).2 = (l.filter (rests selected)).take (taiyiMaxSimings - count) := by
  induction l generalizing count with
  | nil => simp [lead]
  | cons x l ih =>
    rw [lead]
    split
    · next hcount =>
      split
      · next hx => rw [List.filter_cons, rests_eq_false.mpr hx, if_neg Bool.false_ne_true, ih]
      · next hx =>
        have hx : rests selected x = true := by
          rw [← Bool.not_eq_false]
          exact fun h ↦ hx (rests_eq_false.mp h)
        obtain ⟨k, hk⟩ : ∃ k, taiyiMaxSimings - count = k + 1 :=
          ⟨taiyiMaxSimings - count - 1, by omega⟩
        rw [List.filter_cons, hx, if_pos rfl, hk, List.take_succ_cons, ih,
          show taiyiMaxSimings - (count + 1) = k by omega]
    · next hcount =>
      rw [show taiyiMaxSimings - count = 0 by omega, List.take_zero]

/-- The loop stops somewhere in the index. -/
theorem lead_initial : (lead selected count l).1 <+: l := by
  induction l generalizing count with
  | nil => exact List.prefix_rfl
  | cons x l ih =>
    rw [lead]
    split
    · split
      · exact (List.prefix_cons_inj x).mpr ih
      · exact (List.prefix_cons_inj x).mpr ih
    · exact List.nil_prefix

theorem lead_of_full (h : taiyiMaxSimings ≤ count) : lead selected count l = ([], []) := by
  cases l with
  | nil => rfl
  | cons x l => rw [lead, if_neg (by omega)]

/-- With nobody to add, the loop goes through the whole index. -/
theorem lead_of_none (h : count < taiyiMaxSimings) (hl : ∀ x ∈ l, rests selected x = false) :
    lead selected count l = (l, []) := by
  induction l with
  | nil => rfl
  | cons x l ih =>
    rw [List.forall_mem_cons] at hl
    rw [lead, if_pos h, if_pos (rests_eq_false.mp hl.1), ih hl.2]

end Loops

section Choice

variable {s : State} {x y z : Siming} {l l' : List Siming}

theorem mem_sorted {r : Siming → Siming → Prop} [DecidableRel r] :
    x ∈ s.simings.insertionSort r ↔ x ∈ s.simings := List.mem_insertionSort r

theorem mem_elected (h : x ∈ s.elected) : x ∈ s.simings ∧ x.enabled = true := by
  rw [State.elected, elect_eq] at h
  obtain ⟨hx, he⟩ := List.mem_filter.mp (List.mem_of_mem_take h)
  exact ⟨mem_sorted.mp hx, he⟩

theorem timeshare_eq : s.timeshare =
    ((s.simings.insertionSort byScheduleTime).filter (rests (s.elected.map Siming.id))).take
      (taiyiMaxSimings - s.elected.length) := lead_timeshare

theorem mem_timeshare (h : x ∈ s.timeshare) :
    x ∈ s.simings ∧ x.enabled = true ∧ x.id ∉ s.elected.map Siming.id := by
  rw [timeshare_eq] at h
  obtain ⟨hx, hr⟩ := List.mem_filter.mp (List.mem_of_mem_take h)
  obtain ⟨he, hn⟩ := of_decide_eq_true hr
  exact ⟨mem_sorted.mp hx, he, hn⟩

theorem mem_activeSimings (h : x ∈ s.activeSimings) : x ∈ s.simings ∧ x.enabled = true := by
  rcases List.mem_append.mp h with h | h
  · exact mem_elected h
  · exact ⟨(mem_timeshare h).1, (mem_timeshare h).2.1⟩

theorem length_activeSimings (h : s.wso.maxAdoredSimings ≤ taiyiMaxSimings) :
    s.activeSimings.length ≤ taiyiMaxSimings := by
  have helected : s.elected.length ≤ s.wso.maxAdoredSimings := by
    rw [State.elected, elect_eq]
    exact List.length_take_le _ _
  have htimeshare : s.timeshare.length ≤ taiyiMaxSimings - s.elected.length := by
    rw [timeshare_eq]
    exact List.length_take_le _ _
  rw [State.activeSimings, List.length_append]
  omega

/-- No siming is chosen twice. -/
theorem nodup_activeSimings (h : (s.simings.map Siming.id).Nodup) :
    (s.activeSimings.map Siming.id).Nodup := by
  have hsorted : ∀ (r : Siming → Siming → Prop) [DecidableRel r],
      ((s.simings.insertionSort r).map Siming.id).Nodup := fun r _ ↦
    ((List.perm_insertionSort r s.simings).map Siming.id).nodup_iff.mpr h
  rw [State.activeSimings, List.map_append, List.nodup_append]
  refine ⟨?_, ?_, ?_⟩
  · rw [State.elected, elect_eq]
    exact (hsorted _).sublist (((List.take_sublist _ _).trans List.filter_sublist).map _)
  · rw [timeshare_eq]
    exact (hsorted _).sublist (((List.take_sublist _ _).trans List.filter_sublist).map _)
  · rintro id hid _ hid' rfl
    obtain ⟨x, hx, rfl⟩ := List.mem_map.mp hid'
    exact (mem_timeshare hx).2.2 hid

/-- A time-share siming has the least scheduled time of those that can still be chosen. -/
theorem timeshare_minimal (h : s.timeshare = l ++ y :: l') (hz : z ∈ s.simings)
    (he : z.enabled = true) (hn : z.id ∉ s.elected.map Siming.id) (hl : z ∉ l) :
    y.virtualScheduledTime ≤ z.virtualScheduledTime := by
  have hmem : z ∈ (s.simings.insertionSort byScheduleTime).filter
      (rests (s.elected.map Siming.id)) :=
    List.mem_filter.mpr ⟨mem_sorted.mpr hz, decide_eq_true ⟨he, hn⟩⟩
  have hsorted := (List.pairwise_insertionSort byScheduleTime s.simings).filter
    (rests (s.elected.map Siming.id))
  have hle : ∀ {a b : Siming}, byScheduleTime a b →
      a.virtualScheduledTime ≤ b.virtualScheduledTime := by
    unfold byScheduleTime
    omega
  rw [timeshare_eq] at h
  rw [← List.take_append_drop (taiyiMaxSimings - s.elected.length)
    (List.filter _ (s.simings.insertionSort byScheduleTime)), h, List.append_assoc] at hmem hsorted
  rw [List.cons_append] at hmem hsorted
  obtain ⟨-, hcons, -⟩ := List.pairwise_append.mp hsorted
  rcases List.mem_append.mp hmem with hmem | hmem
  · exact absurd hmem hl
  · rcases List.mem_cons.mp hmem with rfl | hmem
    · exact le_rfl
    · exact hle ((List.pairwise_cons.mp hcons).1 z hmem)

/-- How many simings can sign. -/
def State.enabledCount (s : State) : ℕ := s.simings.countP Siming.enabled

theorem length_filter_sorted {r : Siming → Siming → Prop} [DecidableRel r] :
    ((s.simings.insertionSort r).filter Siming.enabled).length = s.enabledCount := by
  rw [← List.countP_eq_length_filter, State.enabledCount]
  exact (List.perm_insertionSort r s.simings).countP_eq _

theorem length_elected : s.elected.length = min s.wso.maxAdoredSimings s.enabledCount := by
  rw [State.elected, elect_eq, List.length_take, length_filter_sorted]

/-- With a full schedule of adored simings there is no second phase. -/
theorem second_phase_of_many (hmax : s.wso.maxAdoredSimings = taiyiMaxSimings)
    (h : taiyiMaxSimings ≤ s.enabledCount) : s.processed = [] ∧ s.timeshare = [] := by
  have hfull : taiyiMaxSimings ≤ s.elected.length := by
    rw [length_elected, hmax]
    exact le_min le_rfl h
  rw [State.processed, State.timeshare, lead_of_full hfull]
  exact ⟨rfl, rfl⟩

/-- With fewer simings that can sign than places, the second phase processes all simings and
finds nobody to add. -/
theorem second_phase_of_few (hmax : s.wso.maxAdoredSimings = taiyiMaxSimings)
    (h : s.enabledCount < taiyiMaxSimings) :
    s.processed = s.simings.insertionSort byScheduleTime ∧ s.timeshare = [] := by
  have hfew : s.elected.length < taiyiMaxSimings := by
    rw [length_elected, hmax]
    exact lt_of_le_of_lt (min_le_right _ _) h
  have hall : ∀ x ∈ s.simings.insertionSort byScheduleTime,
      rests (s.elected.map Siming.id) x = false := by
    intro x hx
    rw [rests, decide_eq_false_iff_not, not_and, not_not]
    intro he
    refine List.mem_map_of_mem ?_
    rw [State.elected, elect_eq, List.take_of_length_le]
    · exact List.mem_filter.mpr ⟨mem_sorted.mpr (mem_sorted.mp hx), he⟩
    · rw [length_filter_sorted, hmax]
      exact h.le
  rw [State.processed, State.timeshare, lead_of_none hfew hall]
  exact ⟨rfl, rfl⟩

theorem activeSimings_eq_nil (hmax : s.wso.maxAdoredSimings = taiyiMaxSimings) :
    s.activeSimings = [] ↔ ∀ x ∈ s.simings, x.signingKey = none := by
  constructor
  · intro h x hx
    have hlen := congrArg List.length (List.append_eq_nil_iff.mp h).1
    rw [length_elected, hmax, List.length_nil, Nat.min_eq_zero_iff] at hlen
    have hzero := hlen.resolve_left (by decide)
    have := List.countP_eq_zero.mp hzero x hx
    exact enabled_eq_false.mp (Bool.eq_false_iff.mpr this)
  · intro h
    refine List.eq_nil_iff_forall_not_mem.mpr fun x hx ↦ ?_
    obtain ⟨hmem, he⟩ := mem_activeSimings hx
    rw [enabled_eq_false.mpr (h x hmem)] at he
    cases he

end Choice

end Taiyi.Schedule
