import Taiyi.Schedule.Timely

set_option autoImplicit false

namespace Taiyi.Schedule

open Library.Attempt

section Weight

variable {κ : Type} {l : List (κ × ℕ)} {q : κ → Bool}

/-- The counters of the keys that a test picks, added up. -/
def weight (q : κ → Bool) (l : List (κ × ℕ)) : ℕ := ((l.filter fun e ↦ q e.1).map Prod.snd).sum

theorem weight_cons (e : κ × ℕ) : weight q (e :: l) = (if q e.1 then e.2 else 0) + weight q l := by
  unfold weight
  rw [List.filter_cons]
  split <;> simp

theorem weight_append (l' : List (κ × ℕ)) : weight q (l ++ l') = weight q l + weight q l' := by
  simp only [weight, List.filter_append, List.map_append, List.sum_append]

theorem weight_all (h : ∀ e ∈ l, q e.1 = true) : weight q l = (l.map Prod.snd).sum := by
  rw [weight, List.filter_eq_self.mpr h]

theorem weight_none (h : ∀ e ∈ l, q e.1 = false) : weight q l = 0 := by
  rw [weight, List.filter_eq_nil_iff.mpr fun e he ↦ by simp [h e he]]
  rfl

theorem weight_le : weight q l ≤ (l.map Prod.snd).sum := by
  induction l with
  | nil => exact Nat.le_refl _
  | cons e l ih =>
    rw [weight_cons, List.map_cons, List.sum_cons]
    split <;> omega

end Weight

section Tally

variable {κ α : Type} [DecidableEq κ] {lt : κ → κ → Bool} {k : κ} {n required acc : ℕ}
  {l : List (κ × ℕ)} {q : κ → Bool} {xs : List α} {f : α → κ}

theorem weight_tally : weight q (tally lt k l) = weight q l + if q k then 1 else 0 := by
  induction l with
  | nil =>
    rw [tally, weight_cons, Nat.add_comm]
  | cons e l ih =>
    rw [tally]
    split
    · next he =>
      rw [weight_cons, weight_cons, he]
      split <;> omega
    · split
      · rw [weight_cons, Nat.add_comm]
      · rw [weight_cons, weight_cons, ih, Nat.add_assoc]

/-- The counters count. -/
theorem weight_foldl : weight q (xs.foldl (fun m x ↦ tally lt (f x) m) l) =
    weight q l + xs.countP fun x ↦ q (f x) := by
  induction xs generalizing l with
  | nil => rfl
  | cons x xs ih =>
    rw [List.foldl_cons, ih, weight_tally, List.countP_cons]
    omega

/-- The order of the keys of a `flat_map`. -/
structure KeyOrder (lt : κ → κ → Bool) : Prop where
  irrefl : ∀ a, lt a a = false
  trans : ∀ a b c, lt a b = true → lt b c = true → lt a c = true
  total : ∀ a b, a ≠ b → lt a b = false → lt b a = true

def Ordered (lt : κ → κ → Bool) (l : List (κ × ℕ)) : Prop := l.Pairwise fun d e ↦ lt d.1 e.1 = true

theorem mem_tally {e : κ × ℕ} (h : e ∈ tally lt k l) : e.1 = k ∨ ∃ d ∈ l, d.1 = e.1 := by
  induction l with
  | nil => exact .inl (congrArg Prod.fst (List.mem_singleton.mp h))
  | cons d l ih =>
    rw [tally] at h
    split at h
    · next hk =>
      rcases List.mem_cons.mp h with rfl | h
      · exact .inl hk.symm
      · exact .inr ⟨e, List.mem_cons_of_mem _ h, rfl⟩
    · split at h
      · rcases List.mem_cons.mp h with rfl | h
        · exact .inl rfl
        · exact .inr ⟨e, h, rfl⟩
      · rcases List.mem_cons.mp h with rfl | h
        · exact .inr ⟨_, List.mem_cons_self, rfl⟩
        · exact (ih h).imp_right fun ⟨d', hd, he⟩ ↦ ⟨d', List.mem_cons_of_mem _ hd, he⟩

theorem ordered_tally (ho : KeyOrder lt) (h : Ordered lt l) : Ordered lt (tally lt k l) := by
  induction l with
  | nil => exact List.pairwise_singleton _ _
  | cons d l ih =>
    obtain ⟨hd, hl⟩ := List.pairwise_cons.mp h
    rw [tally]
    split
    · exact List.pairwise_cons.mpr ⟨hd, hl⟩
    · next hne =>
      split
      · next hlt =>
        refine List.pairwise_cons.mpr ⟨fun e he ↦ ?_, h⟩
        rcases List.mem_cons.mp he with rfl | he
        · exact hlt
        · exact ho.trans _ _ _ hlt (hd e he)
      · next hlt =>
        refine List.pairwise_cons.mpr ⟨fun e he ↦ ?_, ih hl⟩
        rcases mem_tally he with hk | ⟨e', he', hk⟩
        · rw [hk]
          exact ho.total _ _ hne (Bool.eq_false_iff.mpr hlt)
        · rw [← hk]
          exact hd e' he'

theorem ordered_foldl (ho : KeyOrder lt) (h : Ordered lt l) :
    Ordered lt (xs.foldl (fun m x ↦ tally lt (f x) m) l) := by
  induction xs generalizing l with
  | nil => exact h
  | cons x xs ih => exact ih (ordered_tally ho h)

/-- An entry of the map has the count of its key. -/
theorem count_of_mem (ho : KeyOrder lt)
    (h : (k, n) ∈ xs.foldl (fun m x ↦ tally lt (f x) m) []) : n = xs.countP fun x ↦ f x = k := by
  obtain ⟨pre, post, hl⟩ := List.append_of_mem h
  have hordered : Ordered lt (pre ++ (k, n) :: post) := hl ▸ ordered_foldl ho List.Pairwise.nil
  obtain ⟨-, hrest, hcross⟩ := List.pairwise_append.mp hordered
  have hpre : weight (fun a ↦ decide (a = k)) pre = 0 := by
    refine weight_none fun e he ↦ decide_eq_false fun heq ↦ ?_
    have hlt := hcross e he (k, n) List.mem_cons_self
    rw [heq, ho.irrefl] at hlt
    cases hlt
  have hpost : weight (fun a ↦ decide (a = k)) post = 0 := by
    refine weight_none fun e he ↦ decide_eq_false fun heq ↦ ?_
    have hlt := (List.pairwise_cons.mp hrest).1 e he
    rw [heq, ho.irrefl] at hlt
    cases hlt
  have hcount : weight (fun a ↦ decide (a = k)) (xs.foldl (fun m x ↦ tally lt (f x) m) []) = _ :=
    weight_foldl
  rw [hl, weight_append, weight_cons, hpre, hpost, if_pos (decide_eq_true rfl)] at hcount
  simpa [weight] using hcount

end Tally

section Majority

variable {α : Type} {required acc : ℕ} {xs : List α}

theorem majorityFrom_split {l : List (ℕ × ℕ)} {v : ℕ} (h : majorityFrom required acc l = some v) :
    ∃ pre n post, l = pre ++ (v, n) :: post ∧ required ≤ acc + (pre.map Prod.snd).sum + n ∧
      (pre = [] ∨ acc + (pre.map Prod.snd).sum < required) := by
  induction l generalizing acc with
  | nil => cases h
  | cons e l ih =>
    rw [majorityFrom] at h
    split at h
    · next hle =>
      cases h
      exact ⟨[], e.2, l, rfl, hle, .inl rfl⟩
    · next hlt =>
      obtain ⟨pre, n, post, rfl, hge, hless⟩ := ih h
      refine ⟨e :: pre, n, post, rfl, ?_, .inr ?_⟩
      · rw [List.map_cons, List.sum_cons]
        omega
      · rw [List.map_cons, List.sum_cons]
        rcases hless with rfl | hless
        · simpa using hlt
        · omega

theorem descending : KeyOrder fun v w : ℕ ↦ decide (w < v) where
  irrefl a := decide_eq_false (Nat.lt_irrefl a)
  trans a b c hab hbc := decide_eq_true ((of_decide_eq_true hbc).trans (of_decide_eq_true hab))
  total a b hne hab := decide_eq_true (by
    have := of_decide_eq_false hab
    omega)

theorem ascending : KeyOrder fun v w : ℕ × ℕ ↦ decide (v.1 < w.1 ∨ v.1 = w.1 ∧ v.2 < w.2) where
  irrefl a := decide_eq_false (by omega)
  trans a b c hab hbc := by
    have h₁ := of_decide_eq_true hab
    have h₂ := of_decide_eq_true hbc
    exact decide_eq_true (by omega)
  total a b hne hab := by
    have h₁ := of_decide_eq_false hab
    have h₂ : a.1 = b.1 → a.2 ≠ b.2 := fun h h' ↦ hne (Prod.ext h h')
    exact decide_eq_true (by omega)

/-- The version that the loop stops at is the highest that enough simings run or have passed. -/
theorem majorityFrom_greatest {f : α → ℕ} {v : ℕ} (hreq : 0 < required)
    (h : majorityFrom required 0 (xs.foldl (fun m x ↦ tally (fun v w ↦ decide (w < v)) (f x) m) []) =
      some v) : IsGreatest {v | required ≤ xs.countP fun x ↦ decide (v ≤ f x)} v := by
  obtain ⟨pre, n, post, hl, hge, hless⟩ := majorityFrom_split h
  have hordered : Ordered _ (pre ++ (v, n) :: post) := hl ▸ ordered_foldl descending List.Pairwise.nil
  obtain ⟨-, hrest, hcross⟩ := List.pairwise_append.mp hordered
  have hcount (w : ℕ) : (xs.countP fun x ↦ decide (w ≤ f x)) =
      weight (fun a ↦ decide (w ≤ a)) (pre ++ (v, n) :: post) := by
    rw [← hl, weight_foldl]
    exact (Nat.zero_add _).symm
  have hpre : ∀ e ∈ pre, v < e.1 := fun e he ↦
    of_decide_eq_true (hcross e he (v, n) List.mem_cons_self)
  have hpost : ∀ e ∈ post, e.1 < v := fun e he ↦
    of_decide_eq_true ((List.pairwise_cons.mp hrest).1 e he)
  constructor
  · change required ≤ _
    rw [hcount, weight_append, weight_cons, if_pos (decide_eq_true (Nat.le_refl v)),
      weight_all (q := fun a ↦ decide (v ≤ a)) fun e he ↦ decide_eq_true (hpre e he).le]
    omega
  · intro w hw
    by_contra hlt
    have hlow : weight (fun a ↦ decide (w ≤ a)) ((v, n) :: post) = 0 := by
      refine weight_none fun e he ↦ decide_eq_false ?_
      rcases List.mem_cons.mp he with rfl | he
      · exact hlt
      · have := hpost e he
        omega
    have hle : weight (fun a ↦ decide (w ≤ a)) pre ≤ (pre.map Prod.snd).sum := weight_le
    have hmany : required ≤ xs.countP fun x ↦ decide (w ≤ f x) := hw
    rw [hcount, weight_append, hlow] at hmany
    rcases hless with rfl | hless
    · have hzero : weight (fun a ↦ decide (w ≤ a)) ([] : List (ℕ × ℕ)) = 0 := rfl
      omega
    · omega

end Majority

section Update

variable {β : Type} {g : Siming → β} {divide : ℕ → ℕ → Option ℕ} {s t u : State} {ps : List Siming}
  {now v time n : ℕ} {overflow : Bool}

/-- What a rewrite of the virtual times and the marks leaves alone. -/
def Timeless (g : Siming → β) : Prop :=
  (∀ x now scheduled, g (x.restart now scheduled) = g x) ∧
    ∀ (x : Siming) schedule, g { x with schedule := schedule } = g x

/-- The state but for its simings and its virtual time. -/
def State.frame (s : State) : SimingSchedule × HardforkProperty × ℕ :=
  ({ s.wso with currentVirtualTime := 0 }, s.hardfork, s.maximumBlockSize)

theorem restartAll_map (hg : Timeless g) (h : restartAll divide now ps s = some (t, overflow)) :
    t.simings.map g = s.simings.map g ∧ t.frame = s.frame := by
  induction ps generalizing s with
  | nil =>
    cases h
    exact ⟨rfl, rfl⟩
  | cons p ps ih =>
    obtain ⟨lap, -, h⟩ := Option.bind_eq_some_iff.mp h
    dsimp only at h
    split at h
    · cases h
      exact ⟨rfl, rfl⟩
    · obtain ⟨hmap, hframe⟩ := ih h
      exact ⟨hmap.trans (map_modifySimings fun x _ _ ↦ hg.1 x _ _), hframe⟩

theorem reset_map (hg : Timeless g) (h : resetVirtualScheduleTime divide s = some t) :
    t.simings.map g = s.simings.map g ∧ t.frame = s.frame := by
  obtain ⟨simings, hmap, h⟩ := Option.bind_eq_some_iff.mp h
  cases h
  refine ⟨map_of_mapM hmap fun x y hxy ↦ ?_, rfl⟩
  obtain ⟨lap, -, rfl⟩ := Option.map_eq_some_iff.mp hxy
  exact hg.1 x 0 lap

theorem advance_map (hg : Timeless g) (h : advanceVirtualTime divide ps now s = some (t, v)) :
    t.simings.map g = s.simings.map g ∧ t.frame = s.frame := by
  obtain ⟨⟨u, overflow⟩, hr, h⟩ := Option.bind_eq_some_iff.mp h
  obtain ⟨hmap, hframe⟩ := restartAll_map hg hr
  dsimp only at h
  split at h
  · obtain ⟨u', hu, he⟩ := Option.map_eq_some_iff.mp h
    cases he
    obtain ⟨hmap', hframe'⟩ := reset_map hg hu
    exact ⟨hmap'.trans hmap, hframe'.trans hframe⟩
  · cases h
    exact ⟨hmap, hframe⟩

theorem marked_map (hg : Timeless g) : s.marked.simings.map g = s.simings.map g :=
  (map_modifySimings fun x _ _ ↦ hg.2 x _).trans (map_modifySimings fun x _ _ ↦ hg.2 x _)

theorem median_spec (h : updateMedianSimingProps s = some t) :
    ∃ active fee size threshold, s.scheduled = some active ∧
      medianOf (fun x ↦ x.props.accountCreationFee) active = some fee ∧
      medianOf (fun x ↦ x.props.maximumBlockSize) active = some size ∧
      medianOf (fun x ↦ x.props.proposalAdoptedVotesThreshold) active = some threshold ∧
      t = { s with
        wso := { s.wso with medianProps := ⟨fee, size, threshold⟩ }, maximumBlockSize := size } := by
  obtain ⟨active, hactive, h⟩ := Option.bind_eq_some_iff.mp h
  obtain ⟨fee, hfee, h⟩ := Option.bind_eq_some_iff.mp h
  obtain ⟨size, hsize, h⟩ := Option.bind_eq_some_iff.mp h
  obtain ⟨threshold, hthreshold, h⟩ := Option.bind_eq_some_iff.mp h
  cases h
  exact ⟨active, fee, size, threshold, hactive, hfee, hsize, hthreshold, rfl⟩

theorem update_map (hg : Timeless g) (h : updateSimingSchedule4 divide time n s = some t) :
    t.simings.map g = s.simings.map g := by
  obtain ⟨u, v, scheduled, hu, -, ht⟩ := update_some_iff.mp h
  obtain ⟨active, fee, size, threshold, -, -, -, -, rfl⟩ := median_spec ht
  exact (advance_map hg hu).1.trans (marked_map hg)

end Update

end Taiyi.Schedule
