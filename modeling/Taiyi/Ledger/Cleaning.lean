import Taiyi.Ledger.CultivationSpec

set_option autoImplicit false

namespace Taiyi.Ledger

open Library.IdMap Library.Outcome Library.Frame

section Index

variable {rows : List (ℕ × Cultivation)} {b c d : ℕ × Cultivation} {t : Table Cultivation}
  {cult : ℕ}

theorem startsBefore_trans (h : startsBefore b c) (h' : startsBefore c d) : startsBefore b d := by
  unfold startsBefore at *
  omega

theorem firstStarted_mem (h : firstStarted rows = some b) : b ∈ rows := by
  induction rows with
  | nil => cases h
  | cons c rows ih =>
    unfold firstStarted at h
    split at h
    · cases h
      exact List.mem_cons_self
    · next d hd =>
      split at h
      · cases h
        exact List.mem_cons_self
      · exact List.mem_cons_of_mem _ (ih (hd.trans h))

theorem firstStarted_eq_none : firstStarted rows = none ↔ rows = [] := by
  cases rows with
  | nil => exact ⟨fun _ ↦ rfl, fun _ ↦ rfl⟩
  | cons c rows =>
    unfold firstStarted
    split
    · exact ⟨nofun, nofun⟩
    · split <;> exact ⟨nofun, nofun⟩

/-- No row stands before the first one. -/
theorem not_before_firstStarted (h : firstStarted rows = some b) :
    ∀ d ∈ rows, ¬startsBefore d b := by
  induction rows generalizing b with
  | nil => cases h
  | cons c rows ih =>
    have hself : ∀ b : ℕ × Cultivation, ¬startsBefore b b := fun b ↦ by
      unfold startsBefore
      omega
    unfold firstStarted at h
    intro d hd
    split at h
    · next hnone =>
      cases h
      rw [firstStarted_eq_none] at hnone
      subst hnone
      rw [List.mem_singleton.mp hd]
      exact hself _
    · next e he =>
      split at h
      · next hbe =>
        cases h
        rcases List.mem_cons.mp hd with rfl | hd
        · exact hself _
        · exact fun hdb ↦ ih he d hd (startsBefore_trans hdb hbe)
      · next hbe =>
        cases h
        rcases List.mem_cons.mp hd with rfl | hd
        · exact hbe
        · exact ih he d hd

theorem first_mem {e : Cultivation} (h : firstByStartTime t = some (cult, e)) :
    t[cult]? = some e := (mem_toList _ _ _).mp (firstStarted_mem h)

theorem first_le {e e' : Cultivation} {b : ℕ} (h : firstByStartTime t = some (cult, e))
    (hb : t[b]? = some e') :
    e.startTime < e'.startTime ∨ e.startTime = e'.startTime ∧ cult ≤ b := by
  have hn := not_before_firstStarted h (b, e') ((mem_toList _ _ _).mpr hb)
  unfold startsBefore at hn
  dsimp only at hn
  omega

theorem exists_first {e : Cultivation} (h : t[cult]? = some e) :
    ∃ b d, firstByStartTime t = some (b, d) := by
  cases hf : firstByStartTime t with
  | some r => exact ⟨r.1, r.2, rfl⟩
  | none =>
    rw [firstByStartTime, firstStarted_eq_none] at hf
    have hm := (mem_toList _ _ _).mpr h
    rw [hf] at hm
    cases hm

/-- A row that has moved to the end of the index is followed by rows like it. -/
theorem next_unstarted {e : Cultivation} (hc : t[cult]? = some e) (he : e.startTime = maximum)
    (ht : ∀ (b : ℕ) (d : Cultivation), t[b]? = some d → d.startTime ≤ maximum)
    (h : nextByStartTime t cult = some b) : b.2.startTime = maximum := by
  rw [nextByStartTime, hc] at h
  obtain ⟨hm, hbefore⟩ := List.mem_filter.mp (firstStarted_mem h)
  have hle := ht b.1 b.2 ((mem_toList _ _ _).mp hm)
  have hb := of_decide_eq_true hbefore
  unfold startsBefore at hb
  dsimp only at hb
  omega

theorem first_iff {e : Cultivation} :
    firstByStartTime t = some (cult, e) ↔ t[cult]? = some e ∧
      ∀ (b : ℕ) (d : Cultivation), t[b]? = some d →
        e.startTime < d.startTime ∨ e.startTime = d.startTime ∧ cult ≤ b := by
  refine ⟨fun h ↦ ⟨first_mem h, fun b d ↦ first_le h⟩, fun ⟨he, hle⟩ ↦ ?_⟩
  obtain ⟨b, d, hf⟩ := exists_first he
  have h₁ := hle b d (first_mem hf)
  have h₂ := first_le hf he
  have hb : b = cult := by omega
  subst hb
  cases he.symm.trans (first_mem hf)
  exact hf

end Index

section Expiry

variable {hash : ℕ → ℕ} {seed turns : ℕ} {s : State} {cult : ℕ} {c : Cultivation}

/-- The test of the loop: a started cultivation whose time is over. -/
def Cultivation.expired (c : Cultivation) (head : ℕ) : Prop :=
  c.startTime ≠ maximum ∧ (c.startTime + cultivationMaxTime) % 2 ^ 32 ≤ head

theorem stopExpired_of_not (h : ¬c.expired s.props.headBlockNumber) :
    (stopExpired hash seed turns (some (cult, c))).run s = .ok [] s := by
  have hc : c.startTime = maximum ∨
      s.props.headBlockNumber < (c.startTime + cultivationMaxTime) % 2 ^ 32 := by
    unfold Cultivation.expired at h
    omega
  cases turns with
  | zero => rfl
  | succ turns => exact bind_ok.mpr ⟨s, s, rfl, by rw [if_pos hc]; rfl⟩

theorem stopExpired_none : (stopExpired hash seed turns none).run s = .ok [] s := by
  cases turns <;> rfl

/-- The row that was stopped is the last to look at: it is unstarted again, and so are the rows
after it. -/
theorem stopExpired_once {r : State} {f : RewardFund} (hc : s.cultivations[cult]? = some c)
    (he : c.expired s.props.headBlockNumber)
    (hu : (updateCultivation hash cult seed).run s = .ok ⟨⟩ r) (hb : Backed s c f)
    (hmax : ∀ (b : ℕ) (d : Cultivation), s.cultivations[b]? = some d → d.startTime ≤ maximum) :
    ∃ t, (stopExpired hash seed (turns + 1) (some (cult, c))).run s = .ok [cult] t ∧
      world t = world s ∧ t.cultivations = s.cultivations.insert cult c.dissolved := by
  obtain ⟨t, ht, hw, hct⟩ := stopCultivation_spec hu hc hb
  have hget : ∀ b : ℕ, t.cultivations[b]? =
      if cult = b then some c.dissolved else s.cultivations[b]? := fun b ↦ by
    rw [hct, getElem?_insert]
  have hstay : ∀ (b : ℕ) (d : Cultivation), t.cultivations[b]? = some d → d.startTime ≤ maximum := by
    intro b d hd
    rw [hget] at hd
    split at hd
    · cases hd
      exact le_rfl
    · exact hmax b d hd
  have hrest : (stopExpired hash seed turns (nextByStartTime t.cultivations cult)).run t =
      .ok [] t := by
    cases hn : nextByStartTime t.cultivations cult with
    | none => exact stopExpired_none
    | some b =>
      have hb := next_unstarted ((hget cult).trans (if_pos rfl)) rfl hstay hn
      exact stopExpired_of_not fun h ↦ h.1 hb
  have hnot : ¬(c.startTime = maximum ∨
      s.props.headBlockNumber < (c.startTime + cultivationMaxTime) % 2 ^ 32) := by
    unfold Cultivation.expired at he
    omega
  refine ⟨t, bind_ok.mpr ⟨s, s, rfl, ?_⟩, hw, hct⟩
  rw [if_neg hnot]
  exact bind_ok.mpr ⟨⟨⟩, t, ht, bind_ok.mpr ⟨t, t, rfl, bind_ok.mpr ⟨[], t, hrest, rfl⟩⟩⟩

end Expiry

section Clean

variable {hash : ℕ → ℕ} {seed : ℕ} {s t : State} {cult : ℕ} {c : Cultivation}

theorem mem_overdue : cult ∈ overdue s ↔ ∃ c, s.cultivations[cult]? = some c ∧
    c.startDeadline ≤ s.props.headBlockNumber ∧ c.startTime = maximum := by
  simp [overdue]

theorem removeAll_spec (l : List ℕ) : ∃ t, (l.forM removeCultivation).run s = .ok ⟨⟩ t ∧
    world t = world s ∧ ∀ b : ℕ, t.cultivations[b]? = if b ∈ l then none else s.cultivations[b]? := by
  induction l generalizing s with
  | nil => exact ⟨s, rfl, rfl, fun _ ↦ rfl⟩
  | cons a l ih =>
    obtain ⟨t, ht, hw, hget⟩ := ih (s := { s with cultivations := s.cultivations.erase a })
    refine ⟨t, forM_cons_ok.mpr ⟨_, rfl, ht⟩, hw, fun b ↦ ?_⟩
    rw [hget, getElem?_erase]
    by_cases hab : a = b
    · simp [hab]
    · simp [hab, Ne.symm hab]

/-- No cultivation runs on after its time, and none is left that missed its start. -/
structure Clear (s : State) : Prop where
  running : ∀ (cult : ℕ) (c : Cultivation), s.cultivations[cult]? = some c →
    c.startTime ≠ maximum → s.props.headBlockNumber ≤ c.startTime + cultivationMaxTime
  unstarted : ∀ (cult : ℕ) (c : Cultivation), s.cultivations[cult]? = some c →
    c.startTime = maximum → s.props.headBlockNumber < c.startDeadline

/-- Cleaning up returns, and misses nothing. -/
def Cleaned (hash : ℕ → ℕ) (seed : ℕ) (s : State) : Prop :=
  ∃ t, (cleanCultivations hash seed).run s = .ok ⟨⟩ t ∧ Clear t

/-- The NFAs of a cultivation are all there, and it has not started in the future. -/
structure Kept (s : State) (c : Cultivation) : Prop where
  participants : Participants s c
  beneficiaries : ∀ b ∈ c.beneficiaryMap.toList, Exists s b.1
  nonempty : c.beneficiaryMap.toList ≠ []
  started : c.startTime = maximum ∨ c.startTime ≤ s.props.headBlockNumber

structure Sound (s : State) : Prop where
  kept : ∀ (cult : ℕ) (c : Cultivation), s.cultivations[cult]? = some c → Kept s c
  head : s.props.headBlockNumber < maximum
  fund : (s.funds[cultivationFund]?).isSome

/-- At most one cultivation is beyond its time, and the one that is stopped can be settled: what
it has gained since its last update can be found out, and its shares of the fund fit. -/
structure Tidy (s : State) : Prop where
  alone : ∀ (a b : ℕ) (c d : Cultivation), s.cultivations[a]? = some c →
    s.cultivations[b]? = some d → c.startTime + cultivationMaxTime < s.props.headBlockNumber →
    d.startTime + cultivationMaxTime < s.props.headBlockNumber → a = b
  surveyable : ∀ (cult : ℕ) (c : Cultivation), firstByStartTime s.cultivations = some (cult, c) →
    c.expired s.props.headBlockNumber → c.lastUpdateTime < s.props.headBlockNumber → Surveyable s c
  fits : ∀ (cult : ℕ) (c : Cultivation) (f : RewardFund),
    firstByStartTime s.cultivations = some (cult, c) → c.expired s.props.headBlockNumber →
    s.funds[cultivationFund]? = some f →
    ∀ b ∈ c.beneficiaryMap.toList, f.rewardQiBalance * b.2 < 2 ^ 63

theorem Sound.startTime_le (hs : Sound s) (hc : s.cultivations[cult]? = some c) :
    c.startTime ≤ maximum := by
  have := (hs.kept cult c hc).started
  have := hs.head
  omega

/-- The state after the cultivations that missed their start were dissolved. -/
theorem dissolve_overdue (hs : Sound s) :
    ∃ t, ((overdue s).forM dissolveCultivation).run s = .ok ⟨⟩ t ∧ world t = world s ∧
      t.funds = s.funds ∧ ∀ cult : ℕ, t.cultivations[cult]? =
        if cult ∈ overdue s then (s.cultivations[cult]?).map Cultivation.dissolved
        else s.cultivations[cult]? :=
  dissolveAll_spec fun cult h ↦ by
    obtain ⟨c, hc, -⟩ := mem_overdue.mp h
    exact ⟨c, hc, (hs.kept cult c hc).participants⟩

section Dissolved

variable (ht : ∀ cult : ℕ, t.cultivations[cult]? =
  if cult ∈ overdue s then (s.cultivations[cult]?).map Cultivation.dissolved
  else s.cultivations[cult]?)

include ht

/-- A cultivation that is dissolved keeps its place in the index. -/
theorem startTime_dissolved {d : Cultivation} (hd : t.cultivations[cult]? = some d) :
    ∃ c, s.cultivations[cult]? = some c ∧ c.startTime = d.startTime ∧
      (d.startTime ≠ maximum → c = d) := by
  rw [ht] at hd
  split at hd
  · next hm =>
    obtain ⟨c, hc, -, hmax⟩ := mem_overdue.mp hm
    rw [hc] at hd
    cases hd
    exact ⟨c, hc, hmax, fun h ↦ absurd rfl h⟩
  · exact ⟨d, hd, rfl, fun _ ↦ rfl⟩

theorem dissolved_startTime (hc : s.cultivations[cult]? = some c) :
    ∃ d, t.cultivations[cult]? = some d ∧ d.startTime = c.startTime := by
  by_cases hm : cult ∈ overdue s
  · obtain ⟨c', hc', -, hmax⟩ := mem_overdue.mp hm
    cases hc.symm.trans hc'
    exact ⟨c.dissolved, by rw [ht, if_pos hm, hc, Option.map_some], hmax.symm⟩
  · exact ⟨c, by rw [ht, if_neg hm, hc], rfl⟩

theorem first_dissolved {d : Cultivation}
    (hd : firstByStartTime t.cultivations = some (cult, d)) :
    ∃ c, firstByStartTime s.cultivations = some (cult, c) ∧ c.startTime = d.startTime ∧
      (d.startTime ≠ maximum → c = d) := by
  obtain ⟨hd, hle⟩ := first_iff.mp hd
  obtain ⟨c, hc, hst, heq⟩ := startTime_dissolved ht hd
  refine ⟨c, first_iff.mpr ⟨hc, fun b e he ↦ ?_⟩, hst, heq⟩
  obtain ⟨e', he', hst'⟩ := dissolved_startTime ht he
  rw [hst, ← hst']
  exact hle b e' he'

end Dissolved

theorem head_of_world (h : world t = world s) :
    t.props.headBlockNumber = s.props.headBlockNumber := congrArg (fun w ↦ w.2.2.2) h

theorem surveyable_congr (h : world t = world s) : Surveyable t c ↔ Surveyable s c := by
  have ha : t.actors = s.actors := congrArg (fun w ↦ w.2.1) h
  have hz : t.zones = s.zones := congrArg (fun w ↦ w.2.2.1) h
  have hm : ∀ id, HasMaterial t id ↔ HasMaterial s id := fun id ↦ hasMaterial_congr h
  constructor
  · intro ⟨⟨actor, z, zone, h₁, h₂, h₃, h₄⟩, hp⟩
    exact ⟨⟨actor, z, zone, ha ▸ h₁, h₂, hz ▸ h₃, (hm _).mp h₄⟩, fun p hpm ↦ (hm p).mp (hp p hpm)⟩
  · intro ⟨⟨actor, z, zone, h₁, h₂, h₃, h₄⟩, hp⟩
    exact ⟨⟨actor, z, zone, ha ▸ h₁, h₂, hz ▸ h₃, (hm _).mpr h₄⟩,
      fun p hpm ↦ (hm p).mpr (hp p hpm)⟩

/-- A state that is dissolved so far, with what the loop does to it. -/
theorem stopExpired_tidy (hs : Sound s) (htidy : Tidy s) (hw : world t = world s)
    (hf : t.funds = s.funds) (ht : ∀ cult : ℕ, t.cultivations[cult]? =
      if cult ∈ overdue s then (s.cultivations[cult]?).map Cultivation.dissolved
      else s.cultivations[cult]?) {turns : ℕ} :
    ∃ stopped q, (stopExpired hash seed (turns + 1) (firstByStartTime t.cultivations)).run t =
        .ok stopped q ∧ world q = world s ∧
      (∀ b : ℕ, b ∉ stopped → q.cultivations[b]? = t.cultivations[b]?) ∧
      ∀ (b : ℕ) (e : Cultivation), s.cultivations[b]? = some e → e.startTime ≠ maximum →
        b ∉ stopped → s.props.headBlockNumber ≤ e.startTime + cultivationMaxTime := by
  have hhead := head_of_world hw
  cases hfirst : firstByStartTime t.cultivations with
  | none =>
    refine ⟨[], t, stopExpired_none, hw, fun _ _ ↦ rfl, fun b e he _ _ ↦ ?_⟩
    obtain ⟨d, hd, -⟩ := dissolved_startTime ht he
    obtain ⟨b', d', hb'⟩ := exists_first hd
    cases hfirst.symm.trans hb'
  | some row =>
    obtain ⟨cult, d⟩ := row
    obtain ⟨c, hc, hst, heq⟩ := first_dissolved ht hfirst
    by_cases he : d.expired t.props.headBlockNumber
    · -- the first cultivation is beyond its time, and so it is running
      obtain rfl := heq he.1
      rw [hhead] at he
      have hcs := first_mem hc
      obtain ⟨f, hfund⟩ := Option.isSome_iff_exists.mp hs.fund
      have hk := hs.kept cult c hcs
      have hback : Backed t c f :=
        { participants := fun p hp ↦ (exists_congr_world hw).mpr (hk.participants p hp)
          beneficiaries := fun b hbm ↦ (exists_congr_world hw).mpr (hk.beneficiaries b hbm)
          nonempty := hk.nonempty
          fund := hf ▸ hfund
          fits := htidy.fits cult c f hc he hfund }
      have hle : c.startTime ≤ t.props.headBlockNumber :=
        hhead ▸ hk.started.resolve_left he.1
      obtain ⟨u, r, hu⟩ := (@updateCultivation_succeeds hash t cult seed c
        (first_mem hfirst) he.1 hle).mpr fun hlt ↦
          (surveyable_congr hw).mpr (htidy.surveyable cult c hc he (hhead ▸ hlt))
      have hmax : ∀ (b : ℕ) (e : Cultivation), t.cultivations[b]? = some e →
          e.startTime ≤ maximum := fun b e he ↦ by
        obtain ⟨e', he', hst', -⟩ := startTime_dissolved ht he
        exact hst' ▸ hs.startTime_le he'
      obtain ⟨q, hq, hqw, hqc⟩ :=
        @stopExpired_once hash seed turns t cult c r f (first_mem hfirst) (hhead ▸ he) hu hback hmax
      refine ⟨[cult], q, hq, hqw.trans hw, fun b hb ↦ ?_, fun b e hbe hrun hb ↦ ?_⟩
      · rw [hqc, getElem?_insert, if_neg fun h ↦ hb (List.mem_singleton.mpr h.symm)]
      · by_contra hlt
        have hfst := first_le hc hbe
        exact hb (List.mem_singleton.mpr
          (htidy.alone b cult e c hbe hcs (by omega) (by omega)))
    · refine ⟨[], t, stopExpired_of_not he, hw, fun _ _ ↦ rfl, fun b e hbe hrun _ ↦ ?_⟩
      have hfst := first_le hc hbe
      have hmax := hs.startTime_le hbe
      rw [hhead] at he
      unfold Cultivation.expired at he
      rw [← hst] at he
      omega

/-- Cleaning up a tidy state. -/
theorem cleaned_of_sound (hs : Sound s) (htidy : Tidy s) : Cleaned hash seed s := by
  obtain ⟨t, ht, hw, hf, hget⟩ := dissolve_overdue hs
  obtain ⟨stopped, q, hq, hqw, hqc, hrun⟩ := @stopExpired_tidy hash seed s t hs htidy hw hf hget
    t.cultivations.size
  obtain ⟨r, hr, hrw, hrc⟩ := removeAll_spec (s := q) (overdue s ++ stopped)
  refine ⟨r, bind_ok.mpr ⟨s, s, rfl, bind_ok.mpr ⟨⟨⟩, t, ht, bind_ok.mpr ⟨t, t, rfl,
    bind_ok.mpr ⟨stopped, q, hq, hr⟩⟩⟩⟩, ?_⟩
  have hleft : ∀ (b : ℕ) (c : Cultivation), r.cultivations[b]? = some c →
      b ∉ overdue s ∧ b ∉ stopped ∧ s.cultivations[b]? = some c := fun b c hc ↦ by
    rw [hrc] at hc
    split at hc
    · cases hc
    · next hb =>
      obtain ⟨hlate, hstop⟩ := not_or.mp (fun h ↦ hb (List.mem_append.mpr h))
      rw [hqc b hstop, hget, if_neg hlate] at hc
      exact ⟨hlate, hstop, hc⟩
  have hhead := head_of_world (hrw.trans hqw)
  refine ⟨fun b c hc hst ↦ ?_, fun b c hc hst ↦ ?_⟩
  · obtain ⟨-, hstop, hcs⟩ := hleft b c hc
    rw [hhead]
    exact hrun b c hcs hst hstop
  · obtain ⟨hlate, -, hcs⟩ := hleft b c hc
    rw [hhead]
    by_contra hle
    exact hlate (mem_overdue.mpr ⟨c, hcs, not_lt.mp hle, hst⟩)

end Clean

end Taiyi.Ledger
