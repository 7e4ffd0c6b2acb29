import Taiyi.Schedule.Votes

set_option autoImplicit false

namespace Taiyi.Schedule

open Library.Attempt

/-- The times and versions of the hardforks 0, …, `num` that the program was built with. -/
structure HardforkVersions where
  num : ℕ
  times : ℕ → ℕ
  versions : ℕ → ℕ

/-- `TAIYI_NUM_HARDFORKS` and the table that `init_hardforks` fills. -/
def taiyiHardforks : HardforkVersions where
  num := 0
  times _ := 1762840800
  versions _ := 0

/-- A target over one known hardfork reaches the next one. -/
def HardforkVersions.Covers (v : HardforkVersions) (target : ℕ) : Prop :=
  ∀ n, n < v.num → v.versions n < target → v.versions (n + 1) ≤ target

namespace HardforkProperty

variable (v : HardforkVersions)

/-- `apply_hardfork`, which throws when a hardfork is applied out of order. -/
def apply (hardfork : ℕ) (h : HardforkProperty) : Option HardforkProperty :=
  if hardfork = h.lastHardfork + 1 ∧ h.processedHardforks.length = hardfork then
    some { h with
      processedHardforks := h.processedHardforks ++ [v.times hardfork]
      lastHardfork := hardfork
      currentHardforkVersion := v.versions hardfork }
  else none

def upcoming (headBlockTime : ℕ) (h : HardforkProperty) : Prop :=
  v.versions h.lastHardfork < h.nextHardfork ∧ h.nextHardforkTime ≤ headBlockTime

instance (headBlockTime : ℕ) (h : HardforkProperty) : Decidable (h.upcoming v headBlockTime) :=
  inferInstanceAs (Decidable (_ ∧ _))

/-- The loop of `process_hardforks` with so many hardforks left, and those it applies. It throws
when a hardfork is due that the program does not know. -/
def processFrom (headBlockTime : ℕ) : ℕ → HardforkProperty → Option (HardforkProperty × List ℕ)
  | 0, h => if h.upcoming v headBlockTime then none else some (h, [])
  | left + 1, h =>
    if h.upcoming v headBlockTime then do
      let h' ← h.apply v (h.lastHardfork + 1)
      let (h'', hardforks) ← processFrom headBlockTime left h'
      some (h'', (h.lastHardfork + 1) :: hardforks)
    else some (h, [])

def process (headBlockTime : ℕ) (h : HardforkProperty) : Option (HardforkProperty × List ℕ) :=
  h.processFrom v headBlockTime (v.num - h.lastHardfork)

end HardforkProperty

def Siming.hardforkVote (x : Siming) : ℕ × ℕ := (x.hardforkVersionVote, x.hardforkTimeVote)

/-- What comes of the votes of the scheduled simings. -/
structure Voted (l : List Siming) (s t : State) : Prop where
  voted : t.hardfork.currentHardforkVersion < t.hardfork.nextHardfork →
    taiyiHardforkRequiredSimings ≤
      l.countP fun x ↦ x.hardforkVote = (t.hardfork.nextHardfork, t.hardfork.nextHardforkTime)
  reset : (∀ vote, (l.countP fun x ↦ x.hardforkVote = vote) < taiyiHardforkRequiredSimings) →
    t.hardfork.nextHardfork = t.hardfork.currentHardforkVersion
  majority : t.wso.majorityVersion ≠ s.wso.majorityVersion →
    IsGreatest {v | taiyiHardforkRequiredSimings ≤ l.countP fun x ↦ decide (v ≤ x.runningVersion)}
      t.wso.majorityVersion

/-- A hardfork that was applied, with the target then in force and the time of the head block. -/
structure Applied where
  hardfork : ℕ
  target : ℕ
  targetTime : ℕ
  headBlockTime : ℕ

/-- The states of the runs from `s₀` and the hardforks applied in them. -/
inductive HardforkRuns (divide : ℕ → ℕ → Option ℕ) (v : HardforkVersions) (s₀ : State) :
    List Applied → State → Prop
  | start : HardforkRuns divide v s₀ [] s₀
  | step {log : List Applied} {s t : State} (st : Step) : HardforkRuns divide v s₀ log s →
      s.step divide st = some t → HardforkRuns divide v s₀ log t
  | process {log : List Applied} {s : State} {h : HardforkProperty} {hardforks : List ℕ}
      (headBlockTime : ℕ) : HardforkRuns divide v s₀ log s →
      s.hardfork.process v headBlockTime = some (h, hardforks) →
      HardforkRuns divide v s₀
        (log ++ hardforks.map fun n ↦
          ⟨n, s.hardfork.nextHardfork, s.hardfork.nextHardforkTime, headBlockTime⟩)
        { s with hardfork := h }

section Process

variable {v : HardforkVersions} {now left : ℕ} {h h' : HardforkProperty} {hardforks : List ℕ}

theorem apply_eq_some {n : ℕ} (hh : h.apply v n = some h') :
    n = h.lastHardfork + 1 ∧ h'.lastHardfork = n ∧ h'.nextHardfork = h.nextHardfork ∧
      h'.nextHardforkTime = h.nextHardforkTime := by
  unfold HardforkProperty.apply at hh
  split at hh
  · next hn =>
    cases hh
    exact ⟨hn.1, rfl, rfl, rfl⟩
  · cases hh

/-- The loop applies the hardforks after the last one in their order, each under the target. -/
theorem processFrom_spec (hh : h.processFrom v now left = some (h', hardforks)) :
    hardforks = List.range' (h.lastHardfork + 1) hardforks.length ∧
      h'.lastHardfork = h.lastHardfork + hardforks.length ∧ hardforks.length ≤ left ∧
      ∀ n ∈ hardforks, v.versions (n - 1) < h.nextHardfork ∧ h.nextHardforkTime ≤ now := by
  induction left generalizing h hardforks with
  | zero =>
    rw [HardforkProperty.processFrom] at hh
    split at hh
    · cases hh
    · cases hh
      exact ⟨rfl, rfl, Nat.le_refl 0, nofun⟩
  | succ left ih =>
    rw [HardforkProperty.processFrom] at hh
    split at hh
    · next hup =>
      obtain ⟨h₁, happly, hh⟩ := Option.bind_eq_some_iff.mp hh
      obtain ⟨⟨h₂, rest⟩, hrest, hh⟩ := Option.bind_eq_some_iff.mp hh
      cases hh
      obtain ⟨-, hlast, hnext, htime⟩ := apply_eq_some happly
      obtain ⟨hrange, hend, hlen, hall⟩ := ih hrest
      rw [hlast] at hrange hend
      refine ⟨?_, ?_, Nat.succ_le_succ hlen, ?_⟩
      · rw [List.length_cons, List.range'_succ, ← hrange]
      · rw [hend, List.length_cons]
        omega
      · rintro n hn
        rcases List.mem_cons.mp hn with rfl | hn
        · exact hup
        · rw [← hnext, ← htime]
          exact hall n hn
    · cases hh
      exact ⟨rfl, rfl, Nat.zero_le _, nofun⟩

end Process

section Vote

variable {divide : ℕ → ℕ → Option ℕ} {s t u : State} {l : List Siming} {time n : ℕ}

/-- A siming's name, its version and its vote. -/
def Siming.ballot (x : Siming) : ℕ × ℕ × ℕ × ℕ := (x.owner, x.runningVersion, x.hardforkVote)

theorem ballot_timeless : Timeless Siming.ballot := ⟨fun _ _ _ ↦ rfl, fun _ _ ↦ rfl⟩

theorem getSiming_ballot (h : u.simings.map Siming.ballot = s.simings.map Siming.ballot)
    (slot : Option ℕ) : (s.getSiming slot).map Siming.ballot = (u.getSiming slot).map Siming.ballot := by
  cases slot with
  | none => rfl
  | some name =>
    have hfind (w : State) : (w.getSiming (some name)).map Siming.ballot =
        (w.simings.map Siming.ballot).find? fun b ↦ decide (b.1 = name) := by
      rw [List.find?_map]
      rfl
    rw [hfind, hfind, h]

/-- The votes of the schedule are those before its virtual time was advanced. -/
theorem scheduled_ballots (hmap : u.simings.map Siming.ballot = s.simings.map Siming.ballot)
    (hframe : u.frame = s.frame) (hl : u.scheduled = some l) :
    ∃ l', s.scheduled = some l' ∧ l'.map Siming.ballot = l.map Siming.ballot := by
  have hslots : u.wso.currentShuffledSimings.toList.take u.wso.numScheduledSimings =
      s.wso.currentShuffledSimings.toList.take s.wso.numScheduledSimings :=
    congrArg (fun f : SimingSchedule × HardforkProperty × ℕ ↦
      f.1.currentShuffledSimings.toList.take f.1.numScheduledSimings) hframe
  unfold State.scheduled at hl ⊢
  rw [← hslots]
  exact mapM_congr_view hl (getSiming_ballot hmap)

theorem countP_ballot {l' : List Siming} (h : l'.map Siming.ballot = l.map Siming.ballot)
    (p : ℕ × ℕ × ℕ × ℕ → Bool) :
    (l'.countP fun x ↦ p x.ballot) = l.countP fun x ↦ p x.ballot := by
  have hmap (k : List Siming) : (k.countP fun x ↦ p x.ballot) = (k.map Siming.ballot).countP p := by
    rw [List.countP_map]
    rfl
  rw [hmap, hmap, h]

/-- A target is one that enough simings vote for, and without one the current version is it. -/
theorem voteHardfork_cases :
    (∃ vote, (u.wso.hardforkRequiredSimings ≤ l.countP fun x ↦ x.hardforkVote = vote) ∧
      (u.voteHardfork l).hardfork =
        { u.hardfork with nextHardfork := vote.1, nextHardforkTime := vote.2 }) ∨
      (u.voteHardfork l).hardfork =
        { u.hardfork with nextHardfork := u.hardfork.currentHardforkVersion } := by
  unfold State.voteHardfork
  dsimp only
  split
  · next version time n hfind =>
    have hcount : n = l.countP fun x ↦ x.hardforkVote = (version, time) :=
      count_of_mem ascending (List.mem_of_find?_eq_some hfind)
    have hmany : u.wso.hardforkRequiredSimings ≤ n := by simpa using List.find?_some hfind
    exact .inl ⟨(version, time), hcount ▸ hmany, rfl⟩
  · exact .inr rfl

theorem voted_of_update (hreq : s.wso.hardforkRequiredSimings = taiyiHardforkRequiredSimings)
    (h : updateSimingSchedule4 divide time n s = some t) :
    ∃ l, s.scheduled = some l ∧ Voted l s t := by
  obtain ⟨u, v, scheduled, hu, hscheduled, hmedian⟩ := update_some_iff.mp h
  obtain ⟨hmap, hframe⟩ := advance_map ballot_timeless hu
  obtain ⟨active, fee, size, threshold, -, -, -, -, rfl⟩ := median_spec hmedian
  have hframe : u.frame = s.frame := hframe
  obtain ⟨l, hl, hballots⟩ := scheduled_ballots (hmap.trans (marked_map ballot_timeless)) hframe hscheduled
  have hrequired : u.wso.hardforkRequiredSimings = taiyiHardforkRequiredSimings :=
    (congrArg (fun f : SimingSchedule × HardforkProperty × ℕ ↦ f.1.hardforkRequiredSimings) hframe).trans
      hreq
  have hmajority : u.wso.majorityVersion = s.wso.majorityVersion :=
    congrArg (fun f : SimingSchedule × HardforkProperty × ℕ ↦ f.1.majorityVersion) hframe
  have hvotes (vote : ℕ × ℕ) : (l.countP fun x ↦ x.hardforkVote = vote) =
      scheduled.countP fun x ↦ x.hardforkVote = vote :=
    countP_ballot hballots fun b ↦ decide (b.2.2 = vote)
  have hcases := voteHardfork_cases (u := u) (l := scheduled)
  rw [hrequired] at hcases
  refine ⟨l, hl, fun hnext ↦ ?_, fun hfew ↦ ?_, fun hchanged ↦ ?_⟩
  · change (u.voteHardfork scheduled).hardfork.currentHardforkVersion <
      (u.voteHardfork scheduled).hardfork.nextHardfork at hnext
    change _ ≤ l.countP fun x ↦ x.hardforkVote =
      ((u.voteHardfork scheduled).hardfork.nextHardfork, (u.voteHardfork scheduled).hardfork.nextHardforkTime)
    rw [hvotes]
    rcases hcases with ⟨vote, hmany, hvote⟩ | hcurrent
    · rwa [hvote]
    · rw [hcurrent] at hnext
      exact absurd hnext (Nat.lt_irrefl _)
  · change (u.voteHardfork scheduled).hardfork.nextHardfork =
      (u.voteHardfork scheduled).hardfork.currentHardforkVersion
    rcases hcases with ⟨vote, hmany, -⟩ | hcurrent
    · have hless := hfew vote
      rw [hvotes] at hless
      exact absurd hmany (Nat.not_le.mpr hless)
    · rw [hcurrent]
  · have hversions (w : ℕ) : (l.countP fun x ↦ decide (w ≤ x.runningVersion)) =
        scheduled.countP fun x ↦ decide (w ≤ x.runningVersion) :=
      countP_ballot hballots fun b ↦ decide (w ≤ b.2.1)
    simp only [hversions]
    change u.majorityVersion scheduled ≠ _ at hchanged
    change IsGreatest _ (u.majorityVersion scheduled)
    unfold State.majorityVersion at hchanged ⊢
    dsimp only at hchanged ⊢
    rw [hrequired] at hchanged ⊢
    generalize hfrom : majorityFrom _ _ _ = found at hchanged ⊢
    cases found with
    | none => exact absurd hmajority hchanged
    | some w => exact majorityFrom_greatest (by decide) hfrom

end Vote

section Runs

variable {divide : ℕ → ℕ → Option ℕ} {v : HardforkVersions} {s t : State} {log : List Applied}
  {initKey time n : ℕ}

theorem update_hardfork (h : updateSimingSchedule4 divide time n s = some t) :
    t.hardfork.lastHardfork = s.hardfork.lastHardfork ∧
      t.wso.hardforkRequiredSimings = s.wso.hardforkRequiredSimings := by
  obtain ⟨u, w, scheduled, hu, -, hmedian⟩ := update_some_iff.mp h
  obtain ⟨-, hframe⟩ := advance_map ballot_timeless hu
  obtain ⟨active, fee, size, threshold, -, -, -, -, rfl⟩ := median_spec hmedian
  have hlast : u.hardfork.lastHardfork = s.hardfork.lastHardfork :=
    congrArg (fun f : SimingSchedule × HardforkProperty × ℕ ↦ f.2.1.lastHardfork) hframe
  have hrequired : u.wso.hardforkRequiredSimings = s.wso.hardforkRequiredSimings :=
    congrArg (fun f : SimingSchedule × HardforkProperty × ℕ ↦ f.1.hardforkRequiredSimings) hframe
  refine ⟨?_, hrequired⟩
  rw [← hlast]
  change (u.voteHardfork scheduled).hardfork.lastHardfork = _
  rcases voteHardfork_cases (u := u) (l := scheduled) with ⟨vote, -, hvote⟩ | hcurrent
  · rw [hvote]
  · rw [hcurrent]

theorem step_hardfork {st : Step} (h : s.step divide st = some t) :
    t.hardfork.lastHardfork = s.hardfork.lastHardfork ∧
      t.wso.hardforkRequiredSimings = s.wso.hardforkRequiredSimings := by
  cases st with
  | register owner key props =>
    simp only [State.step] at h
    split at h
    · cases h
    · cases h
      exact ⟨rfl, rfl⟩
  | setProperties owner key props =>
    obtain ⟨x, -, h⟩ := Option.bind_eq_some_iff.mp h
    cases h
    exact ⟨rfl, rfl⟩
  | report owner version vote voteTime =>
    obtain ⟨x, -, h⟩ := Option.bind_eq_some_iff.mp h
    cases h
    exact ⟨rfl, rfl⟩
  | adjustAdore owner delta totalQi =>
    obtain ⟨x, -, h⟩ := Option.bind_eq_some_iff.mp h
    obtain ⟨y, -, h⟩ := Option.bind_eq_some_iff.mp h
    cases h
    exact ⟨rfl, rfl⟩
  | updateSchedule time num =>
    simp only [State.step, updateSimingSchedule] at h
    split at h
    · exact update_hardfork h
    · cases h
      exact ⟨rfl, rfl⟩

/-- For every table of hardforks: those that are known are applied in their order, each after a
target over the version before it was in force and its time had come. -/
theorem applied_of_runs (h : HardforkRuns divide v (genesis initKey) log s) :
    s.wso.hardforkRequiredSimings = taiyiHardforkRequiredSimings ∧
      log.map Applied.hardfork = List.range' 1 s.hardfork.lastHardfork ∧
      s.hardfork.lastHardfork ≤ v.num ∧
      ∀ a ∈ log, v.versions (a.hardfork - 1) < a.target ∧ a.targetTime ≤ a.headBlockTime := by
  induction h with
  | start => exact ⟨rfl, rfl, Nat.zero_le _, nofun⟩
  | step st _ hstep ih =>
    obtain ⟨hlast, hrequired⟩ := step_hardfork hstep
    rw [hlast, hrequired]
    exact ih
  | @process log s h hardforks now _ hprocess ih =>
    obtain ⟨hrequired, hlog, hnum, hall⟩ := ih
    obtain ⟨hrange, hlast, hlen, hunder⟩ := processFrom_spec hprocess
    refine ⟨hrequired, ?_, ?_, fun a ha ↦ ?_⟩
    · change _ = List.range' 1 h.lastHardfork
      rw [List.map_append, hlog, hlast, ← List.range'_append_1, List.map_map]
      congr 1
      change hardforks.map id = _
      rw [List.map_id, Nat.add_comm]
      exact hrange
    · change h.lastHardfork ≤ v.num
      omega
    · rcases List.mem_append.mp ha with ha | ha
      · exact hall a ha
      · obtain ⟨m, hm, rfl⟩ := List.mem_map.mp ha
        exact hunder m hm

/-- The votes count as they should, and hardforks are applied in order, once and under targets that
are not below them: a target could only be below where it lies between two hardforks of the table,
and in the table of this program there are no two. -/
theorem hardforks_of_runs (h : HardforkRuns divide v (genesis initKey) log s) :
    (∀ time n t, n % taiyiMaxSimings = 0 → s.step divide (.updateSchedule time n) = some t →
      ∃ l, s.scheduled = some l ∧ Voted l s t) ∧
    log.map Applied.hardfork = List.range' 1 s.hardfork.lastHardfork ∧
    (∀ a ∈ log, a.targetTime ≤ a.headBlockTime ∧ v.versions (a.hardfork - 1) < a.target ∧
      (v.Covers a.target → v.versions a.hardfork ≤ a.target)) ∧
    ∀ target, taiyiHardforks.Covers target := by
  obtain ⟨hrequired, hlog, hnum, hall⟩ := applied_of_runs h
  refine ⟨fun time n t hn hstep ↦ ?_, hlog, fun a ha ↦ ?_, fun _ _ hm ↦ absurd hm (Nat.not_lt_zero _)⟩
  · simp only [State.step, updateSimingSchedule, if_pos hn] at hstep
    exact voted_of_update hrequired hstep
  · obtain ⟨hlt, htime⟩ := hall a ha
    have hmem : a.hardfork ∈ List.range' 1 s.hardfork.lastHardfork := hlog ▸ List.mem_map_of_mem ha
    rw [List.mem_range'_1] at hmem
    refine ⟨htime, hlt, fun hcovers ↦ ?_⟩
    have hnext := hcovers (a.hardfork - 1) (by omega) hlt
    rwa [Nat.sub_add_cancel hmem.1] at hnext

end Runs

section Example

/-- A program that knows two hardforks. -/
def twoHardforks : HardforkVersions where
  num := 2
  times n := 1762840800 + n
  versions n := n * 65536

/-- All of 21 simings vote for the second hardfork, and are scheduled before their votes count. -/
def unanimous : List Step :=
  (List.range 20).map (fun i ↦ .register (i + 1) (some 1) {}) ++
    (List.range 21).map (fun i ↦ .report i 0 (2 * 65536) 1762840900) ++
    [.updateSchedule 1762840863 21, .updateSchedule 1762840926 42]

def runSteps (divide : ℕ → ℕ → Option ℕ) (s : State) : List Step → Option State
  | [] => some s
  | st :: steps => s.step divide st >>= fun t ↦ runSteps divide t steps

theorem runs_of_runSteps {divide : ℕ → ℕ → Option ℕ} {v : HardforkVersions} {s₀ s t : State}
    {log : List Applied} {steps : List Step} (h : HardforkRuns divide v s₀ log s)
    (hrun : runSteps divide s steps = some t) : HardforkRuns divide v s₀ log t := by
  induction steps generalizing s with
  | nil =>
    cases hrun
    exact h
  | cons st steps ih =>
    obtain ⟨u, hu, hrun⟩ := Option.bind_eq_some_iff.mp hrun
    exact ih (.step st h hu) hrun

/-- Both hardforks are applied, one after the other, when the time that was voted for is reached. -/
theorem hardforks_of_runs_two : ∃ s log, HardforkRuns checkedDivide twoHardforks (genesis 1) log s ∧
    log.length = 2 ∧ log.map Applied.hardfork = List.range' 1 s.hardfork.lastHardfork ∧
    ∀ a ∈ log, a.targetTime ≤ a.headBlockTime := by
  have hrun : ((runSteps checkedDivide (genesis 1) unanimous).bind fun s ↦
      (s.hardfork.process twoHardforks 1762840929).map Prod.snd) = some [1, 2] := by decide +kernel
  obtain ⟨s, hs, hrun⟩ := Option.bind_eq_some_iff.mp hrun
  obtain ⟨⟨h, hardforks⟩, hprocess, hrun⟩ := Option.map_eq_some_iff.mp hrun
  cases hrun
  have hruns := HardforkRuns.process 1762840929 (runs_of_runSteps .start hs) hprocess
  obtain ⟨-, hlog, hunder, -⟩ := hardforks_of_runs hruns
  exact ⟨_, _, hruns, rfl, hlog, fun a ha ↦ (hunder a ha).1⟩

end Example

end Taiyi.Schedule
