import Taiyi.Proposals.LifeCycle

set_option autoImplicit false

namespace Taiyi.Proposals

variable {Value : Type} {s t u : State Value} {threshold : Int16} {execution : ℤ → Execution Value}
  {ids xs : List ℤ} {log : List Event} {headTime : ℕ} {i j : ℤ}

/-- The least that the filter lets through. -/
def State.votesThreshold (s : State Value) : ℕ :=
  min s.world.xinsuCount s.world.proposalAdoptedVotesThreshold

/-- A proposal that is due, in the votes as they are before any execution. -/
def Adopted (s : State Value) (headTime : ℕ) (i : ℤ) : Prop :=
  ∃ p ∈ s.proposals, p.id = i ∧ p.removed = false ∧ headTime ≤ p.endDate ∧
    max 1 s.votesThreshold ≤ s.countVotes i

/-- The maintenance over the active proposals in this order. -/
def State.passOver (s : State Value) (threshold : Int16) (execution : ℤ → Execution Value)
    (ids : List ℤ) : Option (State Value × List Event) :=
  executeProposals threshold execution ((s.calculateVotes ids).filterByVotes ids)
    (s.calculateVotes ids)

/-- The adopted proposals and no others are executed and marked. Only a call of their functions
can mark another. -/
structure Selects (execution : ℤ → Execution Value) (headTime : ℕ) (s t : State Value)
    (log : List Event) : Prop where
  executed : ∀ i, i ∈ log.map Event.id ↔ Adopted s headTime i
  marked : ∀ p ∈ t.proposals, Adopted s headTime p.id → p.removed = true
  others : ∀ i p, s.find i = some p → ¬Adopted s headTime i →
    (∀ j, Adopted s headTime j → (execution j).body.Avoids [i]) →
    ∃ q, t.find i = some q ∧ q.removed = p.removed

/-- Each of the proposals is still there in its turn, its contract exists, the treasury has the
qi for it, and the payments after it go through. -/
def Serves (threshold : Int16) (execution : ℤ → Execution Value) : List ℤ → State Value → Prop
  | [], _ => True
  | i :: ids, s => 100 ≤ s.world.daoQi ∧
    (∃ p, s.find i = some p ∧ (s.world.contracts p.contractName).isSome) ∧
    ∃ t, (execution i).finish threshold i s = some t ∧ Serves threshold execution ids t

section Votes

def recount (s : State Value) (ids : List ℤ) (p : Proposal Value) : Proposal Value :=
  if p.id ∈ ids then { p with totalVotes := s.countVotes p.id } else p

theorem recount_id (p : Proposal Value) : (recount s ids p).id = p.id := by
  unfold recount
  split <;> rfl

theorem recount_removed (p : Proposal Value) : (recount s ids p).removed = p.removed := by
  unfold recount
  split <;> rfl

theorem calculateVotes_eq (ids : List ℤ) (s : State Value) :
    s.calculateVotes ids = { s with proposals := s.proposals.map (recount s ids) } := by
  induction ids generalizing s with
  | nil =>
    have hmap : s.proposals.map (recount s []) = s.proposals := by
      rw [show recount s [] = id from funext fun p ↦ if_neg List.not_mem_nil, List.map_id]
    rw [hmap]
    rfl
  | cons x xs ih =>
    refine (ih (s.modifyProposal x fun p ↦ { p with totalVotes := s.countVotes x })).trans ?_
    simp only [State.modifyProposal, List.map_map]
    congr 2
    funext p
    have hcount (q : Proposal Value) :
        (s.modifyProposal x fun p ↦ { p with totalVotes := s.countVotes x }).countVotes q.id =
          s.countVotes q.id := rfl
    by_cases hx : p.id = x
    · by_cases hxs : p.id ∈ xs
      · simp [recount, hx ▸ hxs, hx]
        rfl
      · simp [recount, hx ▸ hxs, hx]
    · simp [recount, hx]
      rfl

theorem find_calculateVotes : (s.calculateVotes ids).find i = (s.find i).map (recount s ids) := by
  rw [calculateVotes_eq, State.find, List.find?_map]
  congr 2
  funext p
  simp only [Function.comp_apply, recount_id]

/-- What the filter leaves of proposals that are there. -/
theorem filterByVotes_eq (h : ∀ i ∈ ids, ∃ p, s.find i = some p) :
    (s.calculateVotes ids).filterByVotes ids = ids.filter (s.votesThreshold ≤ s.countVotes ·) := by
  refine List.filter_congr fun i hi ↦ ?_
  obtain ⟨p, hp⟩ := h i hi
  have hid := (mem_of_find hp).2
  rw [find_calculateVotes, hp, calculateVotes_eq]
  simp only [Option.map_some, recount, hid, hi, if_true]
  rfl

end Votes

section Tally

/-- No row that stays gets another number of votes. -/
def Tallied (s t : State Value) : Prop :=
  ∀ q ∈ t.proposals, q.id < s.nextId → ∃ p ∈ s.proposals, p.id = q.id ∧ p.totalVotes = q.totalVotes

theorem Tallied.refl (s : State Value) : Tallied s s := fun q hq _ ↦ ⟨q, hq, rfl, rfl⟩

theorem Tallied.trans (hle : s.nextId ≤ t.nextId) (h : Tallied s t) (h' : Tallied t u) :
    Tallied s u := fun q hq hlt ↦ by
  obtain ⟨p, hp, hid, hvotes⟩ := h' q hq (hlt.trans_le hle)
  obtain ⟨o, ho, hid', hvotes'⟩ := h p hp (hid ▸ hlt)
  exact ⟨o, ho, hid'.trans hid, hvotes'.trans hvotes⟩

theorem tallied_of_subset (h : t.proposals ⊆ s.proposals) : Tallied s t :=
  fun q hq _ ↦ ⟨q, h hq, rfl, rfl⟩

theorem tallied_markRemoved (s : State Value) (i : ℤ) : Tallied s (s.markRemoved i) := by
  intro q hq _
  obtain ⟨p, hp, rfl⟩ := List.mem_map.mp hq
  refine ⟨p, hp, ?_⟩
  split
  · exact ⟨(Proposal.markRemoved_id p).symm, (Proposal.markRemoved_totalVotes p).symm⟩
  · exact ⟨rfl, rfl⟩

theorem tallied_flagRemoved (xs : List ℤ) (s : State Value) : Tallied s (flagRemoved xs s) := by
  induction xs generalizing s with
  | nil => exact .refl s
  | cons x xs ih =>
    rw [flagRemoved]
    split
    · exact ih s
    · split
      · exact ih s
      · exact .trans (t := s.markRemoved x) (Int.le_refl _) (tallied_markRemoved s x) (ih _)

theorem tallied_exec (s : State Value) (threshold : Int16) (c : Call Value) :
    Tallied s (s.exec threshold c).2 := by
  cases c with
  | create caller contractName functionName valueList subject endTime =>
    rw [State.exec, State.createProposal]
    repeat' split
    all_goals first
      | exact .refl s
      | skip
    intro q hq hlt
    rcases List.mem_append.mp hq with hq | hq
    · exact ⟨q, hq, rfl, rfl⟩
    · rw [List.mem_singleton.mp hq] at hlt
      exact absurd hlt (Int.lt_irrefl _)
  | vote caller xs approve =>
    rw [State.exec, State.updateProposalVotes]
    split_ifs
    · exact .refl s
    · exact .refl s
    · exact .refl s
    · exact tallied_of_subset (updateVotes_proposals caller approve (idSet xs) s ▸ List.Subset.refl _)
  | remove caller xs =>
    have hown : Tallied s (removeOwn caller (idSet xs) { threshold } s).2 :=
      tallied_of_subset removeOwn_subset.subset
    rw [State.exec, State.removeProposals]
    split_ifs
    · exact .refl s
    · exact .refl s
    · exact .refl s
    · split
      · next he =>
        rw [he] at hown
        exact hown
      · next he =>
        have hid := (safe_removeOwn caller (idSet xs) { threshold } s).evolves.nextId
        rw [he] at hown hid
        exact .trans hid hown (tallied_flagRemoved _ _)

theorem tallied_run (threshold : Int16) (body : Body Value) (s : State Value) :
    Tallied s (body.run threshold s).2 := by
  induction body generalizing s with
  | done => exact .refl s
  | raise => exact .refl s
  | call c next ih =>
    exact .trans (safe_exec threshold c s).evolves.nextId (tallied_exec s threshold c) (ih _ _)
  | world w next ih => exact ih { s with world := w }

theorem tallied_finish {e : Execution Value} (h : e.finish threshold i s = some t) :
    Tallied s t := by
  have hrun := tallied_run threshold e.body s
  have heval : Tallied s (e.eval threshold s) := by
    unfold Execution.eval
    split
    · next he =>
      rw [he] at hrun
      exact hrun
    · exact .refl s
  obtain ⟨w, rfl, -⟩ := finish_eq h
  exact .trans (safe_eval e threshold s).evolves.nextId heval
    (tallied_markRemoved { e.eval threshold s with world := w } i)

end Tally

section Loop

/-- A loop that serves each proposal, and finds votes for each, executes them all in their order. -/
theorem executes_all (hserves : Serves threshold execution ids s)
    (hfresh : ∀ i ∈ ids, i < s.nextId)
    (hvotes : ∀ p ∈ s.proposals, p.id ∈ ids → p.totalVotes ≠ 0) :
    ∃ t log, executeProposals threshold execution ids s = some (t, log) ∧ log.map Event.id = ids := by
  induction ids generalizing s with
  | nil => exact ⟨s, [], rfl, rfl⟩
  | cons i ids ih =>
    obtain ⟨hqi, ⟨p, hp, hcontract⟩, u, hfinish, hrest⟩ := hserves
    have hle := (safe_finish hfinish).evolves.nextId
    have hvotes' : ∀ q ∈ u.proposals, q.id ∈ ids → q.totalVotes ≠ 0 := by
      intro q hq hid
      have hmem := List.mem_cons_of_mem i hid
      obtain ⟨o, ho, hoid, hototal⟩ := tallied_finish hfinish q hq (hfresh _ hmem)
      rw [← hototal]
      exact hvotes o ho (hoid ▸ hmem)
    have hfresh' : ∀ j ∈ ids, j < u.nextId := fun j hj ↦
      (hfresh j (List.mem_cons_of_mem i hj)).trans_le hle
    obtain ⟨t, log, hexec, hlog⟩ := ih hrest hfresh' hvotes'
    obtain ⟨hpmem, hpid⟩ := mem_of_find hp
    obtain ⟨abi, habi⟩ := Option.isSome_iff_exists.mp hcontract
    refine ⟨t, ⟨i, p.removed⟩ :: log, ?_, congrArg (i :: ·) hlog⟩
    rw [executeProposals, hp]
    simp only [hvotes p hpmem (hpid ▸ List.mem_cons_self), Int.not_lt.mpr hqi, habi, hfinish, hexec,
      if_false, Option.map_some]

/-- A loop that executes every proposal has served each. -/
theorem serves_of_all (hs : Sound s) (hnodup : ids.Nodup)
    (h : executeProposals threshold execution ids s = some (t, log))
    (hall : ∀ i ∈ ids, i ∈ log.map Event.id) : Serves threshold execution ids s := by
  induction ids generalizing s log with
  | nil => trivial
  | cons i ids ih =>
    obtain ⟨hnot, hnodup⟩ := List.nodup_cons.mp hnodup
    have hi := hall i List.mem_cons_self
    have hskip {s' : State Value} (hs' : Sound s')
        (h' : executeProposals threshold execution ids s' = some (t, log)) : False :=
      hnot ((executes_of_some hs' h').started.subset hi)
    rw [executeProposals] at h
    split at h
    · cases h
    · next p hfind =>
      split at h
      · cases h
        cases hi
      · split at h
        · exact (hskip hs h).elim
        · next hqi =>
          split at h
          · exact (hskip ((safe_markRemoved s i).sound hs) h).elim
          · next abi habi =>
            split at h
            · cases h
            · next u hfinish =>
              obtain ⟨⟨v, rest⟩, hrest, he⟩ := Option.map_eq_some_iff.mp h
              cases he
              refine ⟨Int.not_lt.mp hqi, ⟨p, hfind, Option.isSome_of_eq_some habi⟩, u, hfinish, ?_⟩
              refine ih ((safe_finish hfinish).sound hs) hnodup hrest fun j hj ↦ ?_
              refine (List.mem_cons.mp (hall j (List.mem_cons_of_mem i hj))).resolve_left ?_
              rintro rfl
              exact hnot hj

/-- A proposal that is not executed and that no function removes is left alone. -/
theorem find_executeProposals {p : Proposal Value} (hi : i ∉ ids) (hp : s.find i = some p)
    (havoid : ∀ j ∈ ids, (execution j).body.Avoids [i])
    (h : executeProposals threshold execution ids s = some (t, log)) : t.find i = some p := by
  induction ids generalizing s log with
  | nil =>
    cases h
    exact hp
  | cons j ids ih =>
    obtain ⟨hne, hi⟩ := not_or.mp (List.mem_cons.not.mp hi)
    have havoid' := fun j hj ↦ havoid j (List.mem_cons_of_mem _ hj)
    rw [executeProposals] at h
    split at h
    · cases h
    · split at h
      · cases h
        exact hp
      · split at h
        · exact ih hi hp havoid' h
        · split at h
          · exact ih hi ((find_markRemoved_ne hne).trans hp) havoid' h
          · split at h
            · cases h
            · next u hfinish =>
              obtain ⟨⟨v, rest⟩, hrest, he⟩ := Option.map_eq_some_iff.mp h
              cases he
              obtain ⟨w, rfl, -⟩ := finish_eq hfinish
              have heval : Remains [i] s ((execution j).eval threshold s) :=
                remains_eval (havoid j List.mem_cons_self)
              refine ih hi ?_ havoid' hrest
              exact (find_markRemoved_ne hne).trans (heval i List.mem_cons_self p hp)

end Loop

section Selection

/-- The proposals of a list that have the votes of an adopted one. -/
def State.voted (s : State Value) (ids : List ℤ) : List ℤ :=
  ids.filter (max 1 s.votesThreshold ≤ s.countVotes ·)

theorem adopted_iff (hs : Sound s) (ht : s.headTime ≤ headTime)
    (hi : i ∈ s.findActiveProposals headTime) :
    Adopted s headTime i ↔ max 1 s.votesThreshold ≤ s.countVotes i := by
  constructor
  · rintro ⟨_, _, _, _, _, hvotes⟩
    exact hvotes
  · intro hvotes
    obtain ⟨p, hp, ⟨-, hend⟩, rfl⟩ := mem_findActiveProposals.mp hi
    obtain ⟨q, hq, hremoved⟩ := pending_findActiveProposals hs ht _ hi
    rw [find_of_mem hs.indexed.ids hp] at hq
    cases hq
    exact ⟨p, hp, rfl, hremoved, hend, hvotes⟩

/-- The adopted proposals are all in the index by their end dates where no end date wraps. -/
theorem mem_voted (hs : Sound s) (ht : s.headTime ≤ headTime)
    (hperm : ids.Perm (s.findActiveProposals headTime))
    (hwrap : ∀ p ∈ s.proposals, Adopted s headTime p.id → headTime ≤ p.endDateWithDelay) :
    i ∈ s.voted ids ↔ Adopted s headTime i := by
  rw [State.voted, List.mem_filter, decide_eq_true_eq, hperm.mem_iff]
  constructor
  · rintro ⟨hi, hvotes⟩
    exact (adopted_iff hs ht hi).mpr hvotes
  · intro ha
    have ha' := ha
    obtain ⟨p, hp, rfl, -, hend, hvotes⟩ := ha'
    exact ⟨mem_findActiveProposals.mpr ⟨p, hp, ⟨hwrap p hp ha, hend⟩, rfl⟩, hvotes⟩

/-- Without proposals that the filter lets through for no votes, it leaves the adopted ones. -/
theorem filter_eq_voted (h : 0 < s.votesThreshold ∨ ∀ i ∈ ids, 0 < s.countVotes i) :
    ids.filter (s.votesThreshold ≤ s.countVotes ·) = s.voted ids := by
  refine List.filter_congr fun i hi ↦ decide_eq_decide.mpr ?_
  rcases h with h | h
  · omega
  · have := h i hi
    omega

theorem executeProposals_unvoted {p : Proposal Value} (hp : s.find i = some p)
    (hvotes : p.totalVotes = 0) :
    executeProposals threshold execution (i :: ids) s = some (s, []) := by
  rw [executeProposals, hp]
  exact if_pos hvotes

theorem found_active (hs : Sound s) (hperm : ids.Perm (s.findActiveProposals headTime))
    (hi : i ∈ ids) : ∃ p, s.find i = some p := by
  obtain ⟨p, hp, -, rfl⟩ := mem_findActiveProposals.mp (hperm.mem_iff.mp hi)
  exact ⟨p, find_of_mem hs.indexed.ids hp⟩

theorem passOver_eq (hs : Sound s) (hperm : ids.Perm (s.findActiveProposals headTime)) :
    s.passOver threshold execution ids = executeProposals threshold execution
      (ids.filter (s.votesThreshold ≤ s.countVotes ·)) (s.calculateVotes ids) := by
  rw [State.passOver, filterByVotes_eq fun i hi ↦ found_active hs hperm hi]

theorem found_calculated (hs : Sound s) (hperm : ids.Perm (s.findActiveProposals headTime))
    (hi : i ∈ ids) :
    ∃ p, (s.calculateVotes ids).find i = some p ∧ p.totalVotes = s.countVotes i := by
  obtain ⟨p, hp⟩ := found_active hs hperm hi
  have hid := (mem_of_find hp).2
  refine ⟨recount s ids p, by rw [find_calculateVotes, hp, Option.map_some], ?_⟩
  rw [recount, hid, if_pos hi]

/-- With no adopted proposal the loop does nothing, wherever it ends. -/
theorem execute_unvoted (hs : Sound s) (ht : s.headTime ≤ headTime)
    (hperm : ids.Perm (s.findActiveProposals headTime)) (hnone : ∀ i, ¬Adopted s headTime i)
    (hmem : ∀ i, i ∈ s.voted ids ↔ Adopted s headTime i) :
    executeProposals threshold execution (ids.filter (s.votesThreshold ≤ s.countVotes ·))
        (s.calculateVotes ids) =
      executeProposals threshold execution (s.voted ids) (s.calculateVotes ids) := by
  by_cases hpos : 0 < s.votesThreshold
  · rw [filter_eq_voted (.inl hpos)]
  · rw [List.eq_nil_iff_forall_not_mem.mpr fun i hi ↦ hnone i ((hmem i).mp hi)]
    cases ids with
    | nil => rfl
    | cons i ids =>
      obtain ⟨p, hp, htotal⟩ := found_calculated hs hperm List.mem_cons_self
      have hvotes : ¬max 1 s.votesThreshold ≤ s.countVotes i := fun h ↦
        hnone i ((adopted_iff hs ht (hperm.mem_iff.mp List.mem_cons_self)).mpr h)
      have hfirst : (i :: ids).filter (s.votesThreshold ≤ s.countVotes ·) =
          i :: ids.filter (s.votesThreshold ≤ s.countVotes ·) :=
        List.filter_cons_of_pos (decide_eq_true (by omega))
      rw [hfirst, executeProposals_unvoted hp (by omega)]
      rfl

/-- What a pass that serves the adopted proposals comes to. -/
theorem selects_of_serves (hs : Sound s) (hperm : ids.Perm (s.findActiveProposals headTime))
    (hmem : ∀ i, i ∈ s.voted ids ↔ Adopted s headTime i)
    (hserves : Serves threshold execution (s.voted ids) (s.calculateVotes ids)) :
    ∃ t log, executeProposals threshold execution (s.voted ids) (s.calculateVotes ids) =
      some (t, log) ∧ Selects execution headTime s t log := by
  have hsound := (safe_calculateVotes ids s).sound hs
  have hsub : ∀ i ∈ s.voted ids, i ∈ ids := fun i hi ↦ (List.mem_filter.mp hi).1
  have hfound := fun i hi ↦ found_calculated (i := i) hs hperm hi
  have hfresh : ∀ i ∈ s.voted ids, i < (s.calculateVotes ids).nextId := by
    intro i hi
    obtain ⟨p, hp, -⟩ := hfound i (hsub i hi)
    obtain ⟨hpmem, rfl⟩ := mem_of_find hp
    exact hsound.indexed.fresh p hpmem
  have hvotes : ∀ p ∈ (s.calculateVotes ids).proposals, p.id ∈ s.voted ids → p.totalVotes ≠ 0 := by
    intro p hp hid
    obtain ⟨q, hq, htotal⟩ := hfound p.id (hsub _ hid)
    rw [find_of_mem hsound.indexed.ids hp] at hq
    cases hq
    have := of_decide_eq_true (List.mem_filter.mp hid).2
    omega
  obtain ⟨t, log, hexec, hlog⟩ := executes_all hserves hfresh hvotes
  have hexecuted : ∀ i, i ∈ log.map Event.id ↔ Adopted s headTime i := fun i ↦ hlog ▸ hmem i
  refine ⟨t, log, hexec, hexecuted, fun p hp ha ↦ ?_, fun i p hp hnot havoid ↦ ?_⟩
  · obtain ⟨e, he, hid⟩ := List.mem_map.mp ((hexecuted p.id).mpr ha)
    exact ((executes_of_some hsound hexec).served e he).marked p hp hid.symm
  · have hcalc : (s.calculateVotes ids).find i = some (recount s ids p) := by
      rw [find_calculateVotes, hp, Option.map_some]
    exact ⟨_, find_executeProposals (fun hi ↦ hnot ((hmem i).mp hi)) hcalc
      (fun j hj ↦ havoid j ((hmem j).mp hj)) hexec, recount_removed p⟩

/-- In every order of the active proposals a pass executes and marks the adopted ones exactly when
their end dates do not wrap, no proposal without votes ends the loop before its time, and each
adopted one can be served in its turn. -/
theorem selection (hs : Sound s) (ht : s.headTime ≤ headTime) :
    (∀ ids, ids.Perm (s.findActiveProposals headTime) → ∃ t log,
      s.passOver threshold execution ids = some (t, log) ∧ Selects execution headTime s t log) ↔
    (∀ p ∈ s.proposals, Adopted s headTime p.id → headTime ≤ p.endDateWithDelay) ∧
      (0 < s.votesThreshold ∨ (∀ i ∈ s.findActiveProposals headTime, 0 < s.countVotes i) ∨
        ∀ i, ¬Adopted s headTime i) ∧
      ∀ ids, ids.Perm (s.findActiveProposals headTime) →
        Serves threshold execution (s.voted ids) (s.calculateVotes ids) := by
  constructor
  · intro h
    have hrun : ∀ ids, ids.Perm (s.findActiveProposals headTime) → ∃ t log,
        executeProposals threshold execution (ids.filter (s.votesThreshold ≤ s.countVotes ·))
          (s.calculateVotes ids) = some (t, log) ∧ ∀ i, i ∈ log.map Event.id ↔ Adopted s headTime i := by
      intro ids hperm
      obtain ⟨t, log, hpass, hselects⟩ := h ids hperm
      exact ⟨t, log, passOver_eq hs hperm ▸ hpass, hselects.executed⟩
    have hwrap : ∀ p ∈ s.proposals, Adopted s headTime p.id → headTime ≤ p.endDateWithDelay := by
      intro p hp ha
      obtain ⟨t, log, hexec, hlog⟩ := hrun _ (.refl _)
      have hstarted := (executes_of_some ((safe_calculateVotes _ s).sound hs) hexec).started
      have hactive := (List.mem_filter.mp (hstarted.subset ((hlog p.id).mpr ha))).1
      obtain ⟨q, hq, ⟨hdelay, -⟩, hid⟩ := mem_findActiveProposals.mp hactive
      exact List.inj_on_of_nodup_map hs.indexed.ids hq hp hid ▸ hdelay
    have hearly : 0 < s.votesThreshold ∨
        (∀ i ∈ s.findActiveProposals headTime, 0 < s.countVotes i) ∨ ∀ i, ¬Adopted s headTime i := by
      by_contra hne
      push Not at hne
      obtain ⟨hthreshold, ⟨z, hz, hzero⟩, a, ha⟩ := hne
      -- the proposal without votes comes first
      have hperm := (List.perm_cons_erase hz).symm
      obtain ⟨t, log, hexec, hlog⟩ := hrun _ hperm
      obtain ⟨p, hp, htotal⟩ := found_calculated hs hperm List.mem_cons_self
      have hfirst : (z :: (s.findActiveProposals headTime).erase z).filter
          (s.votesThreshold ≤ s.countVotes ·) =
            z :: ((s.findActiveProposals headTime).erase z).filter
              (s.votesThreshold ≤ s.countVotes ·) :=
        List.filter_cons_of_pos (decide_eq_true (by omega))
      rw [hfirst, executeProposals_unvoted hp (by omega)] at hexec
      cases hexec
      exact absurd ((hlog a).mpr ha) List.not_mem_nil
    refine ⟨hwrap, hearly, fun ids hperm ↦ ?_⟩
    have hmem : ∀ i, i ∈ s.voted ids ↔ Adopted s headTime i := fun i ↦ mem_voted hs ht hperm hwrap
    have hserves : ids.filter (s.votesThreshold ≤ s.countVotes ·) = s.voted ids →
        Serves threshold execution (s.voted ids) (s.calculateVotes ids) := by
      intro heq
      obtain ⟨t, log, hexec, hlog⟩ := hrun ids hperm
      have hnodup := (hperm.nodup_iff.mpr (findActiveProposals_nodup hs.indexed)).filter
        (fun i ↦ decide (max 1 s.votesThreshold ≤ s.countVotes i))
      exact serves_of_all ((safe_calculateVotes ids s).sound hs) hnodup (heq ▸ hexec)
        fun i hi ↦ (hlog i).mpr ((hmem i).mp hi)
    rcases hearly with hpos | hvotes | hnone
    · exact hserves (filter_eq_voted (.inl hpos))
    · exact hserves (filter_eq_voted (.inr fun i hi ↦ hvotes i (hperm.mem_iff.mp hi)))
    · rw [List.eq_nil_iff_forall_not_mem.mpr fun i hi ↦ hnone i ((hmem i).mp hi)]
      trivial
  · rintro ⟨hwrap, hearly, hserves⟩ ids hperm
    have hmem : ∀ i, i ∈ s.voted ids ↔ Adopted s headTime i := fun i ↦ mem_voted hs ht hperm hwrap
    obtain ⟨t, log, hexec, hselects⟩ := selects_of_serves hs hperm hmem (hserves ids hperm)
    refine ⟨t, log, ?_, hselects⟩
    rw [passOver_eq hs hperm, ← hexec]
    rcases hearly with hpos | hvotes | hnone
    · rw [filter_eq_voted (.inl hpos)]
    · rw [filter_eq_voted (.inr fun i hi ↦ hvotes i (hperm.mem_iff.mp hi))]
    · exact execute_unvoted hs ht hperm hnone hmem

/-- Account 9 has a proposal that account 3 votes for. -/
def oneVoted : State ℕ :=
  let s : State ℕ := .genesis generous
  let s := (s.exec 1 (.create 9 "contract.a" "run" [] "first" (taiyiGenesisTime + 1000))).2
  (s.exec 1 (.vote 3 [0] true)).2

theorem selection_one : oneVoted.findActiveProposals (taiyiGenesisTime + 3) = [0] ∧
    ∀ ids, ids.Perm (oneVoted.findActiveProposals (taiyiGenesisTime + 3)) →
      ∃ t log, oneVoted.passOver 1 (remover [7]) ids = some (t, log) ∧
        Selects (remover [7]) (taiyiGenesisTime + 3) oneVoted t log := by
  have hs : Sound oneVoted := (past_of_reaches (((Reaches.genesis generous).call _).call _)).sound
  have hactive : oneVoted.findActiveProposals (taiyiGenesisTime + 3) = [0] := by decide +kernel
  have hdelay : ∀ p ∈ oneVoted.proposals, taiyiGenesisTime + 3 ≤ p.endDateWithDelay := by
    decide +kernel
  refine ⟨hactive, (selection hs (by decide)).mpr ⟨fun p hp _ ↦ hdelay p hp, .inl (by decide), fun ids hperm ↦ ?_⟩⟩
  rw [hactive, List.perm_singleton] at hperm
  subst hperm
  exact ⟨by decide, ⟨_, rfl, rfl⟩, _, rfl, trivial⟩

/-- The counter of the marks has come down to zero, and account 3, which still has one, votes for
the second of two proposals. -/
def uncounted : State ℕ :=
  let s : State ℕ := .genesis { generous with xinsuCount := 0 }
  let s := (s.exec 1 (.create 9 "contract.a" "run" [] "first" (taiyiGenesisTime + 1000))).2
  let s := (s.exec 1 (.create 9 "contract.a" "run" [] "second" (taiyiGenesisTime + 1000))).2
  (s.exec 1 (.vote 3 [1] true)).2

/-- The proposal without votes ends the pass. -/
theorem unvoted_ends_pass : Adopted uncounted (taiyiGenesisTime + 3) 1 ∧
    ¬∃ t log, uncounted.processProposals 1 (remover [7]) (taiyiGenesisTime + 3) = some (t, log) ∧
      Selects (remover [7]) (taiyiGenesisTime + 3) uncounted t log := by
  have ha : Adopted uncounted (taiyiGenesisTime + 3) 1 :=
    ⟨⟨1, 9, "contract.a", "run", [], taiyiGenesisTime + 1000, "second", 0, false⟩, by decide +kernel,
      rfl, rfl, by decide, by decide +kernel⟩
  refine ⟨ha, fun ⟨t, log, hrun, hselects⟩ ↦ ?_⟩
  have hlog : (uncounted.processProposals 1 (remover [7]) (taiyiGenesisTime + 3)).map Prod.snd =
      some [] := by decide +kernel
  rw [hrun] at hlog
  cases hlog
  exact absurd ((hselects.executed 1).mpr ha) List.not_mem_nil

end Selection

end Taiyi.Proposals
