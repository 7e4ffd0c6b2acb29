import Taiyi.Proposals.Execute

set_option autoImplicit false

namespace Taiyi.Proposals

variable {Value : Type} {s t u : State Value} {threshold : Int16} {execution : ℤ → Execution Value}
  {ids : List ℤ} {events log : List Event} {i : ℤ} {headTime : ℕ}

section Expiry

variable {r : Reducer} {b : Option ℕ}

/-- What is there to erase, of votes and proposals. -/
def State.rows (s : State Value) : ℕ := s.votes.length + s.proposals.length

theorem removeProposal_votes (id : ℤ) (r : Reducer) (s : State Value) :
    (removeProposal id r s).2.votes = (removeVotes (s.votesOf id) r s).2.votes := by
  unfold removeProposal
  split
  next he =>
  rw [he]
  split
  · rfl
  · split <;> rfl

theorem removeProposal_rows_le (id : ℤ) (r : Reducer) (s : State Value) :
    (removeProposal id r s).2.rows ≤ s.rows := by
  refine Nat.add_le_add ?_ (removeProposal_subset id).length_le
  rw [removeProposal_votes]
  exact (removeVotes_sublist _ r s).length_le

theorem eraseProposal_rows_lt {p : Proposal Value} (hp : p ∈ s.proposals) :
    (s.eraseProposal p.id).rows < s.rows := by
  refine Nat.add_lt_add_left ?_ _
  exact List.length_filter_lt_length_iff_exists.mpr ⟨p, hp, by simp⟩

theorem eraseVote_votes_lt {v : Vote} (hv : v ∈ s.votes) :
    (s.eraseVote v).votes.length < s.votes.length :=
  List.length_filter_lt_length_iff_exists.mpr ⟨v, hv, by simp⟩

/-- Where the budget has a step left, a vote of the proposal is erased, or the proposal. -/
theorem removeProposal_rows_lt (h : r.Allows b) (hr : r.done = false) (hb : Affords b 1)
    {p : Proposal Value} (hp : p ∈ s.proposals) : (removeProposal p.id r s).2.rows < s.rows := by
  have hgo : r.check.done = false :=
    Bool.eq_false_of_not_eq_true fun hd ↦ h.check.1.mp hd hb
  cases hvotes : s.votesOf p.id with
  | nil =>
    have heq : removeProposal p.id r s = (r.check, s.eraseProposal p.id) := by
      rw [removeProposal, hvotes, removeVotes]
      simp [hr, hgo]
    rw [heq]
    exact eraseProposal_rows_lt hp
  | cons v vs =>
    have hv : v ∈ s.votes := List.mem_of_mem_filter (hvotes ▸ List.mem_cons_self)
    refine Nat.add_lt_add_of_lt_of_le ?_ (removeProposal_subset p.id).length_le
    rw [removeProposal_votes, hvotes, removeVotes, hgo, if_neg Bool.false_ne_true]
    exact (removeVotes_sublist vs _ _).length_le.trans_lt (eraseVote_votes_lt hv)

theorem removeExpired_rows_le (ids : List ℤ) (r : Reducer) (s : State Value) :
    (removeExpired ids r s).rows ≤ s.rows := by
  induction ids generalizing r s with
  | nil => exact le_rfl
  | cons i ids ih =>
    have hstep := removeProposal_rows_le i r s
    rw [removeExpired]
    split
    next r' s' he =>
    rw [he] at hstep
    split
    · exact hstep
    · exact (ih r' s').trans hstep

theorem keeps_removeExpired {keep : ℤ → Bool} (h : ∀ i ∈ ids, keep i = false) (r : Reducer)
    (s : State Value) : Keeps keep s (removeExpired ids r s) := by
  induction ids generalizing r s with
  | nil => exact .refl _ _
  | cons i ids ih =>
    have hstep : Keeps keep s (removeProposal i r s).2 :=
      keeps_removeProposal (h i List.mem_cons_self)
    rw [removeExpired]
    split
    next r' s' he =>
    rw [he] at hstep
    split
    · exact hstep
    · exact hstep.trans (ih (fun j hj ↦ h j (List.mem_cons_of_mem _ hj)) r' s')

theorem affords_one (h : threshold < 0 ∨ 1 ≤ threshold) : Affords (budget threshold) 1 := by
  rw [Int16.lt_iff_toInt_lt, Int16.le_iff_toInt_le] at h
  change threshold.toInt < 0 ∨ 1 ≤ threshold.toInt at h
  intro k hk
  rw [budget] at hk
  split at hk
  · cases hk
  · cases hk
    omega

theorem removeExpired_rows_lt (hb : Affords (budget threshold) 1) {p : Proposal Value}
    (hp : p ∈ s.proposals) (ids : List ℤ) :
    (removeExpired (p.id :: ids) { threshold } s).rows < s.rows := by
  have hstep := removeProposal_rows_lt (allows_budget threshold) rfl hb hp
  rw [removeExpired]
  split
  next r' s' he =>
  rw [he] at hstep
  split
  · exact hstep
  · exact (removeExpired_rows_le ids r' s').trans_lt hstep

theorem mem_expired : i ∈ s.expired headTime ↔
    ∃ p ∈ s.proposals, p.endDateWithDelay ≤ headTime ∧ p.id = i := by
  simp [State.expired, and_assoc]

/-- A pass over proposals that are due takes away something of them, and nothing of others. -/
theorem removeOldProposals_rows_lt (h : threshold < 0 ∨ 1 ≤ threshold)
    (hne : s.expired headTime ≠ []) : (s.removeOldProposals threshold headTime).rows < s.rows := by
  unfold State.removeOldProposals
  cases hexpired : s.expired headTime with
  | nil => exact absurd hexpired hne
  | cons i ids =>
    obtain ⟨p, hp, -, rfl⟩ := mem_expired.mp (hexpired ▸ List.mem_cons_self : i ∈ s.expired headTime)
    exact removeExpired_rows_lt (affords_one h) hp ids

theorem removeOldProposals_emptied (h : threshold < 0 ∨ 1 ≤ threshold) (headTime : ℕ)
    (s : State Value) :
    ∃ n, ((·.removeOldProposals threshold headTime)^[n] s).expired headTime = [] := by
  induction hn : s.rows using Nat.strong_induction_on generalizing s with
  | _ m ih =>
    by_cases hexpired : s.expired headTime = []
    · exact ⟨0, hexpired⟩
    · obtain ⟨n, hempty⟩ := ih _ (hn ▸ removeOldProposals_rows_lt h hexpired) _ rfl
      exact ⟨n + 1, hempty⟩

end Expiry

section Active

theorem mem_findActiveProposals : i ∈ s.findActiveProposals headTime ↔
    ∃ p ∈ s.proposals, (headTime ≤ p.endDateWithDelay ∧ headTime ≤ p.endDate) ∧ p.id = i := by
  simp [State.findActiveProposals, and_assoc]

theorem findActiveProposals_nodup (hs : Indexed s) : (s.findActiveProposals headTime).Nodup := by
  have hperm := List.perm_insertionSort byEndDate
    (s.proposals.filter fun p ↦ headTime ≤ p.endDateWithDelay ∧ headTime ≤ p.endDate)
  exact (hperm.map Proposal.id).nodup_iff.mpr (hs.ids.sublist (List.filter_sublist.map _))

theorem pending_findActiveProposals (hs : Sound s) (ht : s.headTime ≤ headTime) :
    Pending (s.findActiveProposals headTime) s := by
  intro i hi
  obtain ⟨p, hp, ⟨-, hend⟩, rfl⟩ := mem_findActiveProposals.mp hi
  refine ⟨p, find_of_mem hs.indexed.ids hp, Bool.eq_false_of_not_eq_true fun hremoved ↦ ?_⟩
  have := (hs.removed p hp hremoved).1
  omega

theorem Pending.modifyProposal {f : Proposal Value → Proposal Value} (h : Pending ids s)
    (hid : ∀ p, (f p).id = p.id) (hremoved : ∀ p, (f p).removed = p.removed) (j : ℤ) :
    Pending ids (s.modifyProposal j f) := fun i hi ↦ by
  obtain ⟨p, hp, hr⟩ := h i hi
  refine ⟨_, by rw [find_modifyProposal hid, hp, Option.map_some], ?_⟩
  split
  · rw [hremoved, hr]
  · exact hr

theorem Pending.calculateVotes (h : Pending ids s) (xs : List ℤ) :
    Pending ids (s.calculateVotes xs) := by
  unfold State.calculateVotes
  induction xs generalizing s with
  | nil => exact h
  | cons x xs ih =>
    exact ih (h.modifyProposal (f := fun p ↦ { p with totalVotes := s.countVotes x })
      (fun _ ↦ rfl) (fun _ ↦ rfl) x)

theorem listed_sublist (s : State Value) (headTime : ℕ) :
    (s.listed headTime).Sublist (s.findActiveProposals headTime) := List.filter_sublist

end Active

section Run

/-- The proposals that a block with this timestamp is to execute. -/
def State.toExecute (s : State Value) (threshold : Int16) (headTime : ℕ) : List ℤ :=
  (({ s with headTime := headTime }).removeOldProposals threshold headTime).listed headTime

/-- Runs from the genesis: calls of the contract API, changes of the rest of the database, and
blocks with their maintenance. The log is of the functions started. -/
inductive Reaches (threshold : Int16)
    (Allowed : (ℤ → Execution Value) → List ℤ → Prop) : State Value → List Event → Prop
  | genesis (w : World) : Reaches threshold Allowed (.genesis w) []
  | call {s : State Value} {log : List Event} (h : Reaches threshold Allowed s log)
      (c : Call Value) : Reaches threshold Allowed (s.exec threshold c).2 log
  | world {s : State Value} {log : List Event} (h : Reaches threshold Allowed s log) (w : World) :
      Reaches threshold Allowed { s with world := w } log
  | block {s t : State Value} {log events : List Event} {headTime : ℕ}
      {execution : ℤ → Execution Value} (h : Reaches threshold Allowed s log)
      (ht : s.headTime < headTime) (ha : Allowed execution (s.toExecute threshold headTime))
      (hrun : s.runProposals threshold execution headTime = some (t, events)) :
      Reaches threshold Allowed t (log ++ events)

/-- What a run keeps, of the state and the functions started. -/
structure Past (s : State Value) (log : List Event) : Prop where
  sound : Sound s
  served : ∀ e ∈ log, Served s e
  once : (log.map Event.id).Nodup
  unremoved : ∀ e ∈ log, e.removed = false

theorem Past.safe (h : Past s log) (hsafe : Safe s t) : Past t log where
  sound := hsafe.sound h.sound
  served e he := (h.served e he).evolves hsafe.evolves
  once := h.once
  unremoved := h.unremoved

theorem past_genesis (w : World) : Past (.genesis w : State Value) [] where
  sound := ⟨⟨.nil, nofun, .nil⟩, nofun, nofun, le_rfl⟩
  served := nofun
  once := .nil
  unremoved := nofun

theorem Past.tick (h : Past s log) (ht : s.headTime ≤ headTime) :
    Past { s with headTime := headTime } log where
  sound :=
    { indexed := ⟨h.sound.indexed.ids, h.sound.indexed.fresh, h.sound.indexed.votes⟩
      votes := h.sound.votes
      removed := fun p hp hremoved ↦
        ⟨(h.sound.removed p hp hremoved).1.trans_le ht, (h.sound.removed p hp hremoved).2.trans ht⟩
      headTime := h.sound.headTime.trans ht }
  served e he := ⟨(h.served e he).fresh, (h.served e he).marked⟩
  once := h.once
  unremoved := h.unremoved

theorem safe_nextMaintenanceTime (s : State Value) (n : ℕ) :
    Safe s { s with nextMaintenanceTime := n } :=
  ⟨fun h ↦ ⟨⟨h.indexed.ids, h.indexed.fresh, h.indexed.votes⟩, h.votes, h.removed, h.headTime⟩,
    ⟨le_rfl, rfl, fun q hq _ ↦ ⟨q, hq, rfl, id⟩⟩⟩

/-- What has been executed is marked or gone, and what is to be executed is neither. -/
theorem Past.execute (h : Past s log) (hpending : Pending ids s) (hids : ids.Nodup)
    (ho : Orderly execution ids) (hexec : executeProposals threshold execution ids s = some (t, events)) :
    Past t (log ++ events) := by
  have hexecutes := executes_of_some h.sound hexec
  have hafter := h.safe hexecutes.safe
  have hdisjoint : ∀ e ∈ log, ∀ e' ∈ events, e.id ≠ e'.id := by
    intro e he e' he' heq
    obtain ⟨p, hp, hremoved⟩ := hpending e'.id (hexecutes.started.subset (List.mem_map_of_mem he'))
    obtain ⟨hmem, hid⟩ := mem_of_find hp
    rw [(h.served e he).marked p hmem (hid.trans heq.symm)] at hremoved
    cases hremoved
  refine ⟨hafter.sound, fun e he ↦ ?_, ?_, fun e he ↦ ?_⟩
  · exact (List.mem_append.mp he).elim (hafter.served e) (hexecutes.served e)
  · rw [List.map_append, List.nodup_append]
    refine ⟨h.once, hids.sublist hexecutes.started, fun a ha b hb ↦ ?_⟩
    obtain ⟨e, he, rfl⟩ := List.mem_map.mp ha
    obtain ⟨e', he', rfl⟩ := List.mem_map.mp hb
    exact hdisjoint e he e' he'
  · exact (List.mem_append.mp he).elim (h.unremoved e)
      (unremoved_of_orderly ho hpending hids hexec e)

theorem Past.process (h : Past s log) (ht : s.headTime ≤ headTime)
    (ho : Orderly execution (s.listed headTime))
    (hrun : s.processProposals threshold execution headTime = some (t, events)) :
    Past t (log ++ events) := by
  unfold State.processProposals at hrun
  split at hrun
  · cases hrun
    rw [List.append_nil]
    exact h
  · obtain ⟨⟨u, evs⟩, hexec, he⟩ := Option.map_eq_some_iff.mp hrun
    cases he
    have hpending : Pending (s.listed headTime) (s.calculateVotes (s.findActiveProposals headTime)) :=
      fun i hi ↦ ((pending_findActiveProposals h.sound ht).calculateVotes _) i
        ((listed_sublist s headTime).subset hi)
    have hnodup := (findActiveProposals_nodup h.sound.indexed).sublist (listed_sublist s headTime)
    have hcalc := h.safe (safe_calculateVotes (s.findActiveProposals headTime) s)
    exact (hcalc.execute hpending hnodup ho hexec).safe (safe_nextMaintenanceTime u _)

theorem safe_removeOldProposals (s : State Value) (threshold : Int16) (headTime : ℕ) :
    Safe s (s.removeOldProposals threshold headTime) := safe_removeExpired _ _ s

theorem past_of_reaches (h : Reaches threshold Orderly s log) : Past s log := by
  induction h with
  | genesis w => exact past_genesis w
  | call _ c ih => exact ih.safe (safe_exec threshold c _)
  | world _ w ih => exact ih.safe (Safe.world _ w)
  | @block s _ _ _ headTime _ _ ht ho hrun ih =>
    have hsafe := safe_removeOldProposals { s with headTime := headTime } threshold headTime
    exact ((ih.tick ht.le).safe hsafe).process hsafe.evolves.headTime.le ho hrun

/-- The life cycle of proposals, in one state of a run. A vote for a proposal that is marked is
due to be erased with it. -/
structure LifeCycle (threshold : Int16) (s : State Value) (log : List Event) : Prop where
  refers : ∀ v ∈ s.votes, ∃ p ∈ s.proposals, p.id = v.proposalId ∧
    (p.removed = true → p.id ∈ s.expired s.headTime)
  single : s.votes.Nodup
  once : (log.map Event.id).Nodup
  unremoved : ∀ e ∈ log, e.removed = false
  inactive : ∀ headTime, s.headTime ≤ headTime → ∀ p ∈ s.proposals, p.removed = true →
    p.id ∉ s.findActiveProposals headTime
  foreign : ∀ headTime, Keeps (fun i ↦ decide (i ∉ s.expired headTime)) s
    (s.removeOldProposals threshold headTime)
  votesFirst : ∀ headTime, ∀ v ∈ (s.removeOldProposals threshold headTime).votes,
    ∃ p ∈ (s.removeOldProposals threshold headTime).proposals, p.id = v.proposalId
  progress : threshold < 0 ∨ 1 ≤ threshold → ∀ headTime, s.expired headTime ≠ [] →
    (s.removeOldProposals threshold headTime).rows < s.rows
  emptied : threshold < 0 ∨ 1 ≤ threshold → ∀ headTime, ∃ n,
    ((·.removeOldProposals threshold headTime)^[n] s).expired headTime = []

/-- The life cycle holds as long as no contract function removes a proposal that the same pass is
executing or has still to execute. -/
theorem lifeCycle (h : Reaches threshold Orderly s log) : LifeCycle threshold s log where
  refers v hv := by
    have hpast := past_of_reaches h
    obtain ⟨p, hp, hid⟩ := hpast.sound.votes v hv
    exact ⟨p, hp, hid, fun hremoved ↦
      mem_expired.mpr ⟨p, hp, (hpast.sound.removed p hp hremoved).2, rfl⟩⟩
  single := (past_of_reaches h).sound.indexed.votes
  once := (past_of_reaches h).once
  unremoved := (past_of_reaches h).unremoved
  inactive headTime ht p hp hremoved hactive := by
    have hsound := (past_of_reaches h).sound
    obtain ⟨q, hq, hunremoved⟩ := pending_findActiveProposals hsound ht p.id hactive
    rw [find_of_mem hsound.indexed.ids hp] at hq
    cases hq
    rw [hremoved] at hunremoved
    cases hunremoved
  foreign headTime := keeps_removeExpired (fun i hi ↦ decide_eq_false (not_not.mpr hi)) _ s
  votesFirst headTime :=
    ((safe_removeOldProposals s threshold headTime).sound (past_of_reaches h).sound).votes
  progress hthreshold _ := removeOldProposals_rows_lt hthreshold
  emptied hthreshold headTime := removeOldProposals_emptied hthreshold headTime s

/-- Every account has a mark, and the treasury can pay. -/
def generous : World where
  isXinsu _ := true
  contracts _ := some fun _ ↦ some ⟨true, 0⟩
  xinsuCount := 1
  proposalAdoptedVotesThreshold := 1
  daoQi := 100000

/-- Account 9 has proposals 0 and 1, and account 3 votes for both. -/
def twoVoted : State ℕ :=
  let s : State ℕ := .genesis generous
  let s := (s.exec 1 (.create 9 "contract.a" "run" [] "first" (taiyiGenesisTime + 1000))).2
  let s := (s.exec 1 (.create 9 "contract.a" "run" [] "second" (taiyiGenesisTime + 1000))).2
  (s.exec 1 (.vote 3 [0, 1] true)).2

theorem reaches_twoVoted (Allowed : (ℤ → Execution ℕ) → List ℤ → Prop) :
    Reaches 1 Allowed twoVoted [] :=
  ((((Reaches.genesis generous).call _).call _).call _)

/-- The function of proposal 0 makes account 9 remove the given proposals. -/
def remover (ids : List ℤ) (i : ℤ) : Execution ℕ where
  body := if i = 0 then .call (.remove 9 ids) fun _ ↦ .done else .done
  settle := some

/-- With a proposal removed that is not there, both are executed. -/
theorem lifeCycle_two : ∃ (s : State ℕ) (log : List Event),
    log = [⟨0, false⟩, ⟨1, false⟩] ∧ LifeCycle 1 s log := by
  have hlog : (twoVoted.runProposals 1 (remover [7]) (taiyiGenesisTime + 3)).map Prod.snd =
      some [⟨0, false⟩, ⟨1, false⟩] := by decide +kernel
  obtain ⟨⟨s, log⟩, hrun, rfl⟩ := Option.map_eq_some_iff.mp hlog
  have hexecute : twoVoted.toExecute 1 (taiyiGenesisTime + 3) = [0, 1] := by decide +kernel
  have horderly : Orderly (remover [7]) (twoVoted.toExecute 1 (taiyiGenesisTime + 3)) := by
    rw [hexecute]
    simp [Orderly, remover, Body.Avoids, Call.Avoids]
  exact ⟨s, _, rfl, lifeCycle ((reaches_twoVoted Orderly).block (by decide) horderly hrun)⟩

/-- The function of proposal 0 removes proposal 1: with a threshold of 1 its vote is erased, it is
marked, and then executed. -/
theorem marked_proposal_executed : ¬∀ (s : State ℕ) (log : List Event),
    Reaches 1 (fun _ _ ↦ True) s log → LifeCycle 1 s log := by
  intro h
  have hlog : (twoVoted.runProposals 1 (remover [1]) (taiyiGenesisTime + 3)).map Prod.snd =
      some [⟨0, false⟩, ⟨1, true⟩] := by decide +kernel
  obtain ⟨⟨s, log⟩, hrun, rfl⟩ := Option.map_eq_some_iff.mp hlog
  have hreaches := (reaches_twoVoted fun _ _ ↦ True).block (by decide) trivial hrun
  exact nomatch (h s _ hreaches).unremoved ⟨1, true⟩ (by simp)

end Run

end Taiyi.Proposals
