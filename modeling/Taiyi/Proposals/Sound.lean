import Taiyi.Proposals.Owner
import Taiyi.Proposals.Processor

set_option autoImplicit false

namespace Taiyi.Proposals

variable {Value : Type} {s t u : State Value} {threshold : Int16}

/-- What holds between any two calls. -/
structure Sound (s : State Value) : Prop where
  indexed : Indexed s
  votes : ∀ v ∈ s.votes, ∃ p ∈ s.proposals, p.id = v.proposalId
  removed : ∀ p ∈ s.proposals, p.removed = true →
    p.endDate < s.headTime ∧ p.endDateWithDelay ≤ s.headTime
  headTime : taiyiGenesisTime ≤ s.headTime

/-- What no call, body or pass takes back: ids are not used again, and marks stay. -/
structure Evolves (s t : State Value) : Prop where
  nextId : s.nextId ≤ t.nextId
  headTime : t.headTime = s.headTime
  rows : ∀ q ∈ t.proposals, q.id < s.nextId →
    ∃ p ∈ s.proposals, p.id = q.id ∧ (p.removed = true → q.removed = true)

theorem Evolves.refl (s : State Value) : Evolves s s := ⟨le_rfl, rfl, fun q hq _ ↦ ⟨q, hq, rfl, id⟩⟩

theorem Evolves.trans (h : Evolves s t) (h' : Evolves t u) : Evolves s u where
  nextId := h.nextId.trans h'.nextId
  headTime := h'.headTime.trans h.headTime
  rows q hq hlt := by
    obtain ⟨p, hp, hid, hmark⟩ := h'.rows q hq (hlt.trans_le h.nextId)
    obtain ⟨o, ho, hid', hmark'⟩ := h.rows p hp (hid ▸ hlt)
    exact ⟨o, ho, hid'.trans hid, hmark ∘ hmark'⟩

/-- The step is safe from a sound state. -/
structure Safe (s t : State Value) : Prop where
  sound : Sound s → Sound t
  evolves : Evolves s t

theorem Safe.refl (s : State Value) : Safe s s := ⟨id, .refl s⟩

theorem Safe.trans (h : Safe s t) (h' : Safe t u) : Safe s u :=
  ⟨h'.sound ∘ h.sound, h.evolves.trans h'.evolves⟩

theorem Safe.world (s : State Value) (w : World) : Safe s { s with world := w } :=
  ⟨fun h ↦ ⟨⟨h.indexed.ids, h.indexed.fresh, h.indexed.votes⟩, h.votes, h.removed, h.headTime⟩,
    ⟨le_rfl, rfl, fun q hq _ ↦ ⟨q, hq, rfl, id⟩⟩⟩

section Steps

variable {i : ℤ} {v : Vote} {f : Proposal Value → Proposal Value}

theorem safe_eraseVote (s : State Value) (v : Vote) : Safe s (s.eraseVote v) :=
  ⟨fun h ↦ ⟨⟨h.indexed.ids, h.indexed.fresh, h.indexed.votes.filter _⟩,
    fun w hw ↦ h.votes w (List.mem_of_mem_filter hw), h.removed, h.headTime⟩,
    ⟨le_rfl, rfl, fun q hq _ ↦ ⟨q, hq, rfl, id⟩⟩⟩

theorem safe_eraseProposal (h : s.votesOf i = []) : Safe s (s.eraseProposal i) where
  sound hs :=
    { indexed := ⟨hs.indexed.ids.sublist (List.filter_sublist.map _),
        fun p hp ↦ hs.indexed.fresh p (List.mem_of_mem_filter hp), hs.indexed.votes⟩
      votes := fun v hv ↦ by
        obtain ⟨p, hp, hid⟩ := hs.votes v hv
        have hne : v.proposalId ≠ i := by simpa using List.filter_eq_nil_iff.mp h v hv
        exact ⟨p, List.mem_filter.mpr ⟨hp, by simpa [hid] using hne⟩, hid⟩
      removed := fun p hp ↦ hs.removed p (List.mem_of_mem_filter hp)
      headTime := hs.headTime }
  evolves := ⟨le_rfl, rfl, fun q hq _ ↦ ⟨q, List.mem_of_mem_filter hq, rfl, id⟩⟩

theorem safe_insertVote (hexists : ∃ p ∈ s.proposals, p.id = v.proposalId) (hv : v ∉ s.votes) :
    Safe s (s.insertVote v) where
  sound hs :=
    { indexed := ⟨hs.indexed.ids, hs.indexed.fresh,
        (List.perm_orderedInsert _ _ _).nodup_iff.mpr (List.nodup_cons.mpr ⟨hv, hs.indexed.votes⟩)⟩
      votes := fun w hw ↦ by
        rcases (List.mem_orderedInsert _).mp hw with rfl | hw
        · exact hexists
        · exact hs.votes w hw
      removed := hs.removed
      headTime := hs.headTime }
  evolves := ⟨le_rfl, rfl, fun q hq _ ↦ ⟨q, hq, rfl, id⟩⟩

/-- A modification that keeps the ids and the marks, and marks none that is still active. -/
theorem safe_modifyProposal (hid : ∀ p, (f p).id = p.id)
    (hmark : ∀ p, p.removed = true → (f p).removed = true)
    (hdate : ∀ p ∈ s.proposals, Sound s → (f p).removed = true →
      (f p).endDate < s.headTime ∧ (f p).endDateWithDelay ≤ s.headTime) :
    Safe s (s.modifyProposal i f) where
  sound hs :=
    { indexed := by
        refine ⟨by rw [modifyProposal_ids hid]; exact hs.indexed.ids, fun q hq ↦ ?_, hs.indexed.votes⟩
        obtain ⟨p, hp, rfl⟩ := List.mem_map.mp hq
        split
        · rw [hid]
          exact hs.indexed.fresh p hp
        · exact hs.indexed.fresh p hp
      votes := fun v hv ↦ by
        obtain ⟨p, hp, hpid⟩ := hs.votes v hv
        refine ⟨_, List.mem_map_of_mem hp, ?_⟩
        split
        · rw [hid, hpid]
        · exact hpid
      removed := fun q hq ↦ by
        obtain ⟨p, hp, rfl⟩ := List.mem_map.mp hq
        split
        · exact hdate p hp hs
        · exact hs.removed p hp
      headTime := hs.headTime }
  evolves := by
    refine ⟨le_rfl, rfl, fun q hq _ ↦ ?_⟩
    obtain ⟨p, hp, rfl⟩ := List.mem_map.mp hq
    refine ⟨p, hp, ?_⟩
    split
    · exact ⟨(hid p).symm, hmark p⟩
    · exact ⟨rfl, id⟩

/-- The new end date is over, and the proposal is due for removal. -/
theorem markRemoved_endDate (h : taiyiGenesisTime ≤ s.headTime) (p : Proposal Value) :
    (p.markRemoved s.pastEndDate).endDate < s.headTime ∧
      (p.markRemoved s.pastEndDate).endDateWithDelay ≤ s.headTime := by
  have hcleanup : 0 < taiyiProposalMaintenanceCleanup := by decide
  have hgenesis : taiyiProposalMaintenanceCleanup < taiyiGenesisTime := by decide
  refine ⟨Nat.sub_lt (hcleanup.trans (hgenesis.trans_le h)) hcleanup, ?_⟩
  calc (s.headTime - taiyiProposalMaintenanceCleanup + taiyiProposalMaintenanceCleanup) % 2 ^ 32
      ≤ s.headTime - taiyiProposalMaintenanceCleanup + taiyiProposalMaintenanceCleanup := Nat.mod_le _ _
    _ = s.headTime := Nat.sub_add_cancel (hgenesis.le.trans h)

theorem safe_markRemoved (s : State Value) (i : ℤ) : Safe s (s.markRemoved i) :=
  safe_modifyProposal Proposal.markRemoved_id (fun _ _ ↦ rfl) fun p _ hs _ ↦
    markRemoved_endDate hs.headTime p

theorem safe_removeVotes (vs : List Vote) (r : Reducer) (s : State Value) :
    Safe s (removeVotes vs r s).2 := by
  induction vs generalizing r s with
  | nil => exact .refl s
  | cons v vs ih =>
    rw [removeVotes]
    split
    · exact .refl s
    · exact (safe_eraseVote s v).trans (ih _ _)

theorem removeVotes_sublist (vs : List Vote) (r : Reducer) (s : State Value) :
    (removeVotes vs r s).2.votes.Sublist s.votes := by
  induction vs generalizing r s with
  | nil => exact .refl _
  | cons v vs ih =>
    rw [removeVotes]
    split
    · exact .refl _
    · exact (ih _ _).trans List.filter_sublist

/-- A loop that has not been stopped has erased every vote. -/
theorem removeVotes_erased (vs : List Vote) (r : Reducer) (s : State Value)
    (h : (removeVotes vs r s).1.done = false) : ∀ v ∈ vs, v ∉ (removeVotes vs r s).2.votes := by
  induction vs generalizing r s with
  | nil => exact nofun
  | cons v vs ih =>
    rw [removeVotes] at h ⊢
    split at h
    · next hd =>
      rw [hd] at h
      cases h
    · next hd =>
      rw [if_neg hd]
      intro w hw hmem
      rcases List.mem_cons.mp hw with rfl | hw
      · have := (removeVotes_sublist vs r.check (s.eraseVote w)).subset hmem
        simp [State.eraseVote] at this
      · exact ih _ _ h w hw hmem

theorem safe_removeProposal (i : ℤ) (r : Reducer) (s : State Value) :
    Safe s (removeProposal i r s).2 := by
  have hsafe := safe_removeVotes (s.votesOf i) r s
  have hsub := removeVotes_sublist (s.votesOf i) r s
  have herased := removeVotes_erased (s.votesOf i) r s
  unfold removeProposal
  split
  next r' s' he =>
  rw [he] at hsafe hsub herased
  split
  · exact hsafe
  · next hd =>
    split
    · exact hsafe
    · refine hsafe.trans (safe_eraseProposal (List.filter_eq_nil_iff.mpr fun v hv hid ↦ ?_))
      exact herased (Bool.eq_false_of_not_eq_true hd) v
        (List.mem_filter.mpr ⟨hsub.subset hv, hid⟩) hv

theorem safe_removeOwn (owner : ℕ) (ids : List ℤ) (r : Reducer) (s : State Value) :
    Safe s (removeOwn owner ids r s).2 := by
  induction ids generalizing r s with
  | nil => exact .refl s
  | cons i ids ih =>
    rw [removeOwn]
    split
    · exact ih r s
    · split
      · exact .refl s
      · have hsafe := safe_removeProposal i r s
        split
        next r' s' he =>
        rw [he] at hsafe
        split
        · exact hsafe
        · exact hsafe.trans (ih r' s')

theorem safe_flagRemoved (ids : List ℤ) (s : State Value) : Safe s (flagRemoved ids s) := by
  induction ids generalizing s with
  | nil => exact .refl s
  | cons i ids ih =>
    rw [flagRemoved]
    split
    · exact ih s
    · split
      · exact ih s
      · exact (safe_markRemoved s i).trans (ih _)

theorem safe_updateVote (s : State Value) (voter : ℕ) (approve : Bool) (i : ℤ) :
    Safe s (s.updateVote voter approve i) := by
  unfold State.updateVote
  split
  · exact .refl s
  · next p hfind =>
    obtain ⟨hp, hid⟩ := mem_of_find hfind
    split
    · exact .refl s
    · split
      · split
        · exact .refl s
        · next hv => exact safe_insertVote ⟨p, hp, hid⟩ hv
      · exact safe_eraseVote s _

theorem safe_create (p : Proposal Value) (hid : p.id = s.nextId) (hremoved : p.removed = false) :
    Safe s { s with proposals := s.proposals ++ [p], nextId := s.nextId + 1 } where
  sound hs :=
    { indexed := by
        refine ⟨?_, fun q hq ↦ ?_, hs.indexed.votes⟩
        · rw [List.map_append, List.nodup_append]
          refine ⟨hs.indexed.ids, List.nodup_singleton _, fun i hi j hj ↦ ?_⟩
          obtain ⟨q, hq, rfl⟩ := List.mem_map.mp hi
          rw [List.mem_singleton.mp hj, hid]
          exact (hs.indexed.fresh q hq).ne
        · rcases List.mem_append.mp hq with hq | hq
          · exact (hs.indexed.fresh q hq).trans (Int.lt_succ _)
          · rw [List.mem_singleton.mp hq, hid]
            exact Int.lt_succ _
      votes := fun v hv ↦ by
        obtain ⟨q, hq, hqid⟩ := hs.votes v hv
        exact ⟨q, List.mem_append_left _ hq, hqid⟩
      removed := fun q hq ↦ by
        rcases List.mem_append.mp hq with hq | hq
        · exact hs.removed q hq
        · rw [List.mem_singleton.mp hq, hremoved]
          exact nofun
      headTime := hs.headTime }
  evolves := by
    refine ⟨(Int.lt_succ _).le, rfl, fun q hq hlt ↦ ?_⟩
    rcases List.mem_append.mp hq with hq | hq
    · exact ⟨q, hq, rfl, id⟩
    · rw [List.mem_singleton.mp hq, hid] at hlt
      exact absurd hlt (lt_irrefl _)

theorem safe_createProposal (s : State Value) (caller : ℕ) (contractName functionName : String)
    (valueList : List Value) (subject : String) (endTime : ℕ) :
    Safe s (s.createProposal caller contractName functionName valueList subject endTime).2 := by
  unfold State.createProposal
  repeat' split
  all_goals first | exact .refl s | exact safe_create _ rfl rfl

theorem safe_updateVotes (caller : ℕ) (approve : Bool) (ids : List ℤ) (s : State Value) :
    Safe s (ids.foldl (fun s i ↦ s.updateVote caller approve i) s) := by
  induction ids generalizing s with
  | nil => exact .refl s
  | cons i ids ih => exact (safe_updateVote s caller approve i).trans (ih _)

theorem safe_updateProposalVotes (s : State Value) (caller : ℕ) (ids : List ℤ) (approve : Bool) :
    Safe s (s.updateProposalVotes caller ids approve).2 := by
  unfold State.updateProposalVotes
  split_ifs
  · exact .refl s
  · exact .refl s
  · exact .refl s
  · exact safe_updateVotes caller approve (idSet ids) s

theorem safe_removeProposals (threshold : Int16) (s : State Value) (caller : ℕ) (ids : List ℤ) :
    Safe s (s.removeProposals threshold caller ids).2 := by
  have hsafe := safe_removeOwn caller (idSet ids) { threshold } s
  unfold State.removeProposals
  split_ifs
  · exact .refl s
  · exact .refl s
  · exact .refl s
  · split
    · next he =>
      rw [he] at hsafe
      exact hsafe
    · next he =>
      rw [he] at hsafe
      exact hsafe.trans (safe_flagRemoved _ _)

/-- Calls are safe, also where they fail. -/
theorem safe_exec (threshold : Int16) (c : Call Value) (s : State Value) :
    Safe s (s.exec threshold c).2 := by
  cases c with
  | create => exact safe_createProposal ..
  | vote => exact safe_updateProposalVotes ..
  | remove => exact safe_removeProposals ..

theorem safe_run (threshold : Int16) (body : Body Value) (s : State Value) :
    Safe s (body.run threshold s).2 := by
  induction body generalizing s with
  | done => exact .refl s
  | raise => exact .refl s
  | call c next ih => exact (safe_exec threshold c s).trans (ih _ _)
  | world w next ih => exact (Safe.world s w).trans (ih _)

theorem safe_removeExpired (ids : List ℤ) (r : Reducer) (s : State Value) :
    Safe s (removeExpired ids r s) := by
  induction ids generalizing r s with
  | nil => exact .refl s
  | cons i ids ih =>
    have hsafe := safe_removeProposal i r s
    rw [removeExpired]
    split
    next r' s' he =>
    rw [he] at hsafe
    split
    · exact hsafe
    · exact hsafe.trans (ih r' s')

theorem safe_calculateVotes (ids : List ℤ) (s : State Value) : Safe s (s.calculateVotes ids) := by
  unfold State.calculateVotes
  induction ids generalizing s with
  | nil => exact .refl s
  | cons i ids ih =>
    refine Safe.trans ?_ (ih _)
    exact safe_modifyProposal (fun _ ↦ rfl) (fun _ h ↦ h) fun p hp hs ↦ hs.removed p hp

end Steps

end Taiyi.Proposals
