import Mathlib.Data.List.Dedup
import Taiyi.Proposals.Reducer

set_option autoImplicit false

namespace Taiyi.Proposals

variable {Value : Type} {s t : State Value} {r : Reducer} {b : Option ℕ} {owner : ℕ} {ids : List ℤ}

/-- The votes and proposals that the first pass erases before it comes to a proposal of another
creator. -/
def ownCost (s : State Value) (owner : ℕ) : List ℤ → ℕ
  | [] => 0
  | id :: ids =>
    match s.find id with
    | none => ownCost s owner ids
    | some p => if p.creator ≠ owner then 0 else cost s id + ownCost s owner ids

def Foreign (s : State Value) (owner : ℕ) (ids : List ℤ) : Prop :=
  ∃ id ∈ ids, ∃ p, s.find id = some p ∧ p.creator ≠ owner

theorem ownCost_congr (h : ∀ id ∈ ids, t.find id = s.find id ∧ cost t id = cost s id) :
    ownCost t owner ids = ownCost s owner ids := by
  induction ids with
  | nil => rfl
  | cons id ids ih =>
    obtain ⟨hfind, hcost⟩ := h id List.mem_cons_self
    rw [ownCost, ownCost, hfind, hcost, ih fun j hj ↦ h j (List.mem_cons_of_mem _ hj)]

theorem foreign_congr (h : ∀ id ∈ ids, t.find id = s.find id) :
    Foreign t owner ids ↔ Foreign s owner ids :=
  exists_congr fun id ↦ and_congr_right fun hid ↦ by rw [h id hid]

theorem foreign_cons {id : ℤ} : Foreign s owner (id :: ids) ↔
    (∃ p, s.find id = some p ∧ p.creator ≠ owner) ∨ Foreign s owner ids := by
  simp only [Foreign, List.mem_cons, exists_eq_or_imp]

variable (s owner) in
/-- The first pass fails exactly if it can pay for the way to a proposal of another creator. -/
theorem removeOwn_fst (hids : ids.Nodup) (h : r.Allows b) (hr : r.done = false) :
    ((removeOwn owner ids r s).1 = .ok () ↔
      ¬(Affords b (ownCost s owner ids) ∧ Foreign s owner ids)) := by
  induction ids generalizing r s b with
  | nil => simp [removeOwn, Foreign]
  | cons id ids ih =>
    obtain ⟨hnot, hids⟩ := List.nodup_cons.mp hids
    rw [removeOwn, ownCost, foreign_cons]
    cases hfind : s.find id with
    | none => simpa using ih s hids h hr
    | some p =>
      by_cases hp : p.creator ≠ owner
      · simp [hp, affords_zero]
      · obtain ⟨hdone, hallows⟩ := removeProposal_done s id h hr
        have hkeep : Keeps (fun j ↦ decide (j ≠ id)) s (removeProposal id r s).2 :=
          keeps_removeProposal (by simp)
        have hne (j : ℤ) (hj : j ∈ ids) : decide (j ≠ id) = true :=
          decide_eq_true fun heq ↦ hnot (heq ▸ hj)
        simp only [hp, if_false, Option.some.injEq, exists_eq_left', false_or]
        rcases hremove : removeProposal id r s with ⟨r', s'⟩
        rw [hremove] at hdone hallows hkeep
        rw [affords_add_iff]
        dsimp only at hdone hallows hkeep ⊢
        split
        · next hd => simp [hdone.mp hd]
        · next hd =>
          have hafford : Affords b (cost s id) := by
            by_contra hn
            exact hd (hdone.mpr hn)
          rw [ih s' hids (hallows hafford) (Bool.eq_false_of_not_eq_true hd), and_iff_right hafford,
            ownCost_congr fun j hj ↦ ⟨hkeep.find (hne j hj), hkeep.cost (hne j hj)⟩,
            foreign_congr fun j hj ↦ hkeep.find (hne j hj)]

theorem removeVotes_proposals (vs : List Vote) :
    (removeVotes vs r s).2.proposals = s.proposals := by
  induction vs generalizing r s with
  | nil => rfl
  | cons v vs ih =>
    rw [removeVotes]
    split
    · rfl
    · exact ih

theorem removeProposal_subset (id : ℤ) :
    (removeProposal id r s).2.proposals.Sublist s.proposals := by
  have hvotes := removeVotes_proposals (r := r) (s := s) (s.votesOf id)
  unfold removeProposal
  split
  next r' s' he =>
  rw [he] at hvotes
  dsimp only at hvotes
  rw [← hvotes]
  split
  · exact .refl _
  · split
    · exact .refl _
    · exact List.filter_sublist

theorem removeOwn_subset : (removeOwn owner ids r s).2.proposals.Sublist s.proposals := by
  induction ids generalizing r s with
  | nil => exact .refl _
  | cons id ids ih =>
    rw [removeOwn]
    split
    · exact ih
    · split
      · exact .refl _
      · have hsub := removeProposal_subset (r := r) (s := s) id
        split
        next r' s' he =>
        rw [he] at hsub
        split
        · exact hsub
        · exact ih.trans hsub

/-- Ids that belong to no proposal of `owner`. -/
def notOwned (s : State Value) (owner : ℕ) (id : ℤ) : Bool :=
  s.proposals.all fun p ↦ p.id ≠ id ∨ p.creator ≠ owner

variable (r owner ids) in
theorem keeps_removeOwn (hsub : t.proposals.Sublist s.proposals) :
    Keeps (notOwned s owner) t (removeOwn owner ids r t).2 := by
  induction ids generalizing r t with
  | nil => exact .refl _ _
  | cons id ids ih =>
    rw [removeOwn]
    split
    · exact ih r hsub
    · next p hp =>
      split
      · exact .refl _ _
      · next howned =>
        obtain ⟨hmem, hid⟩ := mem_of_find hp
        have hkeep : notOwned s owner id = false := by
          refine Bool.eq_false_of_not_eq_true fun hall ↦ ?_
          have := List.all_eq_true.mp hall p (hsub.subset hmem)
          simp [hid, howned] at this
        have hstep : Keeps (notOwned s owner) t (removeProposal id r t).2 := keeps_removeProposal hkeep
        have hsub' := removeProposal_subset (r := r) (s := t) id
        split
        next r' t' he =>
        rw [he] at hstep hsub'
        split
        · exact hstep
        · exact hstep.trans (ih r' (hsub'.trans hsub))

theorem modifyProposal_ids {id : ℤ} {f : Proposal Value → Proposal Value} (hf : ∀ p, (f p).id = p.id) :
    (s.modifyProposal id f).proposals.map Proposal.id = s.proposals.map Proposal.id := by
  rw [State.modifyProposal, List.map_map]
  refine List.map_congr_left fun p _ ↦ ?_
  rw [Function.comp_apply]
  split
  · exact hf p
  · rfl

/-- The second pass marks what it finds, once. -/
theorem flagRemoved_eq (hs : (s.proposals.map Proposal.id).Nodup) :
    flagRemoved ids s = { s with proposals := s.proposals.map fun p ↦
      if p.id ∈ ids ∧ p.removed = false then p.markRemoved s.pastEndDate else p } := by
  induction ids generalizing s with
  | nil => simp [flagRemoved]
  | cons id ids ih =>
    rw [flagRemoved]
    cases hfind : s.find id with
    | none =>
      dsimp only
      rw [ih hs]
      congr 1
      refine List.map_congr_left fun p hp ↦ ?_
      have hne : p.id ≠ id := by simpa using List.find?_eq_none.mp hfind p hp
      simp [hne]
    | some p =>
      obtain ⟨hmem, hid⟩ := mem_of_find hfind
      have huniq : ∀ q ∈ s.proposals, q.id = id → q = p :=
        fun q hq h ↦ List.inj_on_of_nodup_map hs hq hmem (h.trans hid.symm)
      dsimp only
      split
      · next hremoved =>
        rw [ih hs]
        congr 1
        refine List.map_congr_left fun q hq ↦ ?_
        by_cases h : q.id = id
        · cases huniq q hq h
          simp [hremoved]
        · simp [h]
      · have hids : ((s.markRemoved id).proposals.map Proposal.id).Nodup := by
          rw [State.markRemoved, modifyProposal_ids]
          · exact hs
          · exact Proposal.markRemoved_id
        rw [ih hids]
        simp only [State.markRemoved, State.modifyProposal, State.pastEndDate, List.map_map]
        congr 1
        refine List.map_congr_left fun q hq ↦ ?_
        by_cases h : q.id = id
        · cases huniq q hq h
          simp [Proposal.markRemoved, *]
        · simp [h]

/-- The proposals of other creators, and their votes, are as they were. -/
def Untouched (owner : ℕ) (s t : State Value) : Prop :=
  ∀ p ∈ s.proposals, p.creator ≠ owner → p ∈ t.proposals ∧ t.votesOf p.id = s.votesOf p.id

theorem notOwned_of_mem (hs : (s.proposals.map Proposal.id).Nodup) {p : Proposal Value}
    (hp : p ∈ s.proposals) (howner : p.creator ≠ owner) : notOwned s owner p.id = true := by
  refine List.all_eq_true.mpr fun q hq ↦ decide_eq_true ?_
  by_cases h : q.id = p.id
  · exact .inr (List.inj_on_of_nodup_map hs hq hp h ▸ howner)
  · exact .inl h

theorem idSet_nodup (ids : List ℤ) : (idSet ids).Nodup :=
  (List.perm_insertionSort _ _).nodup_iff.mpr (List.nodup_dedup ids)

theorem mem_idSet {id : ℤ} : id ∈ idSet ids ↔ id ∈ ids := by
  rw [idSet, List.mem_insertionSort, List.mem_dedup]

variable (r owner ids) in
/-- After the first pass, what the second pass does to the proposals of others. -/
theorem untouched_flagRemoved_iff (hs : (s.proposals.map Proposal.id).Nodup) :
    Untouched owner s (flagRemoved ids (removeOwn owner ids r s).2) ↔
      ∀ p ∈ s.proposals, p.id ∈ ids → p.creator ≠ owner → p.removed = true := by
  have hkeep := keeps_removeOwn r owner ids (List.Sublist.refl s.proposals)
  have hs' : ((removeOwn owner ids r s).2.proposals.map Proposal.id).Nodup :=
    hs.sublist (removeOwn_subset.map _)
  rw [flagRemoved_eq hs']
  constructor
  · intro h p hp hid howner
    by_contra hremoved
    obtain ⟨q, hq, he⟩ := List.mem_map.mp (h p hp howner).1
    split at he
    · subst he
      exact hremoved rfl
    · next hnot =>
      subst he
      exact hnot ⟨hid, Bool.eq_false_of_not_eq_true hremoved⟩
  · intro h p hp howner
    have hpkeep := notOwned_of_mem hs hp howner
    obtain ⟨hmem, -⟩ := mem_of_find ((hkeep.find hpkeep).trans (find_of_mem hs hp))
    refine ⟨List.mem_map.mpr ⟨p, hmem, if_neg fun hboth ↦ ?_⟩, hkeep.votesOf hpkeep⟩
    rw [h p hp hboth.1 howner] at hboth
    exact Bool.noConfusion hboth.2

/-- A call fails, or leaves the proposals of others alone, unless the threshold stops the first
pass before it meets one of them and the second pass finds one that is not marked yet. -/
theorem removeProposals_untouched_iff (hs : (s.proposals.map Proposal.id).Nodup)
    (threshold : Int16) (caller : ℕ) (ids : List ℤ) :
    ((∃ e, (s.removeProposals threshold caller ids).1 = .error e) ∨
        Untouched caller s (s.removeProposals threshold caller ids).2) ↔
      s.world.isXinsu caller = false ∨ ids.length = 0 ∨ taiyiProposalMaxIdsNumber < ids.length ∨
        (∀ p ∈ s.proposals, p.id ∈ ids → p.creator ≠ caller → p.removed = true) ∨
        Affords (budget threshold) (ownCost s caller (idSet ids)) := by
  unfold State.removeProposals
  by_cases hxinsu : s.world.isXinsu caller = false
  · simp [hxinsu]
  by_cases hempty : ids.length = 0
  · simp [hxinsu, hempty]
  by_cases hmany : taiyiProposalMaxIdsNumber < ids.length
  · simp [hxinsu, hempty, hmany]
  have htrue : s.world.isXinsu caller = true := Bool.eq_true_of_not_eq_false hxinsu
  simp only [htrue, hempty, hmany, Bool.not_true, Bool.false_eq_true, Bool.true_eq_false, if_false,
    false_or]
  have hfst := removeOwn_fst s caller (idSet_nodup ids) (allows_budget threshold) rfl
  have hiff := untouched_flagRemoved_iff { threshold } caller (idSet ids) hs
  simp only [mem_idSet] at hiff
  rcases hresult : removeOwn caller (idSet ids) { threshold } s with ⟨e | u, t⟩
  · rw [hresult] at hfst
    have hafford : Affords (budget threshold) (ownCost s caller (idSet ids)) := by
      by_contra hnot
      exact nomatch hfst.mpr fun hboth ↦ hnot hboth.1
    exact iff_of_true (.inl ⟨e, rfl⟩) (.inr hafford)
  · rw [hresult] at hfst hiff
    dsimp only at hiff ⊢
    rw [hiff]
    constructor
    · rintro (⟨e, he⟩ | h)
      · cases he
      · exact .inl h
    · rintro (h | hafford)
      · exact .inr h
      · refine .inr fun p hp hid howner ↦ ?_
        exact absurd ⟨hafford, p.id, mem_idSet.mpr hid, p, find_of_mem hs hp, howner⟩
          (hfst.mp rfl)

/-- Account 1 has proposal 0, with a vote, and account 2 has proposal 1. -/
def twoCreators : State ℕ where
  proposals :=
    [⟨0, 1, "contract.a", "run", [], taiyiGenesisTime + 1000, "first", 0, false⟩,
      ⟨1, 2, "contract.a", "run", [], taiyiGenesisTime + 1000, "second", 0, false⟩]
  nextId := 2
  votes := [⟨3, 0⟩]
  headTime := taiyiGenesisTime
  nextMaintenanceTime := taiyiGenesisTime
  world :=
    { isXinsu := fun _ ↦ true
      contracts := fun _ ↦ none
      xinsuCount := 3
      proposalAdoptedVotesThreshold := 3
      daoQi := 0 }

/-- With a threshold of 2 there is enough to erase proposal 0, and proposal 1 fails the call. -/
theorem removeProposals_untouched_two :
    (∃ e, (twoCreators.removeProposals 2 1 [0, 1]).1 = .error e) ∨
      Untouched 1 twoCreators (twoCreators.removeProposals 2 1 [0, 1]).2 :=
  (removeProposals_untouched_iff (by decide) 2 1 [0, 1]).mpr (.inr (.inr (.inr (.inr (by decide)))))

/-- With a threshold of 1 the first pass stops at proposal 0, and the second marks proposal 1. -/
theorem removeProposals_marks_foreign :
    ¬((∃ e, (twoCreators.removeProposals 1 1 [0, 1]).1 = .error e) ∨
      Untouched 1 twoCreators (twoCreators.removeProposals 1 1 [0, 1]).2) := by
  rintro (⟨e, he⟩ | h)
  · have hok : (twoCreators.removeProposals 1 1 [0, 1]).1 = .ok () := rfl
    rw [hok] at he
    cases he
  · have hmem := (h _ (List.mem_cons_of_mem _ (List.mem_singleton_self _)) (by decide)).1
    revert hmem
    decide

end Taiyi.Proposals
