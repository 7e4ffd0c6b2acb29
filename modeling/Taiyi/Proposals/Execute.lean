import Taiyi.Proposals.Sound

set_option autoImplicit false

namespace Taiyi.Proposals

variable {Value : Type} {s t u : State Value} {threshold : Int16}

section Pass

variable {execution : ℤ → Execution Value} {ids : List ℤ} {events log : List Event} {e : Event}
  {i : ℤ} {headTime : ℕ}

/-- A proposal that has been executed is gone for good, or marked. -/
structure Served (s : State Value) (e : Event) : Prop where
  fresh : e.id < s.nextId
  marked : ∀ p ∈ s.proposals, p.id = e.id → p.removed = true

theorem Served.evolves (h : Served s e) (he : Evolves s t) : Served t e where
  fresh := h.fresh.trans_le he.nextId
  marked q hq hid := by
    obtain ⟨p, hp, hpq, hmark⟩ := he.rows q hq (hid ▸ h.fresh)
    exact hmark (h.marked p hp (hpq.trans hid))

theorem served_markRemoved (hs : Sound s) {p : Proposal Value} (hp : p ∈ s.proposals) (b : Bool) :
    Served (s.markRemoved p.id) ⟨p.id, b⟩ where
  fresh := hs.indexed.fresh p hp
  marked q hq hid := by
    obtain ⟨o, _, rfl⟩ := List.mem_map.mp hq
    split
    · rfl
    · next hne =>
      rw [if_neg hne] at hid
      exact absurd hid hne

/-- What the loop over the listed proposals does: safe steps, and functions started for some of
them in their order, each of which has served by the end. -/
structure Executes (s t : State Value) (ids : List ℤ) (events : List Event) : Prop where
  safe : Safe s t
  started : (events.map Event.id).Sublist ids
  served : ∀ e ∈ events, Served t e

theorem Executes.cons {u : State Value} (hsafe : Safe s t) (h : Executes t u ids events)
    (he : Served t e) : Executes s u (e.id :: ids) (e :: events) where
  safe := hsafe.trans h.safe
  started := h.started.cons_cons e.id
  served := List.forall_mem_cons.mpr ⟨he.evolves h.safe.evolves, h.served⟩

theorem Executes.skip {u : State Value} (hsafe : Safe s t) (h : Executes t u ids events) (i : ℤ) :
    Executes s u (i :: ids) events where
  safe := hsafe.trans h.safe
  started := h.started.cons i
  served := h.served

theorem safe_eval (e : Execution Value) (threshold : Int16) (s : State Value) :
    Safe s (e.eval threshold s) := by
  have hrun := safe_run threshold e.body s
  unfold Execution.eval
  split
  · next he =>
    rw [he] at hrun
    exact hrun
  · exact .refl s

theorem finish_eq {e : Execution Value} (h : e.finish threshold i s = some t) :
    ∃ w, t = ({ e.eval threshold s with world := w }).markRemoved i ∧
      ∃ p ∈ (e.eval threshold s).proposals, p.id = i := by
  unfold Execution.finish at h
  split at h
  · next w p _ hp =>
    cases h
    exact ⟨w, rfl, p, mem_of_find hp⟩
  · cases h

theorem safe_finish {e : Execution Value} (h : e.finish threshold i s = some t) : Safe s t := by
  obtain ⟨w, rfl, -⟩ := finish_eq h
  exact ((safe_eval e threshold s).trans (Safe.world _ w)).trans (safe_markRemoved _ i)

theorem served_finish (hs : Sound s) {e : Execution Value} (h : e.finish threshold i s = some t)
    (b : Bool) : Served t ⟨i, b⟩ := by
  obtain ⟨w, rfl, p, hp, rfl⟩ := finish_eq h
  have hsound := ((safe_eval e threshold s).trans (Safe.world _ w)).sound hs
  exact served_markRemoved hsound hp b

theorem executes_of_some (hs : Sound s)
    (h : executeProposals threshold execution ids s = some (t, events)) :
    Executes s t ids events := by
  induction ids generalizing s events with
  | nil =>
    cases h
    exact ⟨.refl _, .refl _, nofun⟩
  | cons i ids ih =>
    rw [executeProposals] at h
    split at h
    · cases h
    · next p hfind =>
      obtain ⟨hp, rfl⟩ := mem_of_find hfind
      split at h
      · cases h
        exact ⟨.refl _, List.nil_sublist _, nofun⟩
      · split at h
        · exact (ih hs h).skip (.refl s) _
        · split at h
          · have hmark := safe_markRemoved s p.id
            exact (ih (hmark.sound hs) h).skip hmark _
          · split at h
            · cases h
            · next u hfinish =>
              obtain ⟨⟨v, rest⟩, hrest, he⟩ := Option.map_eq_some_iff.mp h
              cases he
              exact (ih ((safe_finish hfinish).sound hs) hrest).cons (safe_finish hfinish)
                (served_finish hs hfinish p.removed)

end Pass

section Orderly

variable {execution : ℤ → Execution Value} {ids xs : List ℤ} {events : List Event} {i j : ℤ}
  {f : Proposal Value → Proposal Value}

def Call.Avoids (ids : List ℤ) : Call Value → Prop
  | .remove _ xs => ∀ x ∈ xs, x ∉ ids
  | _ => True

/-- No call of the function removes one of the proposals. -/
def Body.Avoids (ids : List ℤ) : Body Value → Prop
  | .done => True
  | .raise => True
  | .call c next => c.Avoids ids ∧ ∀ b, (next b).Avoids ids
  | .world _ next => next.Avoids ids

/-- No function removes its own proposal, or one that is still to be executed. -/
def Orderly (execution : ℤ → Execution Value) : List ℤ → Prop
  | [] => True
  | i :: ids => (execution i).body.Avoids (i :: ids) ∧ Orderly execution ids

/-- The rows of the proposals are as they were. -/
def Remains (ids : List ℤ) (s t : State Value) : Prop :=
  ∀ i ∈ ids, ∀ p, s.find i = some p → t.find i = some p

theorem Remains.trans (h : Remains ids s t) (h' : Remains ids t u) : Remains ids s u :=
  fun i hi p hp ↦ h' i hi p (h i hi p hp)

theorem find_modifyProposal (hf : ∀ p, (f p).id = p.id) :
    (s.modifyProposal j f).find i = (s.find i).map fun p ↦ if p.id = j then f p else p := by
  rw [State.find, State.modifyProposal, List.find?_map]
  congr 2
  funext p
  simp only [Function.comp_apply]
  split
  · rw [hf]
  · rfl

theorem find_markRemoved_ne (h : i ≠ j) : (s.markRemoved j).find i = s.find i := by
  rw [State.markRemoved, find_modifyProposal Proposal.markRemoved_id]
  cases hfind : s.find i with
  | none => rfl
  | some p =>
    rw [Option.map_some, if_neg]
    rw [(mem_of_find hfind).2]
    exact h

theorem find_flagRemoved (h : i ∉ xs) : (flagRemoved xs s).find i = s.find i := by
  induction xs generalizing s with
  | nil => rfl
  | cons x xs ih =>
    obtain ⟨hx, hxs⟩ := not_or.mp (List.mem_cons.not.mp h)
    rw [flagRemoved]
    split
    · exact ih hxs
    · rw [ih hxs]
      split
      · rfl
      · exact find_markRemoved_ne hx

theorem keeps_removeOwn_of_not_mem {keep : ℤ → Bool} {owner : ℕ} {r : Reducer}
    (h : ∀ x ∈ xs, keep x = false) : Keeps keep s (removeOwn owner xs r s).2 := by
  induction xs generalizing s r with
  | nil => exact .refl _ _
  | cons x xs ih =>
    have ih' := fun s r ↦ ih (s := s) (r := r) fun y hy ↦ h y (List.mem_cons_of_mem _ hy)
    rw [removeOwn]
    split
    · exact ih' s r
    · split
      · exact .refl _ _
      · have hstep : Keeps keep s (removeProposal x r s).2 :=
          keeps_removeProposal (h x List.mem_cons_self)
        split
        next r' s' he =>
        rw [he] at hstep
        split
        · exact hstep
        · exact hstep.trans (ih' s' r')

theorem updateVote_proposals (s : State Value) (voter : ℕ) (approve : Bool) (i : ℤ) :
    (s.updateVote voter approve i).proposals = s.proposals := by
  unfold State.updateVote
  repeat' split
  all_goals rfl

theorem updateVotes_proposals (caller : ℕ) (approve : Bool) (xs : List ℤ) (s : State Value) :
    (xs.foldl (fun s x ↦ s.updateVote caller approve x) s).proposals = s.proposals := by
  induction xs generalizing s with
  | nil => rfl
  | cons x xs ih => exact (ih _).trans (updateVote_proposals s caller approve x)

theorem remains_exec {c : Call Value} (hc : c.Avoids ids) : Remains ids s (s.exec threshold c).2 := by
  intro i hi p hp
  cases c with
  | create caller contractName functionName valueList subject endTime =>
    rw [State.exec, State.createProposal]
    repeat' split
    all_goals first
      | exact hp
      | exact (List.find?_append ..).trans (by rw [show s.proposals.find? _ = some p from hp]; rfl)
  | vote caller xs approve =>
    rw [State.exec, State.updateProposalVotes]
    split_ifs
    · exact hp
    · exact hp
    · exact hp
    · rw [State.find, updateVotes_proposals]
      exact hp
  | remove caller xs =>
    have hkeep : Keeps (fun j ↦ decide (j ∈ ids)) s (removeOwn caller (idSet xs) { threshold } s).2 :=
      keeps_removeOwn_of_not_mem fun x hx ↦ decide_eq_false (hc x (mem_idSet.mp hx))
    have hfind := (hkeep.find (decide_eq_true hi)).trans hp
    rw [State.exec, State.removeProposals]
    split_ifs
    · exact hp
    · exact hp
    · exact hp
    · split
      · next he =>
        rw [he] at hfind
        exact hfind
      · next he =>
        rw [he] at hfind
        exact (find_flagRemoved fun hx ↦ hc i (mem_idSet.mp hx) hi).trans hfind

theorem remains_run {body : Body Value} (hb : body.Avoids ids) :
    Remains ids s (body.run threshold s).2 := by
  induction body generalizing s with
  | done => exact fun _ _ _ hp ↦ hp
  | raise => exact fun _ _ _ hp ↦ hp
  | call c next ih => exact (remains_exec hb.1).trans (ih _ (hb.2 _))
  | world w next ih => exact ih (s := { s with world := w }) hb

theorem remains_eval {e : Execution Value} (he : e.body.Avoids ids) :
    Remains ids s (e.eval threshold s) := by
  have hrun : Remains ids s (e.body.run threshold s).2 := remains_run he
  unfold Execution.eval
  split
  · next he =>
    rw [he] at hrun
    exact hrun
  · exact fun _ _ _ hp ↦ hp

/-- The proposals are there and not marked. -/
def Pending (ids : List ℤ) (s : State Value) : Prop :=
  ∀ i ∈ ids, ∃ p, s.find i = some p ∧ p.removed = false

theorem Pending.remains (h : Pending ids s) (hr : Remains ids s t) : Pending ids t := fun i hi ↦ by
  obtain ⟨p, hp, hremoved⟩ := h i hi
  exact ⟨p, hr i hi p hp, hremoved⟩

theorem Pending.markRemoved (h : Pending ids s) (hi : i ∉ ids) : Pending ids (s.markRemoved i) :=
  fun j hj ↦ by
    have hne : j ≠ i := fun he ↦ hi (he ▸ hj)
    rw [find_markRemoved_ne hne]
    exact h j hj

theorem unremoved_of_orderly (ho : Orderly execution ids) (hpending : Pending ids s)
    (hnodup : ids.Nodup) (h : executeProposals threshold execution ids s = some (t, events)) :
    ∀ e ∈ events, e.removed = false := by
  induction ids generalizing s events with
  | nil =>
    cases h
    exact nofun
  | cons i ids ih =>
    obtain ⟨havoid, ho⟩ := ho
    obtain ⟨hnot, hnodup⟩ := List.nodup_cons.mp hnodup
    have hrest : Pending ids s := fun j hj ↦ hpending j (List.mem_cons_of_mem _ hj)
    obtain ⟨p, hp, hremoved⟩ := hpending i List.mem_cons_self
    rw [executeProposals, hp] at h
    dsimp only at h
    split at h
    · cases h
      exact nofun
    · split at h
      · exact ih ho hrest hnodup h
      · split at h
        · exact ih ho (hrest.markRemoved hnot) hnodup h
        · split at h
          · cases h
          · next u hfinish =>
            obtain ⟨⟨v, rest⟩, hsome, he⟩ := Option.map_eq_some_iff.mp h
            cases he
            obtain ⟨w, rfl, -⟩ := finish_eq hfinish
            have heval : Pending ids ((execution i).eval threshold s) := fun j hj ↦
              hpending.remains (remains_eval havoid) j (List.mem_cons_of_mem _ hj)
            have hpend : Pending ids { (execution i).eval threshold s with world := w } := heval
            exact List.forall_mem_cons.mpr ⟨hremoved, ih ho (hpend.markRemoved hnot) hnodup hsome⟩

end Orderly

end Taiyi.Proposals
