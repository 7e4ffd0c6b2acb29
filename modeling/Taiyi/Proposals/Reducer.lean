import Taiyi.Proposals.Objects

set_option autoImplicit false

namespace Taiyi.Proposals

variable {Value : Type}

/-- The number of steps that a threshold allows; at its greatest value the counter wraps before
it is exceeded. -/
def budget (threshold : Int16) : Option ℕ :=
  if threshold.toInt < 0 ∨ threshold.toInt = 2 ^ 15 - 1 then none else some threshold.toInt.toNat

/-- `n` steps do not exceed a budget. -/
def Affords (b : Option ℕ) (n : ℕ) : Prop := ∀ k ∈ b, n ≤ k

instance (b : Option ℕ) (n : ℕ) : Decidable (Affords b n) :=
  inferInstanceAs (Decidable (∀ k ∈ b, n ≤ k))

/-- What is left of a budget after `n` steps. -/
def spend (b : Option ℕ) (n : ℕ) : Option ℕ := b.map (· - n)

section Budget

variable {r : Reducer} {b : Option ℕ} {n m : ℕ}

theorem spend_zero : spend b 0 = b := by cases b <;> rfl

theorem spend_spend : spend (spend b n) m = spend b (n + m) := by
  cases b with
  | none => rfl
  | some k => exact congrArg some (Nat.sub_sub k n m)

theorem affords_zero : Affords b 0 := fun _ _ ↦ Nat.zero_le _

theorem affords_add_iff : Affords b (n + m) ↔ Affords b n ∧ Affords (spend b n) m := by
  cases b with
  | none => exact ⟨fun _ ↦ ⟨nofun, nofun⟩, fun _ ↦ nofun⟩
  | some k =>
    simp only [Affords, spend, Option.map_some, Option.mem_def, Option.some.injEq, forall_eq']
    omega

/-- The reducer still takes the steps of a budget. -/
def Reducer.Allows (r : Reducer) : Option ℕ → Prop
  | none => r.threshold.toInt < 0 ∨ r.threshold.toInt = 2 ^ 15 - 1
  | some n => 0 ≤ r.threshold.toInt ∧ r.threshold.toInt < 2 ^ 15 - 1 ∧ 0 ≤ r.counter.toInt ∧
      r.counter.toInt + n = r.threshold.toInt

theorem allows_budget (threshold : Int16) : Reducer.Allows { threshold } (budget threshold) := by
  have hlt := threshold.toInt_lt
  have hzero : (0 : Int16).toInt = 0 := rfl
  unfold budget
  split
  · next h => exact h
  · next h =>
    rw [not_or] at h
    have hnonneg : 0 ≤ threshold.toInt := Int.not_lt.mp h.1
    have htoNat : (threshold.toInt.toNat : ℤ) = threshold.toInt := Int.toNat_of_nonneg hnonneg
    exact ⟨hnonneg, by dsimp only; omega, le_rfl, by rw [hzero, htoNat, Int.zero_add]⟩

theorem Reducer.check_of_neg {r : Reducer} (h : r.threshold.toInt < 0) :
    r.check = { r with done := false } :=
  if_pos (Int16.lt_iff_toInt_lt.mpr h)

theorem Reducer.check_of_nonneg {r : Reducer} (h : 0 ≤ r.threshold.toInt) :
    r.check = { r with counter := r.counter + 1, done := r.threshold < r.counter + 1 } :=
  if_neg fun hneg ↦ Int.not_lt.mpr h (Int16.lt_iff_toInt_lt.mp hneg)

/-- One step: within its budget the reducer goes on, and after it the reducer is done. -/
theorem Reducer.Allows.check (h : r.Allows b) :
    (r.check.done = true ↔ ¬Affords b 1) ∧ (Affords b 1 → r.check.Allows (spend b 1)) := by
  cases b with
  | none =>
    have hafford : Affords none 1 := nofun
    simp only [hafford, not_true, iff_false, forall_const]
    by_cases hneg : r.threshold.toInt < 0
    · rw [check_of_neg hneg]
      exact ⟨Bool.false_ne_true, .inl hneg⟩
    · -- no counter exceeds the greatest value
      have hmax : r.threshold.toInt = 2 ^ 15 - 1 := h.resolve_left hneg
      rw [check_of_nonneg (Int.not_lt.mp hneg)]
      refine ⟨fun hdone ↦ ?_, .inr hmax⟩
      have hlt := Int16.lt_iff_toInt_lt.mp (of_decide_eq_true hdone)
      have := (r.counter + 1).toInt_lt
      omega
  | some n =>
    obtain ⟨hle, hlt, hcounter, hsum⟩ := h
    have hadd : (r.counter + 1).toInt = r.counter.toInt + 1 := by
      rw [Int16.toInt_add, Int.bmod_eq_of_le] <;> simp only [show (1 : Int16).toInt = 1 from rfl] <;>
        omega
    rw [check_of_nonneg hle]
    simp only [decide_eq_true_iff, Int16.lt_iff_toInt_lt, hadd, Affords, spend, Option.map_some,
      Option.mem_def, Option.some.injEq, forall_eq']
    refine ⟨by omega, fun hn ↦ ⟨hle, hlt, ?_, ?_⟩⟩ <;> dsimp only <;> rw [hadd] <;> omega

/-- A proposal is erased after all of its votes, each of which counts as one step. -/
def cost (s : State Value) (id : ℤ) : ℕ := (s.votesOf id).length + 1

end Budget

section Keeps

variable {keep keep' : ℤ → Bool} {s t u : State Value} {id : ℤ} {v : Vote}

/-- The proposals with `keep`, their votes and everything else are as they were. -/
structure Keeps (keep : ℤ → Bool) (s t : State Value) : Prop where
  proposals : t.proposals.filter (keep ·.id) = s.proposals.filter (keep ·.id)
  votes : t.votes.filter (keep ·.proposalId) = s.votes.filter (keep ·.proposalId)
  nextId : t.nextId = s.nextId
  headTime : t.headTime = s.headTime
  nextMaintenanceTime : t.nextMaintenanceTime = s.nextMaintenanceTime
  world : t.world = s.world

theorem Keeps.refl (keep : ℤ → Bool) (s : State Value) : Keeps keep s s := ⟨rfl, rfl, rfl, rfl, rfl, rfl⟩

theorem Keeps.trans (h : Keeps keep s t) (h' : Keeps keep t u) : Keeps keep s u where
  proposals := h'.proposals.trans h.proposals
  votes := h'.votes.trans h.votes
  nextId := h'.nextId.trans h.nextId
  headTime := h'.headTime.trans h.headTime
  nextMaintenanceTime := h'.nextMaintenanceTime.trans h.nextMaintenanceTime
  world := h'.world.trans h.world

theorem filter_filter_of_imp {α : Type} {p q : α → Bool} {l : List α}
    (h : ∀ a ∈ l, p a = true → q a = true) : (l.filter q).filter p = l.filter p := by
  rw [List.filter_filter]
  refine List.filter_congr fun a ha ↦ ?_
  cases hp : p a with
  | false => rfl
  | true => rw [h a ha hp, Bool.and_true]

theorem Keeps.find (h : Keeps keep s t) (hid : keep id = true) : t.find id = s.find id := by
  have hfind (u : State Value) : u.find id = (u.proposals.filter (keep ·.id)).find? (·.id = id) := by
    rw [List.find?_filter, State.find]
    congr 1
    funext p
    by_cases hp : p.id = id
    · simp [hp, hid]
    · simp [hp]
  rw [hfind, hfind, h.proposals]

theorem Keeps.votesOf (h : Keeps keep s t) (hid : keep id = true) : t.votesOf id = s.votesOf id := by
  have hvotes (u : State Value) :
      u.votesOf id = (u.votes.filter (keep ·.proposalId)).filter (·.proposalId = id) :=
    (filter_filter_of_imp fun v _ hv ↦ of_decide_eq_true hv ▸ hid).symm
  rw [hvotes, hvotes, h.votes]

theorem Keeps.cost (h : Keeps keep s t) (hid : keep id = true) :
    Proposals.cost t id = Proposals.cost s id := by
  rw [Proposals.cost, Proposals.cost, h.votesOf hid]

theorem keeps_eraseVote (h : keep v.proposalId = false) : Keeps keep s (s.eraseVote v) where
  proposals := rfl
  votes := filter_filter_of_imp fun w _ hw ↦ decide_eq_true fun heq ↦ by simp [heq, h] at hw
  nextId := rfl
  headTime := rfl
  nextMaintenanceTime := rfl
  world := rfl

theorem keeps_eraseProposal (h : keep id = false) : Keeps keep s (s.eraseProposal id) where
  proposals := filter_filter_of_imp fun p _ hp ↦ decide_eq_true fun heq ↦ by simp [heq, h] at hp
  votes := rfl
  nextId := rfl
  headTime := rfl
  nextMaintenanceTime := rfl
  world := rfl

end Keeps

section Remove

variable {r : Reducer} {b : Option ℕ} {s t : State Value} {id : ℤ} {vs : List Vote}
  {keep : ℤ → Bool}

theorem keeps_removeVotes (h : ∀ v ∈ vs, keep v.proposalId = false) :
    Keeps keep s (removeVotes vs r s).2 := by
  induction vs generalizing r s with
  | nil => exact .refl keep s
  | cons v vs ih =>
    rw [removeVotes]
    split
    · exact .refl keep s
    · exact (keeps_eraseVote (h v List.mem_cons_self)).trans
        (ih fun w hw ↦ h w (List.mem_cons_of_mem _ hw))

theorem keeps_removeProposal (h : keep id = false) : Keeps keep s (removeProposal id r s).2 := by
  have hvotes : Keeps keep s (removeVotes (s.votesOf id) r s).2 := by
    refine keeps_removeVotes fun v hv ↦ ?_
    rw [of_decide_eq_true (List.mem_filter.mp hv).2, h]
  unfold removeProposal
  split
  next r' s' he =>
  rw [he] at hvotes
  split
  · exact hvotes
  · split
    · exact hvotes
    · exact hvotes.trans (keeps_eraseProposal h)

variable (s vs) in
theorem removeVotes_done (h : r.Allows b) (hr : r.done = false) :
    ((removeVotes vs r s).1.done = true ↔ ¬Affords b vs.length) ∧
      (Affords b vs.length → (removeVotes vs r s).1.Allows (spend b vs.length)) := by
  induction vs generalizing r s b with
  | nil => simp [removeVotes, hr, affords_zero, spend_zero, h]
  | cons v vs ih =>
    obtain ⟨hdone, hallows⟩ := h.check
    rw [removeVotes, List.length_cons, Nat.add_comm, affords_add_iff]
    split
    · next hd =>
      have hnot := hdone.mp hd
      exact ⟨⟨fun _ hboth ↦ hnot hboth.1, fun _ ↦ hd⟩, fun hboth ↦ absurd hboth.1 hnot⟩
    · next hd =>
      have hone : Affords b 1 := by
        by_contra hnot
        exact hd (hdone.mpr hnot)
      have hrest := ih (s.eraseVote v) (hallows hone) (Bool.eq_false_of_not_eq_true hd)
      rw [spend_spend] at hrest
      exact ⟨hrest.1.trans (by rw [and_iff_right hone]), fun hboth ↦ hrest.2 hboth.2⟩

variable (s id) in
/-- A proposal is done with unless its cost exceeds the budget. -/
theorem removeProposal_done (h : r.Allows b) (hr : r.done = false) :
    ((removeProposal id r s).1.done = true ↔ ¬Affords b (cost s id)) ∧
      (Affords b (cost s id) → (removeProposal id r s).1.Allows (spend b (cost s id))) := by
  obtain ⟨hdone, hallows⟩ := removeVotes_done s (s.votesOf id) h hr
  rw [cost, affords_add_iff, ← spend_spend]
  unfold removeProposal
  split
  next r' s' he =>
  rw [he] at hdone hallows
  split
  · next hd =>
    have hnot := hdone.mp hd
    exact ⟨⟨fun _ hboth ↦ hnot hboth.1, fun _ ↦ hd⟩, fun hboth ↦ absurd hboth.1 hnot⟩
  · next hd =>
    have hvotes : Affords b (s.votesOf id).length := by
      by_contra hnot
      exact hd (hdone.mpr hnot)
    obtain ⟨hdone', hallows'⟩ := (hallows hvotes).check
    rw [and_iff_right hvotes]
    split
    · next hd' => exact ⟨hdone', fun hone ↦ absurd hone (hdone'.mp hd')⟩
    · exact ⟨hdone', hallows'⟩

end Remove

end Taiyi.Proposals
