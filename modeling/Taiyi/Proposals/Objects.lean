import Mathlib.Algebra.Group.Int.Defs
import Mathlib.Algebra.Group.Nat.Defs
import Mathlib.Data.List.Sort

set_option autoImplicit false

namespace Taiyi.Proposals

/-- `TAIYI_PROPOSAL_MAINTENANCE_CLEANUP`. -/
def taiyiProposalMaintenanceCleanup : ℕ := 60 * 60 * 24 * 1

def taiyiProposalSubjectMaxLength : ℕ := 80

def taiyiProposalMaxIdsNumber : ℕ := 5

/-- `TAIYI_GENESIS_TIME` of the main net. -/
def taiyiGenesisTime : ℕ := 1762840800

variable {Value : Type}

structure Proposal (Value : Type) where
  id : ℤ
  creator : ℕ
  contractName : String
  functionName : String
  valueList : List Value
  endDate : ℕ
  subject : String
  totalVotes : ℕ := 0
  removed : Bool := false
  deriving DecidableEq

/-- The key of `by_end_date`, in 32 bits. -/
def Proposal.endDateWithDelay (p : Proposal Value) : ℕ :=
  (p.endDate + taiyiProposalMaintenanceCleanup) % 2 ^ 32

/-- What both the handler and the processor do to a proposal that has served. -/
def Proposal.markRemoved (endDate : ℕ) (p : Proposal Value) : Proposal Value :=
  { p with removed := true, endDate := endDate }

@[simp] theorem Proposal.markRemoved_id {endDate : ℕ} (p : Proposal Value) :
    (p.markRemoved endDate).id = p.id := rfl

@[simp] theorem Proposal.markRemoved_removed {endDate : ℕ} (p : Proposal Value) :
    (p.markRemoved endDate).removed = true := rfl

@[simp] theorem Proposal.markRemoved_totalVotes {endDate : ℕ} (p : Proposal Value) :
    (p.markRemoved endDate).totalVotes = p.totalVotes := rfl

structure Vote where
  voter : ℕ
  proposalId : ℤ
  deriving DecidableEq

/-- The order of `by_proposal_voter`. -/
def byProposalVoter (v w : Vote) : Prop :=
  v.proposalId < w.proposalId ∨ v.proposalId = w.proposalId ∧ v.voter ≤ w.voter

/-- The order of `by_end_date`. -/
def byEndDate (p q : Proposal Value) : Prop :=
  p.endDateWithDelay < q.endDateWithDelay ∨ p.endDateWithDelay = q.endDateWithDelay ∧ p.id ≤ q.id

instance : DecidableRel byProposalVoter := fun v w ↦
  inferInstanceAs (Decidable (v.proposalId < w.proposalId ∨ v.proposalId = w.proposalId ∧ v.voter ≤ w.voter))

instance : DecidableRel (@byEndDate Value) := fun p q ↦
  inferInstanceAs (Decidable (p.endDateWithDelay < q.endDateWithDelay ∨
    p.endDateWithDelay = q.endDateWithDelay ∧ p.id ≤ q.id))

/-- A function of a contract: whether it takes any number of values, or how many it takes. -/
structure Signature where
  isVarArg : Bool
  arity : ℕ

/-- What the rest of the database holds: the accounts with a mark, the functions of the contracts,
and the qi of the treasury account that pays for executions. -/
structure World where
  isXinsu : ℕ → Bool
  contracts : String → Option (String → Option Signature)
  xinsuCount : ℕ
  proposalAdoptedVotesThreshold : ℕ
  daoQi : ℤ

/-- The rows of the two indexes: the proposals by id, the votes by proposal and voter. -/
structure State (Value : Type) where
  proposals : List (Proposal Value)
  nextId : ℤ
  votes : List Vote
  headTime : ℕ
  nextMaintenanceTime : ℕ
  world : World

def State.genesis (world : World) : State Value where
  proposals := []
  nextId := 0
  votes := []
  headTime := taiyiGenesisTime
  nextMaintenanceTime := taiyiGenesisTime
  world := world

namespace State

variable (s : State Value)

def find (id : ℤ) : Option (Proposal Value) := s.proposals.find? (·.id = id)

def eraseProposal (id : ℤ) : State Value :=
  { s with proposals := s.proposals.filter (·.id ≠ id) }

def eraseVote (v : Vote) : State Value := { s with votes := s.votes.filter (· ≠ v) }

def insertVote (v : Vote) : State Value :=
  { s with votes := s.votes.orderedInsert byProposalVoter v }

def modifyProposal (id : ℤ) (f : Proposal Value → Proposal Value) : State Value :=
  { s with proposals := s.proposals.map fun p ↦ if p.id = id then f p else p }

/-- The votes for a proposal, in the order of their voters. -/
def votesOf (id : ℤ) : List Vote := s.votes.filter (·.proposalId = id)

/-- The end date of a proposal that is marked now. -/
def pastEndDate : ℕ := s.headTime - taiyiProposalMaintenanceCleanup

def markRemoved (id : ℤ) : State Value := s.modifyProposal id (·.markRemoved s.pastEndDate)

end State

/-- What the unique indexes and the counter of ids promise. -/
structure Indexed (s : State Value) : Prop where
  ids : (s.proposals.map Proposal.id).Nodup
  fresh : ∀ p ∈ s.proposals, p.id < s.nextId
  votes : s.votes.Nodup

theorem mem_of_find {s : State Value} {id : ℤ} {p : Proposal Value} (h : s.find id = some p) :
    p ∈ s.proposals ∧ p.id = id := by
  unfold State.find at h
  exact ⟨List.mem_of_find?_eq_some h, by simpa using List.find?_some h⟩

theorem find_of_mem {s : State Value} (hs : (s.proposals.map Proposal.id).Nodup)
    {p : Proposal Value} (hp : p ∈ s.proposals) : s.find p.id = some p := by
  cases hf : s.find p.id with
  | none => exact absurd (List.find?_eq_none.mp hf p hp) (by simp)
  | some q =>
    obtain ⟨hq, hid⟩ := mem_of_find hf
    rw [List.inj_on_of_nodup_map hs hq hp hid]

/-- `proposal_removing_reducer`. -/
structure Reducer where
  threshold : Int16
  counter : Int16 := 0
  done : Bool := false

/-- The step that both instances of `checker` begin with. -/
def Reducer.check (r : Reducer) : Reducer :=
  if r.threshold < 0 then { r with done := false }
  else { r with counter := r.counter + 1, done := r.threshold < r.counter + 1 }

/-- The loop of `remove_proposal` over the votes. -/
def removeVotes : List Vote → Reducer → State Value → Reducer × State Value
  | [], r, s => (r, s)
  | v :: vs, r, s =>
    if r.check.done then (r.check, s) else removeVotes vs r.check (s.eraseVote v)

def removeProposal (id : ℤ) (r : Reducer) (s : State Value) : Reducer × State Value :=
  match removeVotes (s.votesOf id) r s with
  | (r, s) =>
    if r.done then (r, s)
    else if r.check.done then (r.check, s) else (r.check, s.eraseProposal id)

/-- `proposal_helper::remove_proposals`, over ids in ascending order. -/
def removeOwn (owner : ℕ) : List ℤ → Reducer → State Value → Except String Unit × State Value
  | [], _, s => (.ok (), s)
  | id :: ids, r, s =>
    match s.find id with
    | none => removeOwn owner ids r s
    | some p =>
      if p.creator ≠ owner then (.error "Only proposal owner can remove it...", s)
      else
        match removeProposal id r s with
        | (r, s) => if r.done then (.ok (), s) else removeOwn owner ids r s

/-- The pass of the handler over what is left. -/
def flagRemoved : List ℤ → State Value → State Value
  | [], s => s
  | id :: ids, s =>
    match s.find id with
    | none => flagRemoved ids s
    | some p => flagRemoved ids (if p.removed then s else s.markRemoved id)

/-- `flat_set_ex<int64_t>`. -/
def idSet (ids : List ℤ) : List ℤ := ids.dedup.insertionSort (· ≤ ·)

/-- `contract_handler::remove_proposals`. What a failed call has done stays where the script
catches the error. -/
def State.removeProposals (s : State Value) (threshold : Int16) (caller : ℕ) (ids : List ℤ) :
    Except String Unit × State Value :=
  if !s.world.isXinsu caller then (.error "you have no authority to remove proposals", s)
  else if ids.length = 0 then (.error "input proposal ids is empty", s)
  else if taiyiProposalMaxIdsNumber < ids.length then (.error "input proposal ids is too much", s)
  else
    match removeOwn caller (idSet ids) { threshold } s with
    | (.error e, s) => (.error e, s)
    | (.ok _, s) => (.ok (), flagRemoved (idSet ids) s)

/-- One id of `contract_handler::update_proposal_votes`. -/
def State.updateVote (s : State Value) (voter : ℕ) (approve : Bool) (id : ℤ) : State Value :=
  match s.find id with
  | none => s
  | some p =>
    if p.removed then s
    else if approve then if ⟨voter, id⟩ ∈ s.votes then s else s.insertVote ⟨voter, id⟩
    else s.eraseVote ⟨voter, id⟩

def State.updateProposalVotes (s : State Value) (caller : ℕ) (ids : List ℤ) (approve : Bool) :
    Except String Unit × State Value :=
  if !s.world.isXinsu caller then (.error "you have no authority to vote proposals", s)
  else if ids.length = 0 then (.error "input proposal ids is empty", s)
  else if taiyiProposalMaxIdsNumber < ids.length then (.error "input proposal ids is too much", s)
  else (.ok (), (idSet ids).foldl (fun s id ↦ s.updateVote caller approve id) s)

def State.createProposal (s : State Value) (caller : ℕ) (contractName functionName : String)
    (valueList : List Value) (subject : String) (endTime : ℕ) : Except String Unit × State Value :=
  if !s.world.isXinsu caller then (.error "you have no authority to create proposal", s)
  else if subject = "" then (.error "Subject is empty", s)
  else if taiyiProposalSubjectMaxLength < subject.utf8ByteSize then (.error "Subject is too long", s)
  else
    match s.world.contracts contractName with
    | none => (.error "contract is not exist", s)
    | some abi =>
      match abi functionName with
      | none => (.error "function can not be found in contract", s)
      | some sig =>
        if !sig.isVarArg && valueList.length ≠ sig.arity then (.error "input parameter values count", s)
        else if 20 < valueList.length then (.error "parameter value list is greater than 20 limit", s)
        else
          (.ok (), { s with
            proposals := s.proposals ++
              [⟨s.nextId, caller, contractName, functionName, valueList, endTime, subject, 0, false⟩]
            nextId := s.nextId + 1 })

end Taiyi.Proposals
