import Taiyi.Proposals.Objects

set_option autoImplicit false

namespace Taiyi.Proposals

/-- `TAIYI_PROPOSAL_MAINTENANCE_PERIOD` of the main net. -/
def taiyiProposalMaintenancePeriod : ℕ := 3600

variable {Value : Type}

/-- The calls of the contract API that reach the proposals. -/
inductive Call (Value : Type)
  | create (caller : ℕ) (contractName functionName : String) (valueList : List Value)
      (subject : String) (endTime : ℕ)
  | vote (caller : ℕ) (ids : List ℤ) (approve : Bool)
  | remove (caller : ℕ) (ids : List ℤ)

def State.exec (s : State Value) (threshold : Int16) : Call Value → Except String Unit × State Value
  | .create caller contractName functionName valueList subject endTime =>
    s.createProposal caller contractName functionName valueList subject endTime
  | .vote caller ids approve => s.updateProposalVotes caller ids approve
  | .remove caller ids => s.removeProposals threshold caller ids

/-- What a contract function does to the proposals. It sees whether a call failed, where it
catches the error, and may change the rest of the database. -/
inductive Body (Value : Type)
  | done
  | raise
  | call (c : Call Value) (next : Bool → Body Value)
  | world (w : World) (next : Body Value)

def Body.run (threshold : Int16) : Body Value → State Value → Bool × State Value
  | .done, s => (true, s)
  | .raise, s => (false, s)
  | .call c next, s => (next (s.exec threshold c).1.isOk).run threshold (s.exec threshold c).2
  | .world w next, s => next.run threshold { s with world := w }

/-- What the execution of a proposal comes to: its contract function, and the payments after it,
which may throw. -/
structure Execution (Value : Type) where
  body : Body Value
  settle : World → Option World

/-- The session of a function that raised is undone. -/
def Execution.eval (e : Execution Value) (threshold : Int16) (s : State Value) : State Value :=
  match e.body.run threshold s with
  | (true, t) => t
  | (false, _) => s

/-- The function of a proposal, the payments, and the mark on the proposal if it is still there. -/
def Execution.finish (e : Execution Value) (threshold : Int16) (id : ℤ) (s : State Value) :
    Option (State Value) :=
  match e.settle (e.eval threshold s).world, (e.eval threshold s).find id with
  | some w, some _ => some (({ e.eval threshold s with world := w }).markRemoved id)
  | _, _ => none

/-- A contract function that was started, and whether its proposal was marked by then. -/
structure Event where
  id : ℤ
  removed : Bool
  deriving DecidableEq

/-- The proposals up to `upper_bound( head_time )` of `by_end_date`. -/
def State.expired (s : State Value) (headTime : ℕ) : List ℤ :=
  ((s.proposals.filter fun p ↦ p.endDateWithDelay ≤ headTime).insertionSort byEndDate).map
    Proposal.id

def removeExpired : List ℤ → Reducer → State Value → State Value
  | [], _, s => s
  | id :: ids, r, s =>
    match removeProposal id r s with
    | (r, s) => if r.done then s else removeExpired ids r s

/-- `proposal_processor::remove_proposals`. -/
def State.removeOldProposals (s : State Value) (threshold : Int16) (headTime : ℕ) : State Value :=
  removeExpired (s.expired headTime) { threshold } s

def State.findActiveProposals (s : State Value) (headTime : ℕ) : List ℤ :=
  ((s.proposals.filter fun p ↦ headTime ≤ p.endDateWithDelay ∧ headTime ≤ p.endDate).insertionSort
    byEndDate).map Proposal.id

/-- `calculate_votes` of one proposal. -/
def State.countVotes (s : State Value) (id : ℤ) : ℕ :=
  ((s.votesOf id).filter fun v ↦ s.world.isXinsu v.voter).length

def State.calculateVotes (s : State Value) (ids : List ℤ) : State Value :=
  ids.foldl (fun s id ↦ s.modifyProposal id fun p ↦ { p with totalVotes := s.countVotes id }) s

def State.filterByVotes (s : State Value) (ids : List ℤ) : List ℤ :=
  let votesThreshold := min s.world.xinsuCount s.world.proposalAdoptedVotesThreshold
  ids.filter fun id ↦
    match s.find id with
    | none => false
    | some p => votesThreshold ≤ p.totalVotes

/-- The loop over references, which are ids here. It has no result where a reference dangles or
an exception leaves it. -/
def executeProposals (threshold : Int16) (execution : ℤ → Execution Value) :
    List ℤ → State Value → Option (State Value × List Event)
  | [], s => some (s, [])
  | id :: ids, s =>
    match s.find id with
    | none => none
    | some p =>
      if p.totalVotes = 0 then some (s, [])
      else if s.world.daoQi < 100 then executeProposals threshold execution ids s
      else
        match s.world.contracts p.contractName with
        | none => executeProposals threshold execution ids (s.markRemoved id)
        | some _ =>
          match (execution id).finish threshold id s with
          | none => none
          | some t => (executeProposals threshold execution ids t).map
              fun r ↦ (r.1, ⟨id, p.removed⟩ :: r.2)

/-- The proposals that a pass is to execute, in a state whose old proposals are removed. -/
def State.listed (s : State Value) (headTime : ℕ) : List ℤ :=
  (s.calculateVotes (s.findActiveProposals headTime)).filterByVotes (s.findActiveProposals headTime)

def State.processProposals (s : State Value) (threshold : Int16)
    (execution : ℤ → Execution Value) (headTime : ℕ) : Option (State Value × List Event) :=
  if headTime < s.nextMaintenanceTime then some (s, [])
  else
    (executeProposals threshold execution (s.listed headTime)
      (s.calculateVotes (s.findActiveProposals headTime))).map fun r ↦
      ({ r.1 with nextMaintenanceTime := headTime + taiyiProposalMaintenancePeriod }, r.2)

/-- `proposal_processor::run` in a block with the timestamp `headTime`. -/
def State.runProposals (s : State Value) (threshold : Int16) (execution : ℤ → Execution Value)
    (headTime : ℕ) : Option (State Value × List Event) :=
  (({ s with headTime := headTime }).removeOldProposals threshold headTime).processProposals
    threshold execution headTime

end Taiyi.Proposals
