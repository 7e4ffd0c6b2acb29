import Taiyi.Schedule.Objects

set_option autoImplicit false

namespace Taiyi.Schedule

open Library.OrderStatistic Library.Shuffle Ledger

/-- The loop over `by_adore_name` with so many places left. -/
def elect : ℕ → List Siming → List Siming
  | 0, _ => []
  | _ + 1, [] => []
  | left + 1, x :: l => if x.signingKey = none then elect (left + 1) l else x :: elect left l

/-- The loop over `by_schedule_time` from a count of simings on: what it processes, and what it
adds to the active simings. -/
def lead (selected : List ℕ) : ℕ → List Siming → List Siming × List Siming
  | _, [] => ([], [])
  | count, x :: l =>
    if count < taiyiMaxSimings then
      if x.signingKey = none ∨ x.id ∈ selected then
        (x :: (lead selected count l).1, (lead selected count l).2)
      else (x :: (lead selected (count + 1) l).1, x :: (lead selected (count + 1) l).2)
    else ([], [])

namespace State

def elected (s : State) : List Siming :=
  elect s.wso.maxAdoredSimings (s.simings.insertionSort byAdoreName)

def processed (s : State) : List Siming :=
  (lead (s.elected.map Siming.id) s.elected.length (s.simings.insertionSort byScheduleTime)).1

def timeshare (s : State) : List Siming :=
  (lead (s.elected.map Siming.id) s.elected.length (s.simings.insertionSort byScheduleTime)).2

def activeSimings (s : State) : List Siming := s.elected ++ s.timeshare

/-- Everyone advances to at least the time of the last siming that is processed. -/
def newVirtualTime (s : State) : ℕ :=
  (s.processed.getLast?.map fun x ↦ x.virtualScheduledTime).getD s.wso.currentVirtualTime

def markSchedule (s : State) (simings : List Siming) (schedule : SimingScheduleType) : State :=
  s.modifySimings (fun x ↦ x.id ∈ simings.map Siming.id) fun x ↦ { x with schedule := schedule }

end State

section VirtualTime

/- The division of `uint128`; what it does with a divisor of zero is left open. -/
variable (divide : ℕ → ℕ → Option ℕ)

/-- The virtual time of a whole lap of a siming. -/
def Siming.lapTime (x : Siming) : Option ℕ := divide lapLength (toUint128 (x.adores + 1))

def Siming.restart (x : Siming) (now scheduled : ℕ) : Siming :=
  { x with virtualPosition := 0, virtualLastUpdate := now, virtualScheduledTime := scheduled }

/-- The loop over the processed simings, and whether it stopped at an overflow. -/
def restartAll (newVirtualTime : ℕ) : List Siming → State → Option (State × Bool)
  | [], s => some (s, false)
  | p :: ps, s => do
    let lap ← p.lapTime divide
    let scheduled := (newVirtualTime + lap) % 2 ^ 128
    if scheduled < newVirtualTime then some (s, true)
    else
      restartAll newVirtualTime ps
        (s.modifySimings (fun x ↦ x.id = p.id) fun x ↦ x.restart newVirtualTime scheduled)

def resetVirtualScheduleTime (s : State) : Option State := do
  let simings ← s.simings.mapM fun x ↦ (x.lapTime divide).map (x.restart 0)
  some { s with simings := simings, wso := { s.wso with currentVirtualTime := 0 } }

def advanceVirtualTime (processed : List Siming) (newVirtualTime : ℕ) (s : State) :
    Option (State × ℕ) := do
  let (t, overflow) ← restartAll divide newVirtualTime processed s
  if overflow then (resetVirtualScheduleTime divide t).map fun u ↦ (u, 0)
  else some (t, newVirtualTime)

end VirtualTime

/-- The counters of a `flat_map`, in the order of its keys. -/
def tally {κ : Type} [DecidableEq κ] (lt : κ → κ → Bool) (k : κ) : List (κ × ℕ) → List (κ × ℕ)
  | [] => [(k, 1)]
  | (k', n) :: l =>
    if k = k' then (k', n + 1) :: l
    else if lt k k' then (k, 1) :: (k', n) :: l
    else (k', n) :: tally lt k l

/-- The first version that the simings so far and those on it are enough for. -/
def majorityFrom (required : ℕ) : ℕ → List (ℕ × ℕ) → Option ℕ
  | _, [] => none
  | simingsOnVersion, (v, n) :: l =>
    if required ≤ simingsOnVersion + n then some v
    else majorityFrom required (simingsOnVersion + n) l

/-- The xorshift generator for a place of the schedule, and the place to swap it with. -/
def shuffleJump (headBlockTime numScheduled i : ℕ) : ℕ :=
  let k := UInt64.ofNat headBlockTime <<< 32 + UInt64.ofNat i * 2685821657736338717
  let k := k ^^^ (k >>> 12)
  let k := k ^^^ (k <<< 25)
  let k := k ^^^ (k >>> 27)
  let k := k * 2685821657736338717
  i + k.toNat % (numScheduled - i)

/-- The value in the middle after sorting by it. -/
def medianOf {κ : Type} [LinearOrder κ] (f : Siming → κ) (active : List Siming) : Option κ :=
  nthElement (active.map f) (active.length / 2)

namespace State

/-- The simings of the schedule as it stands. -/
def scheduled (s : State) : Option (List Siming) :=
  (s.wso.currentShuffledSimings.toList.take s.wso.numScheduledSimings).mapM s.getSiming

def majorityVersion (s : State) (scheduled : List Siming) : ℕ :=
  let versions := scheduled.foldl (fun m x ↦ tally (fun v w ↦ w < v) x.runningVersion m) []
  (majorityFrom s.wso.hardforkRequiredSimings 0 versions).getD s.wso.majorityVersion

def voteHardfork (s : State) (scheduled : List Siming) : State :=
  let before (v w : ℕ × ℕ) : Bool := v.1 < w.1 ∨ v.1 = w.1 ∧ v.2 < w.2
  let votes := scheduled.foldl
    (fun m x ↦ tally before (x.hardforkVersionVote, x.hardforkTimeVote) m) []
  { s with
    hardfork :=
      match votes.find? fun v ↦ s.wso.hardforkRequiredSimings ≤ v.2 with
      | some ((version, time), _) =>
        { s.hardfork with nextHardfork := version, nextHardforkTime := time }
      -- there is no majority any longer
      | none => { s.hardfork with nextHardfork := s.hardfork.currentHardforkVersion } }

def writeSchedule (s : State) (active : List Siming) (headBlockTime headBlockNum : ℕ)
    (newVirtualTime majorityVersion : ℕ) : State :=
  let slots : Vector (Option ℕ) taiyiMaxSimings := .ofFn fun i ↦ active[i]?.map Siming.owner
  let num := max (active.length % 2 ^ 8) 1
  { s with
    wso := { s.wso with
      currentShuffledSimings := shuffle (shuffleJump headBlockTime num) num slots
      numScheduledSimings := num
      currentVirtualTime := newVirtualTime
      nextShuffleBlockNum := (headBlockNum + num) % 2 ^ 32
      majorityVersion := majorityVersion } }

end State

def updateMedianSimingProps (s : State) : Option State := do
  let active ← s.scheduled
  let fee ← medianOf (fun x ↦ x.props.accountCreationFee) active
  let size ← medianOf (fun x ↦ x.props.maximumBlockSize) active
  let threshold ← medianOf (fun x ↦ x.props.proposalAdoptedVotesThreshold) active
  some { s with
    wso := { s.wso with medianProps := ⟨fee, size, threshold⟩ }
    maximumBlockSize := size }

def updateSimingSchedule4 (divide : ℕ → ℕ → Option ℕ) (headBlockTime headBlockNum : ℕ)
    (s : State) : Option State := do
  let marked := (s.markSchedule s.elected .elected).markSchedule s.timeshare .timeshare
  let (t, newVirtualTime) ← advanceVirtualTime divide s.processed s.newVirtualTime marked
  let scheduled ← t.scheduled
  updateMedianSimingProps <| (t.voteHardfork scheduled).writeSchedule s.activeSimings headBlockTime
    headBlockNum newVirtualTime (t.majorityVersion scheduled)

def updateSimingSchedule (divide : ℕ → ℕ → Option ℕ) (headBlockTime headBlockNum : ℕ)
    (s : State) : Option State :=
  if headBlockNum % taiyiMaxSimings = 0 then
    updateSimingSchedule4 divide headBlockTime headBlockNum s
  else some s

end Taiyi.Schedule
