import Mathlib.Data.Prod.Lex
import Taiyi.Ledger.Adore
import Taiyi.Library.OrderStatistic

set_option autoImplicit false

namespace Taiyi.Schedule

open Library.OrderStatistic

def taiyiMaxSimings : ℕ := 21

def taiyiHardforkRequiredSimings : ℕ := 17

/-- An amount of the asset whose symbol has the number. -/
structure Asset where
  amount : ℤ
  symbol : ℕ
  deriving DecidableEq

/-- Assets are sorted by amount, and among equal amounts the order is left to the sort. -/
instance : LinearOrder Asset :=
  .lift' (fun a ↦ toLex (a.amount, a.symbol)) fun a b h ↦ by
    obtain ⟨hamount, hsymbol⟩ := Prod.mk.inj (toLex.injective h)
    cases a
    cases b
    exact congrArg₂ Asset.mk hamount hsymbol

/-- `TAIYI_ASSET_NUM_YANG`. -/
def yangSymbol : ℕ := (99999999 + 2) * 2 ^ 5 + 3

structure ChainProperties where
  accountCreationFee : Asset := ⟨1, yangSymbol⟩
  maximumBlockSize : ℕ := 2 * (1024 * 64)
  proposalAdoptedVotesThreshold : ℕ := 3
  deriving DecidableEq

inductive SimingScheduleType
  | elected
  | timeshare
  | miner
  | none
  deriving DecidableEq

/-- A block producer. The null key, which cannot sign, is `none`. -/
structure Siming extends Ledger.Siming where
  id : ℕ
  owner : ℕ
  signingKey : Option ℕ
  props : ChainProperties := {}
  schedule : SimingScheduleType := .none
  runningVersion : ℕ := 0
  hardforkVersionVote : ℕ := 0
  hardforkTimeVote : ℕ := 1762840800

/-- The slots hold account names, of which `none` is the empty one. -/
structure SimingSchedule where
  currentVirtualTime : ℕ := 0
  nextShuffleBlockNum : ℕ := 1
  currentShuffledSimings : Vector (Option ℕ) taiyiMaxSimings
  numScheduledSimings : ℕ := 1
  medianProps : ChainProperties := {}
  majorityVersion : ℕ := 0
  maxAdoredSimings : ℕ := taiyiMaxSimings
  hardforkRequiredSimings : ℕ := taiyiHardforkRequiredSimings

structure HardforkProperty where
  processedHardforks : List ℕ := [1762840800]
  lastHardfork : ℕ := 0
  currentHardforkVersion : ℕ := 0
  nextHardfork : ℕ := 0
  nextHardforkTime : ℕ := 0

/-- The simings in the order of their ids, and what a new schedule is made of and written to. -/
structure State where
  simings : List Siming
  wso : SimingSchedule
  hardfork : HardforkProperty := {}
  maximumBlockSize : ℕ

def State.modifySimings (s : State) (p : Siming → Bool) (f : Siming → Siming) : State :=
  { s with simings := s.simings.map fun x ↦ if p x then f x else x }

/-- `get_siming`, which throws for a name without a siming. No siming has the empty name. -/
def State.getSiming (s : State) : Option ℕ → Option Siming
  | none => none
  | some name => s.simings.find? (·.owner = name)

/-- The order of `by_adore_name`. -/
def byAdoreName (x y : Siming) : Prop := y.adores < x.adores ∨ x.adores = y.adores ∧ x.owner ≤ y.owner

/-- The order of `by_schedule_time`. -/
def byScheduleTime (x y : Siming) : Prop :=
  x.virtualScheduledTime < y.virtualScheduledTime ∨
    x.virtualScheduledTime = y.virtualScheduledTime ∧ x.id ≤ y.id

instance : DecidableRel byAdoreName := fun x y ↦
  inferInstanceAs (Decidable (y.adores < x.adores ∨ x.adores = y.adores ∧ x.owner ≤ y.owner))

instance : DecidableRel byScheduleTime := fun x y ↦
  inferInstanceAs (Decidable (x.virtualScheduledTime < y.virtualScheduledTime ∨
    x.virtualScheduledTime = y.virtualScheduledTime ∧ x.id ≤ y.id))

instance : Std.Total byScheduleTime := ⟨fun x y ↦ by unfold byScheduleTime; omega⟩

instance : IsTrans Siming byScheduleTime := ⟨fun x y z ↦ by unfold byScheduleTime; omega⟩

/-- `TAIYI_INIT_SIMING_NAME`. -/
def initSiming : ℕ := 0

def taiyiMaxBlockSize : ℕ := 1024 * 64 * 3 * 2000

/-- `init_genesis` with its one siming in the first slot. -/
def genesis (initKey : ℕ) : State where
  simings := [{ id := 0, owner := initSiming, signingKey := some initKey, schedule := .miner }]
  wso := { currentShuffledSimings := .ofFn fun i ↦ if i.val = 0 then some initSiming else none }
  maximumBlockSize := taiyiMaxBlockSize

end Taiyi.Schedule
