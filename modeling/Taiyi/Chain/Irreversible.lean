import Taiyi.Chain.Replay
import Taiyi.Library.OrderStatistic

set_option autoImplicit false

namespace Taiyi.Chain

open Library.OrderStatistic

def taiyi100Percent : ℕ := 10000

def taiyiIrreversibleThreshold : ℕ := 75 * (taiyi100Percent / 100)

def taiyiMaxSimings : ℕ := 21

/-- The blocks of thirty days. -/
def taiyiStartAdoringBlock : ℕ := 24 * 60 * 60 / 3 * 30

/-- The block that each registered siming produced last, the simings in the schedule, and the
rest of the content. No siming has produced a block above the head. -/
structure Confirmations (Name Other : Type) where
  headBlockNumber : ℕ
  lastConfirmed : Name → Option ℕ
  scheduled : List Name
  other : Other
  le_head : ∀ name n, lastConfirmed name = some n → n ≤ headBlockNumber

namespace Confirmations

variable {Name Other : Type}

/-- The place of the decisive siming among the scheduled ones. -/
def offset (simings : ℕ) : ℕ :=
  (taiyi100Percent - taiyiIrreversibleThreshold) * simings / taiyi100Percent

/-- The last blocks of the scheduled simings; a name without a siming throws. -/
def confirmed (r : Confirmations Name Other) : Option (List ℕ) := r.scheduled.mapM r.lastConfirmed

/-- The new last irreversible block in the place of `lib`. -/
def updateLastIrreversibleBlock (r : Confirmations Name Other) (lib : ℕ) : Option ℕ :=
  if r.headBlockNumber < taiyiStartAdoringBlock then
    some (if taiyiMaxSimings < r.headBlockNumber then r.headBlockNumber - taiyiMaxSimings else lib)
  else
    r.confirmed.bind fun blocks ↦
      (nthElement blocks (offset blocks.length)).map fun n ↦ if lib < n then n else lib

variable [DecidableEq Name]

/-- The simings that the transactions of a block register have not produced any. -/
def register (r : Confirmations Name Other) (names : List Name) (other : Other) :
    Confirmations Name Other where
  headBlockNumber := r.headBlockNumber
  lastConfirmed name := if name ∈ names then some ((r.lastConfirmed name).getD 0)
    else r.lastConfirmed name
  scheduled := r.scheduled
  other := other
  le_head name n h := by
    split at h
    · cases hn : r.lastConfirmed name with
      | none =>
        rw [hn] at h
        cases h
        exact Nat.zero_le _
      | some m =>
        rw [hn] at h
        cases h
        exact r.le_head name m hn
    · exact r.le_head name n h

/-- `update_global_dynamic_data` and `update_signing_siming`: the next block is the head and the
last block of its siming. -/
def advance (r : Confirmations Name Other) (siming : Name) : Confirmations Name Other where
  headBlockNumber := r.headBlockNumber + 1
  lastConfirmed := Function.update r.lastConfirmed siming (some (r.headBlockNumber + 1))
  scheduled := r.scheduled
  other := r.other
  le_head name n h := by
    by_cases hn : name = siming
    · subst hn
      rw [Function.update_self] at h
      exact Nat.le_of_eq (Option.some.inj h).symm
    · rw [Function.update_of_ne hn] at h
      exact Nat.le_succ_of_le (r.le_head name n h)

end Confirmations

/-- What `_apply_block` does around the update of the last irreversible block: first the checks
and the transactions, which register simings, then the new schedule and the rest. -/
class Processing (Block : Type) (Id Name Other : outParam Type) [BlockId Id] where
  siming : Block → Name
  before : ChainState Id (Confirmations Name Other) → Block → Option (List Name × Other)
  after : ℕ → Confirmations Name Other → Block → Option (List Name × Other)

open Processing (siming before)

variable {Block Id Name Other : Type} [BlockId Id] [DecidableEq Name]
  [Processing Block Id Name Other]

/-- `_apply_block` after the test of `previous`. The number of the head is stored beside its id;
contents where the two differ do not occur. -/
def applyConfirming (c : ChainState Id (Confirmations Name Other)) (b : Block) :
    Option (ℕ × Confirmations Name Other) :=
  if c.rest.headBlockNumber = num c.headId ∧ (c.rest.lastConfirmed (siming b)).isSome then
    (before c b).bind fun registered ↦
      let r := (c.rest.register registered.1 registered.2).advance (siming b)
      (r.updateLastIrreversibleBlock c.lib).bind fun lib ↦
        (Processing.after lib r b).map fun schedule ↦
          (lib, { r with scheduled := schedule.1, other := schedule.2 })
  else none

section Lookup

variable {α β : Type} {f : α → Option β} {l : List α} {bs : List β}

theorem forall₂_of_mapM (h : l.mapM f = some bs) : List.Forall₂ (fun a b ↦ f a = some b) l bs := by
  induction l generalizing bs with
  | nil =>
    obtain rfl : [] = bs := by simpa using h
    exact .nil
  | cons a l ih =>
    obtain ⟨b, hb, bs', hbs, rfl⟩ : ∃ b, f a = some b ∧
        ∃ bs', l.mapM f = some bs' ∧ b :: bs' = bs := by
      simpa [List.mapM_cons, Option.bind_eq_some_iff] using h
    exact .cons hb (ih hbs)

theorem exists_of_mem_mapM (h : l.mapM f = some bs) {b : β} (hb : b ∈ bs) :
    ∃ a ∈ l, f a = some b := by
  replace h := forall₂_of_mapM h
  induction h with
  | nil => cases hb
  | @cons a c l cs ha hl ih =>
    rcases List.mem_cons.mp hb with rfl | hb
    · exact ⟨a, List.mem_cons_self, ha⟩
    · obtain ⟨a', ha', hb'⟩ := ih hb
      exact ⟨a', List.mem_cons_of_mem a ha', hb'⟩

theorem countP_mapM (h : l.mapM f = some bs) (p : β → Bool) :
    bs.countP p = l.countP fun a ↦ (f a).any p := by
  replace h := forall₂_of_mapM h
  induction h with
  | nil => rfl
  | cons ha hl ih => simp [List.countP_cons, ha, ih]

end Lookup

namespace Confirmations

variable {r : Confirmations Name Other} {lib n : ℕ}

omit [DecidableEq Name] in
theorem update_early (h : r.headBlockNumber < taiyiStartAdoringBlock) :
    r.updateLastIrreversibleBlock lib = some (if taiyiMaxSimings < r.headBlockNumber then
      r.headBlockNumber - taiyiMaxSimings else lib) := if_pos h

omit [DecidableEq Name] in
/-- The decisive siming is a scheduled one, and its last block is taken over when it is higher. -/
theorem update_late (h : ¬ r.headBlockNumber < taiyiStartAdoringBlock)
    (hn : r.updateLastIrreversibleBlock lib = some n) :
    ∃ blocks m, r.confirmed = some blocks ∧ nthElement blocks (offset blocks.length) = some m ∧
      n = max lib m := by
  rw [updateLastIrreversibleBlock, if_neg h] at hn
  obtain ⟨blocks, hb, hn⟩ := Option.bind_eq_some_iff.mp hn
  obtain ⟨m, hm, rfl⟩ := Option.map_eq_some_iff.mp hn
  refine ⟨blocks, m, hb, hm, ?_⟩
  split <;> omega

omit [DecidableEq Name] in
theorem confirmed_le {blocks : List ℕ} (h : r.confirmed = some blocks) :
    ∀ m ∈ blocks, m ≤ r.headBlockNumber := by
  intro m hm
  obtain ⟨name, -, hname⟩ := exists_of_mem_mapM h hm
  exact r.le_head name m hname

omit [DecidableEq Name] in
theorem update_le_head (hl : lib ≤ r.headBlockNumber)
    (hn : r.updateLastIrreversibleBlock lib = some n) : n ≤ r.headBlockNumber := by
  by_cases h : r.headBlockNumber < taiyiStartAdoringBlock
  · rw [update_early h] at hn
    split at hn <;> cases hn
    · exact Nat.sub_le _ _
    · exact hl
  · obtain ⟨blocks, m, hb, hm, rfl⟩ := update_late h hn
    exact Nat.max_le.mpr ⟨hl, confirmed_le hb m (mem_of_nthElement hm)⟩

/-- How many of the scheduled simings have produced a block at or above `n`. -/
def confirmations (r : Confirmations Name Other) (n : ℕ) : ℕ :=
  r.scheduled.countP fun name ↦ (r.lastConfirmed name).any (n ≤ ·)

omit [DecidableEq Name] in
/-- Where the rule of confirmations raises the last irreversible block, it becomes the highest
block that enough scheduled simings have confirmed. -/
theorem isGreatest_of_advanced (h : ¬ r.headBlockNumber < taiyiStartAdoringBlock)
    (hn : r.updateLastIrreversibleBlock lib = some n) (hlt : lib < n) :
    IsGreatest {m | r.scheduled.length - offset r.scheduled.length ≤ r.confirmations m} n := by
  obtain ⟨blocks, m, hb, hm, rfl⟩ := update_late h hn
  have hlen : blocks.length = r.scheduled.length := (forall₂_of_mapM hb).length_eq.symm
  have hg := isGreatest_nthElement hm
  rw [hlen] at hg
  rw [max_eq_right (by omega)]
  refine ⟨?_, fun k hk ↦ hg.2 ?_⟩
  · have := hg.1
    rwa [Set.mem_ofPred_eq, countP_mapM hb] at this
  · rwa [Set.mem_ofPred_eq, countP_mapM hb]

end Confirmations

variable {c c' : ChainState Id (Confirmations Name Other)} {b : Block}

theorem applyConfirming_ok {r : ℕ × Confirmations Name Other} (h : applyConfirming c b = some r) :
    c.rest.headBlockNumber = num c.headId ∧ ∃ before : Confirmations Name Other,
      before.headBlockNumber = num c.headId + 1 ∧ before.scheduled = c.rest.scheduled ∧
      before.updateLastIrreversibleBlock c.lib = some r.1 ∧
      r.2.headBlockNumber = before.headBlockNumber ∧ r.2.lastConfirmed = before.lastConfirmed := by
  unfold applyConfirming at h
  split at h
  · next hc =>
    obtain ⟨registered, -, h⟩ := Option.bind_eq_some_iff.mp h
    obtain ⟨lib, hl, h⟩ := Option.bind_eq_some_iff.mp h
    obtain ⟨schedule, -, rfl⟩ := Option.map_eq_some_iff.mp h
    exact ⟨hc.1, (c.rest.register registered.1 registered.2).advance (siming b),
      congrArg (· + 1) hc.1, rfl, hl, rfl, rfl⟩
  · cases h

instance : Evaluation Block Id (Confirmations Name Other) where
  evaluate := applyConfirming
  lib_le c b r hl h := by
    obtain ⟨-, before, hn, -, hu, -⟩ := applyConfirming_ok h
    exact hn ▸ Confirmations.update_le_head (hn ▸ Nat.le_succ_of_le hl) hu

variable [BlockHeader Block Id] [DecidableEq Id]

/-- What a block that applies does with the confirmations. -/
theorem apply_ok (h : c.apply b = some c') :
    c.rest.headBlockNumber = c.headNum ∧ ∃ before : Confirmations Name Other,
      before.headBlockNumber = c'.headNum ∧ before.scheduled = c.rest.scheduled ∧
      before.updateLastIrreversibleBlock c.lib = some c'.lib ∧
      c'.rest.headBlockNumber = c'.headNum ∧ c'.rest.lastConfirmed = before.lastConfirmed := by
  have hn := ChainState.headNum_apply h
  unfold ChainState.apply at h
  split at h
  · obtain ⟨r, hr, rfl⟩ := Option.map_eq_some_iff.mp h
    obtain ⟨hc, before, hb, hs, hu, hh, hl⟩ := applyConfirming_ok hr
    have hb : before.headBlockNumber = c.headNum + 1 := hb
    exact ⟨hc, before, by rw [hb, hn], hs, hu, by rw [hh, hb, hn], hl⟩
  · cases h

/-- What holds of the content on every chain from genesis. -/
structure Paced (c : ChainState Id (Confirmations Name Other)) : Prop where
  number : c.rest.headBlockNumber = c.headNum
  lib_le : c.lib ≤ c.headNum
  early : c.headNum < taiyiStartAdoringBlock → c.lib = c.headNum - taiyiMaxSimings
  late : taiyiStartAdoringBlock ≤ c.headNum → taiyiStartAdoringBlock - 1 - taiyiMaxSimings ≤ c.lib

namespace Paced

omit [DecidableEq Name] [DecidableEq Id] in
theorem genesis (hi : c.headId = zero) (hl : c.lib = 0) (hn : c.rest.headBlockNumber = 0) :
    Paced c := by
  have hz : c.headNum = 0 := by rw [ChainState.headNum, hi, BlockId.num_zero]
  refine ⟨by rw [hn, hz], by rw [hl]; exact Nat.zero_le _, fun _ ↦ by rw [hl, hz, Nat.zero_sub],
    fun h ↦ ?_⟩
  rw [hz] at h
  exact absurd h (by decide)

/-- Before the block at which adoring starts the last irreversible block follows the head. -/
theorem step_early (hp : Paced c) (h : c.apply b = some c')
    (he : c'.headNum < taiyiStartAdoringBlock) : c'.lib = c'.headNum - taiyiMaxSimings := by
  obtain ⟨-, before, hb, -, hu, -⟩ := apply_ok h
  have hn := ChainState.headNum_apply h
  have hl := hp.early (by omega)
  rw [Confirmations.update_early (hb ▸ he), hb] at hu
  rw [← Option.some.inj hu]
  split <;> omega

theorem step_late (h : c.apply b = some c') (hl : taiyiStartAdoringBlock ≤ c'.headNum) :
    c.lib ≤ c'.lib := by
  obtain ⟨-, before, hb, -, hu, -⟩ := apply_ok h
  obtain ⟨blocks, m, -, -, he⟩ := Confirmations.update_late (hb ▸ Nat.not_lt.mpr hl) hu
  exact he ▸ Nat.le_max_left _ _

theorem step (hp : Paced c) (h : c.apply b = some c') : Paced c' := by
  have hn := ChainState.headNum_apply h
  obtain ⟨-, before, -, -, -, hc, -⟩ := apply_ok h
  refine ⟨hc, ChainState.lib_le_apply hp.lib_le h, hp.step_early h, fun hl ↦ ?_⟩
  have hle := step_late h hl
  by_cases he : c.headNum < taiyiStartAdoringBlock
  · have := hp.early he
    omega
  · exact (hp.late (by omega)).trans hle

theorem lib_mono (hp : Paced c) (h : c.apply b = some c') : c.lib ≤ c'.lib := by
  have hn := ChainState.headNum_apply h
  by_cases he : c'.headNum < taiyiStartAdoringBlock
  · rw [hp.step_early h he, hp.early (by omega)]
    omega
  · exact step_late h (by omega)

theorem replay (hp : Paced c) {bs : List Block} (h : c.replay bs = some c') :
    Paced c' ∧ c.lib ≤ c'.lib := by
  induction bs generalizing c with
  | nil =>
    cases h
    exact ⟨hp, Nat.le_refl _⟩
  | cons b bs ih =>
    rw [ChainState.replay_cons] at h
    obtain ⟨d, hd, h⟩ := Option.bind_eq_some_iff.mp h
    obtain ⟨hp', hle⟩ := ih (hp.step hd) h
    exact ⟨hp', (hp.lib_mono hd).trans hle⟩

omit [DecidableEq Name] [DecidableEq Id] in
/-- A block is irreversible exactly when the chain is higher than the number of simings. -/
theorem lib_pos (hp : Paced c) : 0 < c.lib ↔ taiyiMaxSimings < c.headNum := by
  by_cases he : c.headNum < taiyiStartAdoringBlock
  · rw [hp.early he]
    omega
  · have hl := hp.late (by omega)
    have hs : taiyiMaxSimings + 1 < taiyiStartAdoringBlock := by decide
    omega

end Paced

end Taiyi.Chain
