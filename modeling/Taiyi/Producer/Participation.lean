import Taiyi.Library.BitWindow
import Taiyi.Producer.Apply

set_option autoImplicit false

namespace Taiyi.Producer.Participation

open Library.BitWindow

/-- `TAIYI_GENESIS_TIME` of the main net. -/
def taiyiGenesisTime : ℕ := 1762840800

def taiyiBlocksPerDay : ℕ := 24 * 60 * 60 / taiyiBlockInterval

def taiyiMaxUndoHistory : ℕ := 10000

/-- The number that `num_from_id` reads, and the rest of the hash. -/
structure BlockId where
  num : ℕ := 0
  digest : ℕ := 0
  deriving DecidableEq

structure DynamicGlobalProperties where
  headBlockNumber : ℕ := 0
  headBlockId : BlockId := {}
  time : ℕ
  currentAslot : ℕ := 0
  recentSlotsFilled : BitVec 128
  participationCount : UInt8
  deriving DecidableEq

def DynamicGlobalProperties.genesis : DynamicGlobalProperties where
  time := taiyiGenesisTime
  recentSlotsFilled := BitVec.allOnes 128
  participationCount := 128

def DynamicGlobalProperties.head (dgp : DynamicGlobalProperties) : Transactions.Head :=
  ⟨dgp.headBlockNumber, dgp.time⟩

/-- The null key, which cannot sign, is `none`. -/
structure Siming where
  owner : ℕ
  signingKey : Option ℕ
  totalMissed : ℕ := 0
  lastAslot : ℕ := 0
  lastConfirmedBlockNum : ℕ := 0
  deriving DecidableEq

/-- What the rest of the database writes, and block application reads. -/
structure Surroundings where
  simings : List Siming
  currentShuffledSimings : List ℕ
  numScheduledSimings : ℕ
  lastIrreversibleBlockNum : ℕ := 0
  deriving DecidableEq

structure State where
  dgp : DynamicGlobalProperties
  surroundings : Surroundings
  deriving DecidableEq

/-- The signature is the key that `signee` recovers from it. -/
structure Block where
  previous : BlockId
  digest : ℕ
  timestamp : ℕ
  siming : ℕ
  signee : Option ℕ

def Block.blockNum (b : Block) : ℕ := b.previous.num + 1

def Block.id (b : Block) : BlockId := ⟨b.blockNum, b.digest⟩

structure Skip where
  simingSignature : Bool := false
  simingScheduleCheck : Bool := false
  undoHistoryCheck : Bool := false

def Surroundings.getSiming (u : Surroundings) (owner : ℕ) : Option Siming :=
  u.simings.find? (·.owner = owner)

def Surroundings.modifySiming (u : Surroundings) (owner : ℕ) (f : Siming → Siming) : Surroundings :=
  { u with simings := u.simings.map fun x ↦ if x.owner = owner then f x else x }

def State.getScheduledSiming (s : State) (slot : ℕ) : Option ℕ :=
  s.surroundings.currentShuffledSimings[(s.dgp.currentAslot + slot) %
    s.surroundings.numScheduledSimings]?

def validateBlockHeader (skip : Skip) (s : State) (b : Block) : Except String Unit :=
  if s.dgp.headBlockId ≠ b.previous then .error "head_block_id() == next_block.previous"
  else if b.timestamp ≤ s.dgp.time then .error "head_block_time() < next_block.timestamp"
  else
    match s.surroundings.getSiming b.siming with
    | none => .error "unknown siming"
    | some siming =>
      if !skip.simingSignature && (b.signee.isNone || b.signee ≠ siming.signingKey) then
        .error "validate_signee"
      else if !skip.simingScheduleCheck && getSlotAtTime s.dgp.head b.timestamp = 0 then
        .error "slot_num > 0"
      else if !skip.simingScheduleCheck &&
          s.getScheduledSiming (getSlotAtTime s.dgp.head b.timestamp) ≠ some siming.owner then
        .error "Siming produced block at wrong time"
      else .ok ()

/-- One slot before the block counts as missed by the siming that it was scheduled for. -/
def missSlot (s : State) (producer : ℕ) (u : Surroundings) (i : ℕ) : Except String Surroundings :=
  match s.getScheduledSiming (i + 1) >>= u.getSiming with
  | none => .error "unknown siming"
  | some missed =>
    if missed.owner = producer then .ok u
    else .ok <| u.modifySiming missed.owner fun w ↦
      if taiyiBlocksPerDay < s.dgp.headBlockNumber - w.lastConfirmedBlockNum then
        { w with totalMissed := w.totalMissed + 1, signingKey := none }
      else { w with totalMissed := w.totalMissed + 1 }

/-- The body of the loop over the missed slots and the one of the block. -/
def DynamicGlobalProperties.recordSlot (dgp : DynamicGlobalProperties) (i : ℕ) :
    DynamicGlobalProperties :=
  { dgp with
    recentSlotsFilled := dgp.recentSlotsFilled <<< 1 + if i = 0 then 1 else 0
    participationCount := dgp.participationCount - (if dgp.recentSlotsFilled.msb then 1 else 0) +
      if i = 0 then 1 else 0 }

def DynamicGlobalProperties.recordBlock (dgp : DynamicGlobalProperties) (missedBlocks : ℕ)
    (b : Block) : DynamicGlobalProperties :=
  { (List.range (missedBlocks + 1)).foldl DynamicGlobalProperties.recordSlot dgp with
    headBlockNumber := b.blockNum
    headBlockId := b.id
    time := b.timestamp
    currentAslot := dgp.currentAslot + (missedBlocks + 1) }

def updateGlobalDynamicData (skip : Skip) (s : State) (b : Block) : Except String State :=
  let slot := getSlotAtTime s.dgp.head b.timestamp
  if s.dgp.time ≠ 0 ∧ slot = 0 then .error "missed_blocks != 0"
  else
    let missedBlocks := if s.dgp.time = 0 then 0 else slot - 1
    match (List.range missedBlocks).foldlM (missSlot s b.siming) s.surroundings with
    | .error e => .error e
    | .ok u =>
      if !skip.undoHistoryCheck &&
          taiyiMaxUndoHistory ≤ b.blockNum - u.lastIrreversibleBlockNum then
        .error "undo_database_exception"
      else .ok { dgp := s.dgp.recordBlock missedBlocks b, surroundings := u }

/-- The slot of a block has been added to `current_aslot` already. -/
def updateSigningSiming (s : State) (b : Block) : State :=
  { s with surroundings := s.surroundings.modifySiming b.siming fun w ↦
      { w with
        lastAslot := s.dgp.currentAslot + getSlotAtTime s.dgp.head b.timestamp
        lastConfirmedBlockNum := b.blockNum } }

/-- `_apply_block`, whose transactions leave the surroundings `u`. -/
def applyBlock (skip : Skip) (s : State) (b : Block) (u : Surroundings) : Except String State :=
  match validateBlockHeader skip s b with
  | .error e => .error e
  | .ok _ =>
    match updateGlobalDynamicData skip { s with surroundings := u } b with
    | .error e => .error e
    | .ok t => .ok (updateSigningSiming t b)

/-- The states of a chain of blocks, the newest first. The rest of the database may write the
surroundings at any time. -/
inductive Reaches : State → List Block → Prop
  | genesis (u : Surroundings) : Reaches ⟨.genesis, u⟩ []
  | block {s t : State} {blocks : List Block} {skip : Skip} {b : Block} {u : Surroundings} :
      Reaches s blocks → applyBlock skip s b u = .ok t → Reaches t (b :: blocks)
  | surroundings {s : State} {blocks : List Block} (u : Surroundings) :
      Reaches s blocks → Reaches { s with surroundings := u } blocks

/-- The slot that a time lies in; the genesis is in slot 0. -/
def slotOf (t : ℕ) : ℤ := ((t : ℤ) - taiyiGenesisTime) / taiyiBlockInterval

def Produced (blocks : List Block) (slot : ℤ) : Prop := ∃ b ∈ blocks, slotOf b.timestamp = slot

/-- The bitmap begins as if every slot up to the genesis had its block. -/
def Filled (blocks : List Block) (slot : ℤ) : Prop := slot ≤ 0 ∨ Produced blocks slot

instance (blocks : List Block) : DecidablePred (Produced blocks) := fun slot ↦
  inferInstanceAs (Decidable (∃ b ∈ blocks, slotOf b.timestamp = slot))

instance (blocks : List Block) : DecidablePred (Filled blocks) := fun slot ↦
  inferInstanceAs (Decidable (slot ≤ 0 ∨ Produced blocks slot))

section Slots

variable {dgp : DynamicGlobalProperties} {t : ℕ}

/-- The slot after the head is the next one, also before the first block. -/
structure Aligned (dgp : DynamicGlobalProperties) : Prop where
  le : taiyiGenesisTime ≤ dgp.time
  first : dgp.headBlockNumber = 0 → dgp.time = taiyiGenesisTime
  aslot : (dgp.currentAslot : ℤ) = slotOf dgp.time

theorem Aligned.getSlotTime_one (h : Aligned dgp) :
    getSlotTime dgp.head 1 = dgp.time / taiyiBlockInterval * taiyiBlockInterval + taiyiBlockInterval := by
  rw [getSlotTime, if_neg Nat.one_ne_zero, Nat.one_mul]
  split
  · next hzero =>
    -- the genesis time is a whole number of intervals
    have hgenesis : dgp.time = taiyiGenesisTime := h.first hzero
    rw [DynamicGlobalProperties.head, hgenesis]
    rfl
  · rfl

theorem Aligned.getSlotAtTime (h : Aligned dgp) (ht : dgp.time < t) :
    (dgp.currentAslot : ℤ) + getSlotAtTime dgp.head t = slotOf t := by
  have hle := h.le
  have hslot : Producer.getSlotAtTime dgp.head t =
      t / taiyiBlockInterval - dgp.time / taiyiBlockInterval := by
    rw [Producer.getSlotAtTime, h.getSlotTime_one]
    split <;> simp only [taiyiBlockInterval] at * <;> omega
  rw [h.aslot, hslot, slotOf, slotOf]
  simp only [taiyiBlockInterval, taiyiGenesisTime] at *
  omega

end Slots

section Record

variable {dgp : DynamicGlobalProperties} {blocks : List Block} {b : Block} {s t : State}

theorem recordSlot_bits (dgp : DynamicGlobalProperties) (i : ℕ) :
    (dgp.recordSlot i).recentSlotsFilled = dgp.recentSlotsFilled.shiftConcat (decide (i = 0)) := by
  rw [← shiftLeft_add, DynamicGlobalProperties.recordSlot]
  by_cases h : i = 0 <;> simp [h]

/-- The counter of the ones, which never leaves its 8 bits. -/
def Counted (dgp : DynamicGlobalProperties) : Prop :=
  dgp.participationCount.toNat = dgp.recentSlotsFilled.cpop.toNat

theorem Counted.recordSlot (h : Counted dgp) (i : ℕ) : Counted (dgp.recordSlot i) := by
  have hsum := toNat_cpop_shiftConcat dgp.recentSlotsFilled (decide (i = 0))
  have hle := BitVec.toNat_cpop_le (dgp.recentSlotsFilled.shiftConcat (decide (i = 0)))
  have hle' := BitVec.toNat_cpop_le dgp.recentSlotsFilled
  rw [Counted] at h
  rw [Counted, recordSlot_bits, DynamicGlobalProperties.recordSlot, UInt8.toNat_add,
    UInt8.toNat_sub]
  by_cases hmsb : dgp.recentSlotsFilled.msb = true <;> by_cases hi : i = 0 <;>
    simp [hmsb, hi] at hsum hle ⊢ <;> omega

/-- After the loop the slots from that of the head to the last missed one are recorded. -/
theorem recordSlots (hcount : Counted dgp) {P : ℤ → Prop} {top : ℤ}
    (hshows : Shows P (top - 1) dgp.recentSlotsFilled) (htop : P top) (missed : ℕ)
    (hmissed : ∀ i : ℕ, 1 ≤ i → i ≤ missed → ¬P (top + i)) :
    Counted ((List.range (missed + 1)).foldl DynamicGlobalProperties.recordSlot dgp) ∧
      Shows P (top + missed)
        ((List.range (missed + 1)).foldl DynamicGlobalProperties.recordSlot dgp).recentSlotsFilled := by
  induction missed with
  | zero =>
    refine ⟨hcount.recordSlot 0, ?_⟩
    have hstep := hshows.shiftConcat (b := true) (by simpa using htop)
    rw [sub_add_cancel] at hstep
    simpa [recordSlot_bits] using hstep
  | succ missed ih =>
    obtain ⟨hc, hs⟩ := ih fun i hi hle ↦ hmissed i hi (hle.trans missed.le_succ)
    rw [List.range_succ, List.foldl_append, List.foldl_cons, List.foldl_nil]
    refine ⟨hc.recordSlot _, ?_⟩
    have hnot := hmissed (missed + 1) (Nat.le_add_left _ _) le_rfl
    rw [Nat.cast_add_one, ← add_assoc] at hnot ⊢
    rw [recordSlot_bits]
    exact hs.shiftConcat (by simpa using hnot)

theorem validateBlockHeader_time {skip : Skip} (h : validateBlockHeader skip s b = .ok ()) :
    s.dgp.time < b.timestamp := by
  unfold validateBlockHeader at h
  split at h
  · cases h
  · split at h
    · cases h
    · next hle => exact Nat.lt_of_not_le hle

theorem applyBlock_ok {skip : Skip} {u : Surroundings} (h : applyBlock skip s b u = .ok t)
    (htime : s.dgp.time ≠ 0) :
    s.dgp.time < b.timestamp ∧ ∃ missed, getSlotAtTime s.dgp.head b.timestamp = missed + 1 ∧
      t.dgp = s.dgp.recordBlock missed b := by
  unfold applyBlock at h
  cases hvalid : validateBlockHeader skip s b with
  | error e => simp [hvalid] at h
  | ok _ =>
    simp only [hvalid, updateGlobalDynamicData] at h
    by_cases hslot : getSlotAtTime s.dgp.head b.timestamp = 0
    · simp [hslot, htime] at h
    · obtain ⟨missed, hmissed⟩ := Nat.exists_eq_succ_of_ne_zero hslot
      refine ⟨validateBlockHeader_time hvalid, missed, hmissed, ?_⟩
      simp only [hmissed, htime, ne_eq, Nat.succ_ne_zero, and_false, if_false,
        Nat.succ_sub_one] at h
      split at h
      · cases h
      · next hglobal =>
        split at hglobal
        · cases hglobal
        · split at hglobal <;> cases hglobal
          cases h
          rfl

@[simp] theorem recordBlock_time {missed : ℕ} : (dgp.recordBlock missed b).time = b.timestamp := rfl

@[simp] theorem recordBlock_currentAslot {missed : ℕ} :
    (dgp.recordBlock missed b).currentAslot = dgp.currentAslot + (missed + 1) := rfl

/-- What holds of the head after any chain of blocks. -/
structure Recorded (dgp : DynamicGlobalProperties) (blocks : List Block) : Prop where
  aligned : Aligned dgp
  counted : Counted dgp
  shows_bits : Shows (Filled blocks) (slotOf dgp.time - 1) dgp.recentSlotsFilled
  head : Filled blocks (slotOf dgp.time)
  newest : ∀ slot, Produced blocks slot → slot ≤ slotOf dgp.time

theorem Aligned.slotOf_nonneg (h : Aligned dgp) : 0 ≤ slotOf dgp.time :=
  h.aslot ▸ Int.natCast_nonneg _

theorem produced_cons {slot : ℤ} :
    Produced (b :: blocks) slot ↔ slotOf b.timestamp = slot ∨ Produced blocks slot := by
  simp only [Produced, List.mem_cons, exists_eq_or_imp]

theorem Recorded.genesis : Recorded .genesis [] where
  aligned := ⟨le_rfl, fun _ ↦ rfl, by decide⟩
  counted := by
    rw [Counted, DynamicGlobalProperties.genesis, BitVec.cpop_allOnes]
    rfl
  shows_bits i hi := by
    have hslot : slotOf DynamicGlobalProperties.genesis.time = 0 := by decide
    simp only [DynamicGlobalProperties.genesis, BitVec.getLsbD_allOnes, hi, decide_true,
      true_iff] at hslot ⊢
    exact .inl (by omega)
  head := .inl (by decide)
  newest slot h := by
    obtain ⟨b, hb, -⟩ := h
    cases hb

theorem Recorded.recordBlock (h : Recorded dgp blocks) (hlt : dgp.time < b.timestamp) {missed : ℕ}
    (hslot : getSlotAtTime dgp.head b.timestamp = missed + 1) :
    Recorded (dgp.recordBlock missed b) (b :: blocks) := by
  have hnext : slotOf b.timestamp = slotOf dgp.time + missed + 1 := by
    have := h.aligned.getSlotAtTime hlt
    rw [h.aligned.aslot, hslot] at this
    omega
  have hnonneg := h.aligned.slotOf_nonneg
  have hmissed (i : ℕ) (hi : 1 ≤ i) (_ : i ≤ missed) : ¬Filled blocks (slotOf dgp.time + i) := by
    rintro (hle | hp)
    · omega
    · have := h.newest _ hp
      omega
  obtain ⟨hcount, hshows⟩ := recordSlots h.counted h.shows_bits h.head missed hmissed
  refine ⟨⟨h.aligned.le.trans hlt.le, nofun, ?_⟩, hcount, ?_, ?_, ?_⟩
  · rw [recordBlock_currentAslot, recordBlock_time, hnext, Nat.cast_add, h.aligned.aslot]
    omega
  · -- the new block lies above every slot that the bitmap shows
    rw [recordBlock_time, hnext, add_sub_cancel_right]
    refine hshows.congr fun p hp ↦ ?_
    have hne : slotOf b.timestamp ≠ p := by omega
    rw [Filled, Filled, produced_cons, or_iff_right hne]
  · exact .inr (produced_cons.mpr (.inl rfl))
  · intro slot hp
    rw [recordBlock_time]
    rcases produced_cons.mp hp with rfl | hp
    · exact le_rfl
    · have := h.newest slot hp
      omega

theorem Recorded.of_reaches (h : Reaches s blocks) : Recorded s.dgp blocks := by
  induction h with
  | genesis u => exact .genesis
  | block _ happly ih =>
    have htime := ih.aligned.le
    obtain ⟨hlt, missed, hslot, hdgp⟩ := applyBlock_ok happly (by simp only [taiyiGenesisTime] at htime; omega)
    rw [hdgp]
    exact ih.recordBlock hlt hslot
  | surroundings u _ ih => exact ih

end Record

/-- The number of slots with `P` among the 128 that end with `top`. -/
noncomputable def countSlots (P : ℤ → Prop) [DecidablePred P] (top : ℤ) : ℕ :=
  ((Finset.Ioc (top - 128) top).filter P).card

/-- Two windows that differ by one place count the same if their ends do. -/
theorem countSlots_pred_eq_iff {P : ℤ → Prop} [DecidablePred P] {top : ℤ} (htop : P top) :
    countSlots P (top - 1) = countSlots P top ↔ P (top - 128) := by
  have hlow : Finset.Ioc (top - 1 - 128) (top - 1) =
      insert (top - 128) (Finset.Ioc (top - 128) (top - 1)) := by
    ext p
    simp only [Finset.mem_insert, Finset.mem_Ioc]
    omega
  have hhigh : Finset.Ioc (top - 128) top = insert top (Finset.Ioc (top - 128) (top - 1)) := by
    ext p
    simp only [Finset.mem_insert, Finset.mem_Ioc]
    omega
  rw [countSlots, countSlots, hlow, hhigh, Finset.filter_insert, Finset.filter_insert,
    if_pos htop, Finset.card_insert_of_notMem (by simp)]
  split
  · next h => simp [h]
  · next h => simp [h]

/-- The counter, the bitmap, and the filled slots before the one of the head agree. The slot of
the head takes the place of the oldest one without a change unless that one was missed. -/
theorem participation {s : State} {blocks : List Block} (h : Reaches s blocks) :
    s.dgp.participationCount.toNat = s.dgp.recentSlotsFilled.cpop.toNat ∧
      s.dgp.participationCount.toNat = countSlots (Filled blocks) (slotOf s.dgp.time - 1) ∧
      (s.dgp.participationCount.toNat = countSlots (Filled blocks) (slotOf s.dgp.time) ↔
        Filled blocks (slotOf s.dgp.time - 128)) ∧
      (s.dgp.currentAslot : ℤ) = slotOf s.dgp.time := by
  have hr := Recorded.of_reaches h
  have hcount : s.dgp.participationCount.toNat = countSlots (Filled blocks) (slotOf s.dgp.time - 1) :=
    hr.counted.trans hr.shows_bits.toNat_cpop
  refine ⟨hr.counted, hcount, ?_, hr.aligned.aslot⟩
  rw [hcount]
  exact countSlots_pred_eq_iff hr.head

def aloneSurroundings : Surroundings where
  simings := [{ owner := 0, signingKey := some 7 }]
  currentShuffledSimings := [0]
  numScheduledSimings := 1

/-- A block whose siming missed the 199 slots before. -/
def lateBlock : Block where
  previous := {}
  digest := 1
  timestamp := taiyiGenesisTime + 600
  siming := 0
  signee := some 7

def lateState : State where
  dgp :=
    { headBlockNumber := 1
      headBlockId := ⟨1, 1⟩
      time := taiyiGenesisTime + 600
      currentAslot := 200
      recentSlotsFilled := 0
      participationCount := 0 }
  surroundings :=
    { aloneSurroundings with
      simings := [{ owner := 0, signingKey := some 7, lastAslot := 200, lastConfirmedBlockNum := 1 }] }

theorem applyBlock_late :
    applyBlock {} ⟨.genesis, aloneSurroundings⟩ lateBlock aloneSurroundings = .ok lateState := by
  decide +kernel

theorem participation_late :
    (lateState.dgp.participationCount.toNat = lateState.dgp.recentSlotsFilled.cpop.toNat ∧
      lateState.dgp.participationCount.toNat =
        countSlots (Filled [lateBlock]) (slotOf lateState.dgp.time - 1) ∧
      (lateState.dgp.participationCount.toNat =
          countSlots (Filled [lateBlock]) (slotOf lateState.dgp.time) ↔
        Filled [lateBlock] (slotOf lateState.dgp.time - 128)) ∧
      (lateState.dgp.currentAslot : ℤ) = slotOf lateState.dgp.time) :=
  participation (.block (.genesis aloneSurroundings) applyBlock_late)

/-- The slot of the head is the only one of the last 128 with a block, and is not counted. -/
theorem late_block_uncounted :
    ¬∀ s blocks, Reaches s blocks →
      s.dgp.participationCount.toNat = s.dgp.recentSlotsFilled.cpop.toNat ∧
        s.dgp.participationCount.toNat = countSlots (Produced blocks) (slotOf s.dgp.time) ∧
        (s.dgp.currentAslot : ℤ) = slotOf s.dgp.time := by
  intro h
  obtain ⟨-, hcount, -⟩ := h _ _ (.block (.genesis aloneSurroundings) applyBlock_late)
  have hmem : slotOf lateState.dgp.time ∈
      (Finset.Ioc (slotOf lateState.dgp.time - 128) (slotOf lateState.dgp.time)).filter
        (Produced [lateBlock]) :=
    Finset.mem_filter.mpr ⟨by simp, lateBlock, List.mem_singleton_self _, rfl⟩
  exact Finset.card_ne_zero_of_mem hmem hcount.symm

end Taiyi.Producer.Participation
