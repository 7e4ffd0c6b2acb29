import Taiyi.Producer.Apply

set_option autoImplicit false

namespace Taiyi.Producer.Slots

open Transactions

/-- A value of `uint32_t`, as the seconds of a `time_point_sec` are one. -/
def toUint32 (n : ℕ) : ℕ := n % 2 ^ 32

/-- `get_slot_time` on 32 bits: the seconds after `head` and their sum wrap around. -/
def getSlotTime (head : Head) (slot : ℕ) : ℕ :=
  if slot = 0 then 0
  else
    let interval := taiyiBlockInterval
    if head.blockNumber = 0 then toUint32 (head.time + toUint32 (slot * interval))
    else
      let headBlockAbsSlot := head.time / interval
      let headSlotTime := toUint32 (headBlockAbsSlot * interval)
      toUint32 (headSlotTime + toUint32 (slot * interval))

/-- `get_slot_at_time`. The difference of two times is a signed number of microseconds. -/
def getSlotAtTime (head : Head) (t : ℕ) : ℕ :=
  let firstSlotTime := getSlotTime head 1
  if t < firstSlotTime then 0
  else toUint32 ((t - firstSlotTime) * 1000000 / 1000000 / taiyiBlockInterval + 1)

/-- The time that the slots are counted from: the genesis, or the slot of the head block. -/
def base (head : Head) : ℕ :=
  if head.blockNumber = 0 then head.time else head.time / taiyiBlockInterval * taiyiBlockInterval

/-- The slot has a time that a `time_point_sec` can hold. -/
def Representable (head : Head) (slot : ℕ) : Prop :=
  base head + slot * taiyiBlockInterval < 2 ^ 32

section Slots

variable {head : Head} {j k t : ℕ}

theorem Representable.mono (h : Representable head k) (hj : j ≤ k) : Representable head j :=
  (Nat.add_le_add_left (Nat.mul_le_mul_right _ hj) _).trans_lt h

/-- A slot with a time has the time at its distance from the base. -/
theorem getSlotTime_eq (hk : k ≠ 0) (h : Representable head k) :
    getSlotTime head k = base head + k * taiyiBlockInterval := by
  have hsum : base head + k * taiyiBlockInterval < 2 ^ 32 := h
  have hslots : toUint32 (k * taiyiBlockInterval) = k * taiyiBlockInterval := Nat.mod_eq_of_lt (by omega)
  unfold getSlotTime
  rw [if_neg hk]
  simp only [hslots]
  by_cases hzero : head.blockNumber = 0
  · have hbase : base head = head.time := if_pos hzero
    rw [if_pos hzero, ← hbase]
    exact Nat.mod_eq_of_lt h
  · have hbase : base head = head.time / taiyiBlockInterval * taiyiBlockInterval := if_neg hzero
    have hhead : toUint32 (base head) = base head := Nat.mod_eq_of_lt (by omega)
    rw [if_neg hzero, ← hbase, hhead]
    exact Nat.mod_eq_of_lt h

/-- The slots of unbounded times are those that the block production reads. -/
theorem getSlotTime_refines (h : Representable head k) :
    getSlotTime head k = Producer.getSlotTime head k := by
  by_cases hk : k = 0
  · rw [hk]
    rfl
  · rw [getSlotTime_eq hk h, Producer.getSlotTime, if_neg hk, base]
    split <;> rfl

theorem getSlotTime_lt (hjk : j < k) (h : Representable head k) :
    getSlotTime head j < getSlotTime head k := by
  rw [getSlotTime_eq (Nat.ne_zero_of_lt hjk) h]
  by_cases hj : j = 0
  · rw [hj]
    change 0 < base head + k * 3
    omega
  · rw [getSlotTime_eq hj (h.mono hjk.le)]
    simp only [taiyiBlockInterval]
    omega

theorem getSlotTime_succ (hk : k ≠ 0) (h : Representable head (k + 1)) :
    getSlotTime head (k + 1) = getSlotTime head k + taiyiBlockInterval := by
  rw [getSlotTime_eq (Nat.succ_ne_zero k) h, getSlotTime_eq hk (h.mono (Nat.le_succ k)), Nat.succ_mul,
    Nat.add_assoc]

/-- Once there is a block, all slots are on the interval. -/
theorem dvd_getSlotTime (hhead : head.blockNumber ≠ 0) (h : Representable head k) :
    taiyiBlockInterval ∣ getSlotTime head k := by
  by_cases hk : k = 0
  · rw [hk]
    exact Nat.dvd_zero _
  · have hbase : base head = head.time / taiyiBlockInterval * taiyiBlockInterval := if_neg hhead
    rw [getSlotTime_eq hk h, hbase, ← Nat.add_mul]
    exact Nat.dvd_mul_left _ _

theorem getSlotAtTime_of_lt (h : t < getSlotTime head 1) : getSlotAtTime head t = 0 := if_pos h

theorem getSlotAtTime_of_le (ht : t < 2 ^ 32) (h : getSlotTime head 1 ≤ t) :
    getSlotAtTime head t = (t - getSlotTime head 1) / taiyiBlockInterval + 1 := by
  unfold getSlotAtTime
  simp only
  rw [if_neg (Nat.not_lt_of_le h), Nat.mul_div_cancel _ (by decide)]
  refine Nat.mod_eq_of_lt ?_
  change (t - getSlotTime head 1) / 3 + 1 < 2 ^ 32
  omega

/-- No time before the first slot has a slot, and every later one does. -/
theorem getSlotAtTime_eq_zero_iff (ht : t < 2 ^ 32) :
    getSlotAtTime head t = 0 ↔ t < getSlotTime head 1 := by
  refine ⟨fun h ↦ ?_, getSlotAtTime_of_lt⟩
  by_contra hge
  rw [getSlotAtTime_of_le ht (Nat.le_of_not_lt hge)] at h
  cases h

/-- The two functions are adjoint: a slot is due at a time when the slot of that time has
reached it. -/
theorem le_getSlotAtTime_iff (ht : t < 2 ^ 32) (hk : k ≠ 0) (h : Representable head k) :
    k ≤ getSlotAtTime head t ↔ getSlotTime head k ≤ t := by
  have hone : Representable head 1 := h.mono (Nat.pos_of_ne_zero hk)
  have hfirst := getSlotTime_eq Nat.one_ne_zero hone
  rw [getSlotTime_eq hk h]
  by_cases hlt : t < getSlotTime head 1
  · rw [getSlotAtTime_of_lt hlt]
    simp only [taiyiBlockInterval] at hfirst ⊢
    omega
  · rw [getSlotAtTime_of_le ht (Nat.le_of_not_lt hlt), hfirst]
    simp only [taiyiBlockInterval] at hfirst ⊢
    omega

/-- The slot of a time is one with a time. -/
theorem representable_getSlotAtTime (ht : t < 2 ^ 32) (hone : Representable head 1)
    (h : getSlotTime head 1 ≤ t) : Representable head (getSlotAtTime head t) := by
  have hfirst := getSlotTime_eq Nat.one_ne_zero hone
  rw [getSlotAtTime_of_le ht h, Representable]
  simp only [taiyiBlockInterval] at hfirst ⊢
  omega

end Slots

/-- For the slots that have a time: they follow each other at the interval, on its multiples once
there is a block, and the slot at a time is the last one that is due. -/
theorem slots (head : Head) :
    (∀ j k, j < k → Representable head k → getSlotTime head j < getSlotTime head k) ∧
    (∀ k, k ≠ 0 → Representable head (k + 1) →
      getSlotTime head (k + 1) = getSlotTime head k + taiyiBlockInterval) ∧
    (head.blockNumber ≠ 0 → ∀ k, Representable head k → taiyiBlockInterval ∣ getSlotTime head k) ∧
    (∀ k, k ≠ 0 → Representable head k → getSlotAtTime head (getSlotTime head k) = k) ∧
    ∀ t < 2 ^ 32, (getSlotAtTime head t = 0 ↔ t < getSlotTime head 1) ∧
      (Representable head 1 → getSlotTime head 1 ≤ t →
        Representable head (getSlotAtTime head t) ∧ getSlotTime head (getSlotAtTime head t) ≤ t ∧
        ∀ k, Representable head k → getSlotTime head k ≤ t → k ≤ getSlotAtTime head t) := by
  refine ⟨fun j k ↦ getSlotTime_lt, fun k ↦ getSlotTime_succ, fun h k ↦ dvd_getSlotTime h, ?_, ?_⟩
  · intro k hk h
    have ht : getSlotTime head k < 2 ^ 32 := by
      rw [getSlotTime_eq hk h]
      exact h
    have hge : k ≤ getSlotAtTime head (getSlotTime head k) :=
      (le_getSlotAtTime_iff ht hk h).mpr (Nat.le_refl _)
    have hfirst : getSlotTime head 1 ≤ getSlotTime head k := by
      rcases (Nat.one_le_iff_ne_zero.mpr hk).eq_or_lt with h1 | h1
      · rw [← h1]
      · exact (getSlotTime_lt h1 h).le
    have hrep := representable_getSlotAtTime ht (h.mono (Nat.one_le_iff_ne_zero.mpr hk)) hfirst
    rcases hge.eq_or_lt with heq | hlt
    · exact heq.symm
    · have hdue := (le_getSlotAtTime_iff ht (Nat.ne_zero_of_lt hlt) hrep).mp (Nat.le_refl _)
      exact absurd (getSlotTime_lt hlt hrep) (Nat.not_lt_of_le hdue)
  · intro t ht
    refine ⟨getSlotAtTime_eq_zero_iff ht, fun hone hge ↦ ?_⟩
    have hrep := representable_getSlotAtTime ht hone hge
    have hne : getSlotAtTime head t ≠ 0 := fun h0 ↦
      absurd ((getSlotAtTime_eq_zero_iff ht).mp h0) (Nat.not_lt_of_le hge)
    refine ⟨hrep, (le_getSlotAtTime_iff ht hne hrep).mp (Nat.le_refl _), fun k hk hdue ↦ ?_⟩
    by_cases hzero : k = 0
    · exact hzero ▸ Nat.zero_le _
    · exact (le_getSlotAtTime_iff ht hzero hk).mpr hdue

/-- The distance of the last slot number wraps around, to three seconds before the base. -/
theorem getSlotTime_wraps : ¬∀ (head : Head) (j k : ℕ), j < k → k < 2 ^ 32 →
    getSlotTime head j < getSlotTime head k := by
  intro h
  exact absurd (h ⟨1, 6⟩ 1 (2 ^ 32 - 1) (by decide) (by decide)) (by decide)

end Taiyi.Producer.Slots
