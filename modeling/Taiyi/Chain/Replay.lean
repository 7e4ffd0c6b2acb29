import Mathlib.Data.List.Induction
import Mathlib.Tactic.Common
import Taiyi.Chain.Node

set_option autoImplicit false

namespace Taiyi.Chain

variable {Block Id Rest : Type} [BlockId Id] [BlockHeader Block Id] [DecidableEq Id]
  [Evaluation Block Id Rest]

namespace ChainState

theorem apply_eq_some {c c' : ChainState Id Rest} {b : Block} (h : c.apply b = some c') :
    previous b = c.headId ∧ c'.headId = id b := by
  unfold apply at h
  split at h
  · next hp =>
    obtain ⟨r, -, rfl⟩ := Option.map_eq_some_iff.mp h
    exact ⟨hp, rfl⟩
  · cases h

theorem headNum_apply {c c' : ChainState Id Rest} {b : Block} (h : c.apply b = some c') :
    c'.headNum = c.headNum + 1 := by
  obtain ⟨hp, hi⟩ := apply_eq_some h
  rw [headNum, headNum, hi, BlockHeader.num_id, hp]

/-- The content after the blocks in order, when every one applies. -/
def replay (c : ChainState Id Rest) (blocks : List Block) : Option (ChainState Id Rest) :=
  blocks.foldlM apply c

theorem replay_nil (c : ChainState Id Rest) : c.replay ([] : List Block) = some c := rfl

theorem replay_cons (c : ChainState Id Rest) (b : Block) (blocks : List Block) :
    c.replay (b :: blocks) = (c.apply b).bind fun c' ↦ c'.replay blocks := rfl

theorem replay_append (c : ChainState Id Rest) (bs bs' : List Block) :
    c.replay (bs ++ bs') = (c.replay bs).bind fun c' ↦ c'.replay bs' := by
  simp only [replay, List.foldlM_append]
  rfl

theorem replay_concat (c : ChainState Id Rest) (bs : List Block) (b : Block) :
    c.replay (bs ++ [b]) = (c.replay bs).bind fun c' ↦ c'.apply b := by
  rw [replay_append]
  congr 1
  funext c'
  rw [replay_cons]
  cases c'.apply b <;> rfl

theorem replay_stuck {c c' : ChainState Id Rest} {good rest : List Block} {bad : Block}
    (h : c.replay good = some c') (hb : c'.apply bad = none) :
    c.replay (good ++ bad :: rest) = none := by
  rw [replay_append, h, Option.bind_some, replay_cons, hb, Option.bind_none]

theorem headNum_replay {c c' : ChainState Id Rest} {bs : List Block}
    (h : c.replay bs = some c') : c'.headNum = c.headNum + bs.length := by
  induction bs generalizing c with
  | nil =>
    cases h
    rfl
  | cons b bs ih =>
    rw [replay_cons] at h
    obtain ⟨d, hd, h⟩ := Option.bind_eq_some_iff.mp h
    rw [ih h, headNum_apply hd, List.length_cons]
    omega

theorem lib_le_apply {c c' : ChainState Id Rest} {b : Block} (hl : c.lib ≤ c.headNum)
    (h : c.apply b = some c') : c'.lib ≤ c'.headNum := by
  have hn := headNum_apply h
  unfold apply at h
  split at h
  · obtain ⟨r, hr, rfl⟩ := Option.map_eq_some_iff.mp h
    have := Evaluation.lib_le c b r hl hr
    rw [hn]
    exact this
  · cases h

theorem lib_le_headNum {c c' : ChainState Id Rest} {bs : List Block} (hl : c.lib ≤ c.headNum)
    (h : c.replay bs = some c') : c'.lib ≤ c'.headNum := by
  induction bs generalizing c with
  | nil =>
    cases h
    exact hl
  | cons b bs ih =>
    rw [replay_cons] at h
    obtain ⟨d, hd, h⟩ := Option.bind_eq_some_iff.mp h
    exact ih (lib_le_apply hl hd) h

/-- Ids determine the way from a common origin: two replays with one head id are the same. -/
theorem replay_unique {c c₁ c₂ : ChainState Id Rest} {bs bs' : List Block}
    (h₁ : c.replay bs = some c₁) (h₂ : c.replay bs' = some c₂) (hi : c₁.headId = c₂.headId) :
    bs = bs' := by
  have hn : c₁.headNum = c₂.headNum := by rw [headNum, headNum, hi]
  have hlen : bs.length = bs'.length := by
    have := headNum_replay h₁
    have := headNum_replay h₂
    omega
  induction bs using List.reverseRecOn generalizing bs' c₁ c₂ with
  | nil => exact (List.length_eq_zero_iff.mp hlen.symm).symm
  | append_singleton bs b ih =>
    obtain ⟨bs', b', rfl⟩ : ∃ l b', bs' = l ++ [b'] := by
      rcases List.eq_nil_or_concat bs' with rfl | ⟨l, b', rfl⟩
      · simp at hlen
      · exact ⟨l, b', by simp⟩
    rw [replay_concat] at h₁ h₂
    obtain ⟨d₁, hd₁, h₁⟩ := Option.bind_eq_some_iff.mp h₁
    obtain ⟨d₂, hd₂, h₂⟩ := Option.bind_eq_some_iff.mp h₂
    obtain ⟨hp₁, hi₁⟩ := apply_eq_some h₁
    obtain ⟨hp₂, hi₂⟩ := apply_eq_some h₂
    obtain rfl : b = b' := BlockHeader.id_injective (by rw [← hi₁, ← hi₂, hi])
    have hd : d₁.headId = d₂.headId := by rw [← hp₁, ← hp₂]
    rw [ih hd₁ hd₂ hd (by rw [headNum, headNum, hd]) (by simpa using hlen)]

theorem replay_state_unique {c c₁ c₂ : ChainState Id Rest} {bs bs' : List Block}
    (h₁ : c.replay bs = some c₁) (h₂ : c.replay bs' = some c₂) (hi : c₁.headId = c₂.headId) :
    c₁ = c₂ := by
  rw [replay_unique h₁ h₂ hi, h₂] at h₁
  exact (Option.some.inj h₁).symm

/-- The block is the base or the last of blocks that apply one after the other from it. -/
def Valid (base : ChainState Id Rest) (b : Block) : Prop :=
  ∃ (bs : List Block) (c : ChainState Id Rest), base.replay bs = some c ∧ c.headId = id b

theorem Valid.le_num {base : ChainState Id Rest} {b : Block} (h : base.Valid b) :
    base.headNum ≤ num (id b) := by
  obtain ⟨bs, c, hc, hi⟩ := h
  have := headNum_replay hc
  rw [headNum, hi] at this
  omega

theorem Valid.previous {base : ChainState Id Rest} {b b' : Block} (h : base.Valid b')
    (hp : previous b' = id b) (hle : base.headNum ≤ num (id b)) : base.Valid b := by
  obtain ⟨bs, c, hc, hi⟩ := h
  rcases List.eq_nil_or_concat bs with rfl | ⟨bs, l, rfl⟩
  · rw [replay_nil] at hc
    cases hc
    rw [headNum, hi, BlockHeader.num_id, hp] at hle
    omega
  · rw [List.concat_eq_append, replay_concat] at hc
    obtain ⟨d, hd, hc⟩ := Option.bind_eq_some_iff.mp hc
    obtain ⟨hp', hi'⟩ := apply_eq_some hc
    obtain rfl : l = b' := BlockHeader.id_injective (by rw [← hi, hi'])
    exact ⟨bs, d, hd, by rw [← hp', hp]⟩

/-- A block that fails on the content of its parent is not valid. -/
theorem not_valid_of_apply {base c : ChainState Id Rest} {bs : List Block} {b : Block}
    (hc : base.replay bs = some c) (hp : BlockHeader.previous b = c.headId)
    (h : c.apply b = none) : ¬ base.Valid b := by
  rintro ⟨bs', d, hd, hi⟩
  rcases List.eq_nil_or_concat bs' with rfl | ⟨bs', l, rfl⟩
  · rw [replay_nil] at hd
    cases hd
    have h₁ := headNum_replay hc
    have h₂ := BlockHeader.num_id b
    rw [hp, ← hi] at h₂
    simp only [headNum] at h₁ h₂
    omega
  · rw [List.concat_eq_append, replay_concat] at hd
    obtain ⟨e, he, hd⟩ := Option.bind_eq_some_iff.mp hd
    obtain ⟨hp', hi'⟩ := apply_eq_some hd
    obtain rfl : l = b := BlockHeader.id_injective (by rw [← hi, hi'])
    obtain rfl := replay_state_unique hc he (by rw [← hp, ← hp'])
    rw [h] at hd
    cases hd

end ChainState

end Taiyi.Chain
