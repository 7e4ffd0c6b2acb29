import Taiyi.Chain.Deliver

set_option autoImplicit false

namespace Taiyi.Chain

open ForkDatabase Node

section General

variable {Block Id Rest : Type} [BlockId Id] [BlockHeader Block Id] [DecidableEq Id]
  [Evaluation Block Id Rest]

/-- The outcome of a push that makes another branch the longest: either the head is the new
block and the content is that of its branch, or the call throws with the content as before it
and without the first block of the branch that does not apply and its successors. -/
def AllOrNothing (base : ChainState Id Rest) (s : Node Block Id Rest) (b : Block) :
    EStateM.Result String (Node Block Id Rest) Bool → Prop
  | .ok _ s' => ∃ bs : List Block, base.replay (bs ++ [b]) = some s'.chain
  | .error _ s' => s'.chain = s.chain ∧ ∃ (good : List Block) (bad : Block) (rest : List Block)
      (c : ChainState Id Rest), base.replay good = some c ∧ previous bad = c.headId ∧
        c.apply bad = none ∧ (bad :: rest).IsChain (fun x y ↦ previous y = id x) ∧
        b ∈ (bad :: rest).getLast? ∧ ∀ x ∈ bad :: rest, s'.fork.fetchBlock (id x) = none

variable {base : ChainState Id Rest} {s : Node Block Id Rest} {hd : ForkItem Block} {b : Block}

theorem Switched.allOrNothing {s₁ : Node Block Id Rest} {newHead : ForkItem Block}
    (hc₁ : s₁.chain = s.chain) (hb : newHead.block = b)
    {r : EStateM.Result String (Node Block Id Rest) Bool} (h : Switched base s₁ hd newHead r) :
    AllOrNothing base s b r := by
  cases h with
  | @adopted s' c bs branch hc hn ha =>
    obtain ⟨f, hf⟩ := List.getLast?_eq_some_iff.mp hn
    refine ⟨bs ++ f, ?_⟩
    rw [List.append_assoc, ← hb, ← hf, ChainState.replay_append, hc, Option.bind_some, ha.chain]
  | @restored e s' c d bs old good rest bad hc hg hp hbad hn hch hv hr =>
    refine ⟨hr.chain.trans hc₁, bs ++ good.map ForkItem.block, bad.block,
      rest.map ForkItem.block, d, ?_, hp, hbad, hch, ?_, fun x hx ↦ ?_⟩
    · rw [ChainState.replay_append, hc, Option.bind_some, hg]
    · rw [← List.map_cons, List.getLast?_map, Option.mem_def.mp hn, ← hb]
      rfl
    · rw [← List.map_cons] at hx
      obtain ⟨y, hy, rfl⟩ := List.mem_map.mp hx
      rw [fetchBlock, List.find?_eq_none]
      intro it hit he
      have hid : y.id = it.id := (of_decide_eq_true he).symm
      exact (hr.subset it hit).2 (List.mem_map.mpr ⟨y, hy, hid⟩)

end General

section Tagged

/-- An id for worked cases: the tags of the block and of those below it. -/
structure TagPath where
  tags : List ℕ
  deriving DecidableEq

structure TaggedBlock where
  tag : ℕ
  parent : TagPath
  deriving DecidableEq

instance : BlockId TagPath := ⟨fun p ↦ p.tags.length, ⟨[]⟩, rfl⟩

instance : BlockHeader TaggedBlock TagPath where
  id b := ⟨b.tag :: b.parent.tags⟩
  previous b := b.parent
  num_id _ := rfl
  id_injective := by
    rintro ⟨t, ⟨p⟩⟩ ⟨t', ⟨p'⟩⟩ h
    simpa using h

/-- Every block applies but those with tag 0. -/
instance : Evaluation TaggedBlock TagPath Unit where
  evaluate c b := if b.tag = 0 then none else some (c.lib, ())
  lib_le c b r hl h := by
    split at h
    · cases h
    · cases h
      exact Nat.le_succ_of_le hl

/-- The block with the given tag on the block with the given path. -/
def tagged (tag : ℕ) (below : List ℕ) : TaggedBlock := ⟨tag, ⟨below⟩⟩

def tagGenesis : ChainState TagPath Unit := ⟨⟨[]⟩, 0, ()⟩

/-- A chain of three blocks beside an invalid block `0` on the first one. Of what was built on
that block only `2` is left, after the switch to the longer branch over it failed. -/
def orphaned : Node TaggedBlock TagPath Unit where
  fork :=
    { index := [⟨⟨0, tagged 1 []⟩, []⟩, ⟨⟨1, tagged 1 [1]⟩, [⟨0, tagged 1 []⟩]⟩,
        ⟨⟨2, tagged 1 [1, 1]⟩, [⟨1, tagged 1 [1]⟩, ⟨0, tagged 1 []⟩]⟩,
        ⟨⟨5, tagged 2 [0, 1]⟩, [⟨3, tagged 0 [1]⟩, ⟨0, tagged 1 []⟩]⟩]
      head := some ⟨⟨2, tagged 1 [1, 1]⟩, [⟨1, tagged 1 [1]⟩, ⟨0, tagged 1 []⟩]⟩
      maxSize := 4
      nextRef := 7 }
  chain := ⟨⟨[1, 1, 1]⟩, 0, ()⟩
  undo := [(3, ⟨⟨[1, 1]⟩, 0, ()⟩), (2, ⟨⟨[1]⟩, 0, ()⟩), (1, tagGenesis)]
  log := []

/-- Two branches of two blocks each. -/
def forked : Node TaggedBlock TagPath Unit where
  fork :=
    { index := [⟨⟨0, tagged 1 []⟩, []⟩, ⟨⟨1, tagged 1 [1]⟩, [⟨0, tagged 1 []⟩]⟩,
        ⟨⟨2, tagged 2 [1]⟩, [⟨0, tagged 1 []⟩]⟩]
      head := some ⟨⟨1, tagged 1 [1]⟩, [⟨0, tagged 1 []⟩]⟩
      maxSize := 3
      nextRef := 3 }
  chain := ⟨⟨[1, 1]⟩, 0, ()⟩
  undo := [(2, ⟨⟨[1]⟩, 0, ()⟩), (1, tagGenesis)]
  log := []

theorem stepOk_of_next {s : Node TaggedBlock TagPath Unit} {b : TaggedBlock}
    (hp : previous b = s.chain.headId) (hc : (s.chain.apply b).isSome) : StepOk s b :=
  ⟨fun _ ↦ hc, fun hl ↦ absurd hp hl.2.1⟩

theorem stepOk_of_lower {s : Node TaggedBlock TagPath Unit} {b : TaggedBlock}
    (hp : previous b ≠ s.chain.headId) (hn : ¬ s.chain.headNum < num (id b)) : StepOk s b :=
  ⟨fun he ↦ absurd he hp, fun hl ↦ absurd hl.2.2 hn⟩

theorem forked_intact : ∃ hd, Intact tagGenesis forked hd := by
  have hrun : (atGenesis tagGenesis).deliver [tagged 1 [], tagged 1 [1], tagged 2 [1]] = forked := by
    decide +kernel
  rw [← hrun]
  refine (Start.genesis rfl rfl).run (by simp) ⟨stepOk_of_next ?_ ?_, stepOk_of_next ?_ ?_,
    stepOk_of_lower ?_ ?_, trivial⟩ <;> decide +kernel

end Tagged

end Taiyi.Chain
