import Taiyi.Chain.Irreversible

set_option autoImplicit false

namespace Taiyi.Chain

/-- The blocks that `update_last_irreversible_block` notifies of when it takes the last
irreversible block from `old` to `new`. -/
def notices (old new : ℕ) : List ℕ := List.range' old (new + 1 - old)

theorem filter_notices_zero (n : ℕ) : (notices 0 n).filter (0 < ·) = List.range' 1 n := by
  rw [notices, Nat.sub_zero, List.range'_succ, List.filter_cons_of_neg (by simp),
    List.filter_eq_self]
  intro m hm
  have := (List.mem_range'_1.mp hm).1
  simpa using Nat.lt_of_lt_of_le Nat.zero_lt_one this

theorem mem_notices {old new n : ℕ} : n ∈ notices old new ↔ old ≤ n ∧ n ≤ new := by
  rw [notices, List.mem_range'_1]
  omega

section General

variable {Block Id Name Other : Type}

/-- A node over a run: its content, the contents below it that blocks can be popped to, the
blocks applied so far, the notices sent and the highest last irreversible block. -/
structure Signalled (Block Id Name Other : Type) where
  chain : ChainState Id (Confirmations Name Other)
  below : List (ChainState Id (Confirmations Name Other))
  applied : List Block
  notified : List ℕ
  reached : ℕ

namespace Signalled

/-- Every irreversible block was notified of exactly once, in order and without gaps. -/
def ExactlyOnce (s : Signalled Block Id Name Other) : Prop :=
  s.notified.filter (0 < ·) = List.range' 1 s.reached

/-- A block that is notified of twice. -/
theorem not_exactlyOnce {s : Signalled Block Id Name Other} {n : ℕ} (hn : 0 < n)
    (h : 2 ≤ s.notified.count n) : ¬ s.ExactlyOnce := by
  intro he
  have hc : (s.notified.filter (0 < ·)).count n = s.notified.count n :=
    List.count_filter (by simpa using hn)
  rw [he] at hc
  have hle := List.nodup_iff_count_le_one.mp (List.nodup_range' (s := 1) (n := s.reached)) n
  omega

def start (base : ChainState Id (Confirmations Name Other)) : Signalled Block Id Name Other :=
  ⟨base, [], [], [], base.lib⟩

def pop (s : Signalled Block Id Name Other) : Option (Signalled Block Id Name Other) :=
  match s.below with
  | [] => none
  | c :: below => some { s with chain := c, below := below }

variable [BlockId Id] [BlockHeader Block Id] [DecidableEq Id] [DecidableEq Name]
  [Processing Block Id Name Other]

def apply (s : Signalled Block Id Name Other) (b : Block) :
    Option (Signalled Block Id Name Other) :=
  (s.chain.apply b).map fun c ↦
    { chain := c, below := s.chain :: s.below, applied := s.applied ++ [b]
      notified := s.notified ++ notices s.chain.lib c.lib, reached := max s.reached c.lib }

/-- The applied blocks with more blocks below them than there can be simings. -/
def late (s : Signalled Block Id Name Other) : ℕ :=
  s.applied.countP fun b ↦ taiyiMaxSimings < num (id b)

end Signalled

variable [BlockId Id] [BlockHeader Block Id] [DecidableEq Id] [DecidableEq Name]
  [Processing Block Id Name Other]

/-- Blocks are applied and popped in any order. -/
inductive Signals (base : ChainState Id (Confirmations Name Other)) :
    Signalled Block Id Name Other → Prop
  | start : Signals base (.start base)
  | apply {s s' : Signalled Block Id Name Other} {b : Block} (h : Signals base s)
      (hs : s.apply b = some s') : Signals base s'
  | pop {s s' : Signalled Block Id Name Other} (h : Signals base s) (hs : s.pop = some s') :
      Signals base s'

/-- What the notices say after any run. -/
structure Told (s : Signalled Block Id Name Other) : Prop where
  paced : ∀ c ∈ s.chain :: s.below, Paced c
  bound : ∀ c ∈ s.chain :: s.below, c.lib ≤ s.reached
  told : ∀ c ∈ s.chain :: s.below, 0 < c.lib → c.lib ∈ s.notified
  first : 0 < s.late → 1 ∈ s.notified
  none : s.late = 0 → s.notified.filter (0 < ·) = [] ∧ s.reached = 0
  one : s.late = 1 → s.ExactlyOnce
  many : 2 ≤ s.late → ∃ n, 0 < n ∧ 2 ≤ s.notified.count n

namespace Told

variable {base : ChainState Id (Confirmations Name Other)} {s s' : Signalled Block Id Name Other}

omit [DecidableEq Id] [DecidableEq Name] [Processing Block Id Name Other] in
theorem start (hp : Paced base) (hl : base.lib = 0) :
    Told (.start base : Signalled Block Id Name Other) where
  paced c hc := List.mem_singleton.mp hc ▸ hp
  bound c hc := List.mem_singleton.mp hc ▸ Nat.le_refl _
  told c hc h := by
    rw [List.mem_singleton.mp hc] at h
    exact absurd h (Nat.not_lt.mpr (Nat.le_of_eq hl))
  first h := by cases h
  none _ := ⟨rfl, hl⟩
  one h := by cases h
  many h := by cases h

omit [DecidableEq Id] [DecidableEq Name] [Processing Block Id Name Other] in
theorem pop (h : Told s) (hs : s.pop = some s') : Told s' := by
  unfold Signalled.pop at hs
  split at hs
  · cases hs
  · next c below hb =>
    cases hs
    have hsub : ∀ d ∈ c :: below, d ∈ s.chain :: s.below := fun d hd ↦
      List.mem_cons_of_mem _ (hb ▸ hd)
    exact ⟨fun d hd ↦ h.paced d (hsub d hd), fun d hd ↦ h.bound d (hsub d hd),
      fun d hd ↦ h.told d (hsub d hd), h.first, h.none, h.one, h.many⟩

/-- What holds of the contents of a run, from what holds of the ones before a block. -/
theorem mem_contents (h : Told s) {b : Block} {c : ChainState Id (Confirmations Name Other)}
    (hc : s.chain.apply b = some c) (hs : s.apply b = some s') :
    s'.chain :: s'.below = c :: s.chain :: s.below ∧ s'.reached = max s.reached c.lib ∧
      s'.notified = s.notified ++ notices s.chain.lib c.lib ∧
      s'.late = s.late + (if 0 < c.lib then 1 else 0) ∧ Paced c ∧ s.chain.lib ≤ c.lib := by
  have hp := h.paced s.chain List.mem_cons_self
  rw [Signalled.apply, hc, Option.map_some, Option.some.injEq] at hs
  subst hs
  refine ⟨rfl, rfl, rfl, ?_, hp.step hc, hp.lib_mono hc⟩
  simp only [Signalled.late, List.countP_append, List.countP_singleton,
    ← (ChainState.apply_eq_some hc).2, decide_eq_true_eq]
  change _ + (if taiyiMaxSimings < c.headNum then 1 else 0) = _
  simp only [(hp.step hc).lib_pos]

/-- A block without enough blocks below it makes no block irreversible. -/
theorem apply_early (h : Told s) {b : Block} {c : ChainState Id (Confirmations Name Other)}
    (hc : s.chain.apply b = some c) (hs : s.apply b = some s') (hl : c.lib = 0) : Told s' := by
  obtain ⟨hm, hr, hn, hlate, hp, hle⟩ := h.mem_contents hc hs
  have hz : s.chain.lib = 0 := Nat.le_zero.mp (hl ▸ hle)
  rw [hl, if_neg (Nat.lt_irrefl 0), Nat.add_zero] at hlate
  rw [hl, Nat.max_zero] at hr
  rw [hl, hz] at hn
  have hf : s'.notified.filter (0 < ·) = s.notified.filter (0 < ·) := by
    rw [hn, List.filter_append, filter_notices_zero, List.range'_zero, List.append_nil]
  have hsub : ∀ n ∈ s.notified, n ∈ s'.notified := fun n hn' ↦ hn ▸ List.mem_append_left _ hn'
  constructor
  · rw [hm]
    exact List.forall_mem_cons.mpr ⟨hp, h.paced⟩
  · rw [hm, hr]
    exact List.forall_mem_cons.mpr ⟨hl ▸ Nat.zero_le _, h.bound⟩
  · rw [hm]
    refine List.forall_mem_cons.mpr ⟨fun hpos ↦ ?_, fun d hd hpos ↦ hsub _ (h.told d hd hpos)⟩
    rw [hl] at hpos
    cases hpos
  · exact fun hpos ↦ hsub _ (h.first (hlate ▸ hpos))
  · rw [hlate, hf, hr]
    exact h.none
  · rw [hlate]
    intro h1
    rw [Signalled.ExactlyOnce, hf, hr]
    exact h.one h1
  · rw [hlate]
    intro h2
    obtain ⟨n, hpos, hc2⟩ := h.many h2
    refine ⟨n, hpos, hc2.trans ?_⟩
    rw [hn, List.count_append]
    exact Nat.le_add_right _ _

/-- A block that makes blocks irreversible notifies of the last irreversible one again: after
the first such block it was notified of before, or block 1 was. -/
theorem apply_late (h : Told s) {b : Block} {c : ChainState Id (Confirmations Name Other)}
    (hc : s.chain.apply b = some c) (hs : s.apply b = some s') (hl : 0 < c.lib) : Told s' := by
  obtain ⟨hm, hr, hn, hlate, hp, hle⟩ := h.mem_contents hc hs
  rw [if_pos hl] at hlate
  have hsub : ∀ n ∈ s.notified, n ∈ s'.notified := fun n hn' ↦ hn ▸ List.mem_append_left _ hn'
  have hnew : ∀ n, s.chain.lib ≤ n → n ≤ c.lib → n ∈ s'.notified := fun n h1 h2 ↦
    hn ▸ List.mem_append_right _ (mem_notices.mpr ⟨h1, h2⟩)
  constructor
  · rw [hm]
    exact List.forall_mem_cons.mpr ⟨hp, h.paced⟩
  · rw [hm, hr]
    exact List.forall_mem_cons.mpr
      ⟨Nat.le_max_right _ _, fun d hd ↦ (h.bound d hd).trans (Nat.le_max_left _ _)⟩
  · rw [hm]
    exact List.forall_mem_cons.mpr
      ⟨fun _ ↦ hnew _ hle (Nat.le_refl _), fun d hd hpos ↦ hsub _ (h.told d hd hpos)⟩
  · intro _
    rcases Nat.eq_zero_or_pos s.late with hz | hpos
    · have hb := h.bound s.chain List.mem_cons_self
      rw [(h.none hz).2] at hb
      exact hnew 1 (hb.trans (Nat.zero_le _)) hl
    · exact hsub _ (h.first hpos)
  · intro hz
    omega
  · intro h1
    obtain ⟨hf, hz⟩ := h.none (by omega)
    have hb := h.bound s.chain List.mem_cons_self
    rw [hz] at hb
    rw [Signalled.ExactlyOnce, hn, List.filter_append, hf, List.nil_append,
      Nat.le_zero.mp hb, filter_notices_zero, hr, hz, Nat.zero_max]
  · intro h2
    rcases Nat.eq_zero_or_pos s.chain.lib with hz | hpos
    · have h1 := List.count_pos_iff.mpr (h.first (by omega))
      have hm1 : 1 ∈ notices s.chain.lib c.lib :=
        mem_notices.mpr ⟨(Nat.le_of_eq hz).trans (Nat.zero_le 1), hl⟩
      have h1' := List.count_pos_iff.mpr hm1
      refine ⟨1, Nat.zero_lt_one, ?_⟩
      rw [hn, List.count_append]
      omega
    · have h1 := List.count_pos_iff.mpr (h.told s.chain List.mem_cons_self hpos)
      have h1' := List.count_pos_iff.mpr (mem_notices.mpr ⟨Nat.le_refl s.chain.lib, hle⟩)
      refine ⟨s.chain.lib, hpos, ?_⟩
      rw [hn, List.count_append]
      omega

theorem apply (h : Told s) {b : Block} (hs : s.apply b = some s') : Told s' := by
  obtain ⟨c, hc, -⟩ := Option.map_eq_some_iff.mp hs
  rcases Nat.eq_zero_or_pos c.lib with hl | hl
  · exact h.apply_early hc hs hl
  · exact h.apply_late hc hs hl

theorem run (hp : Paced base) (hl : base.lib = 0) (h : Signals base s) : Told s := by
  induction h with
  | start => exact start hp hl
  | apply _ hs ih => exact ih.apply hs
  | pop _ hs ih => exact ih.pop hs

end Told

/-- On a chain from genesis every irreversible block is notified of exactly once, in order and
without gaps, exactly when at most one block is applied that makes blocks irreversible. -/
theorem exactlyOnce_iff_late_le_one {base : ChainState Id (Confirmations Name Other)}
    {s : Signalled Block Id Name Other} (hi : base.headId = zero) (hl : base.lib = 0)
    (hn : base.rest.headBlockNumber = 0) (h : Signals base s) : s.ExactlyOnce ↔ s.late ≤ 1 := by
  have ht : Told s := .run (.genesis hi hl hn) hl h
  constructor
  · intro he
    by_contra hlt
    obtain ⟨n, hpos, hc⟩ := ht.many (by omega)
    exact Signalled.not_exactlyOnce hpos hc he
  · intro hle
    rcases Nat.le_one_iff_eq_zero_or_eq_one.mp hle with hz | h1
    · obtain ⟨hf, hr⟩ := ht.none hz
      rw [Signalled.ExactlyOnce, hf, hr, List.range'_zero]
    · exact ht.one h1

end General

section Branches

/-- An id for worked cases: the number of the block and the branch it is on. -/
structure BranchId where
  side : Bool
  number : ℕ
  deriving DecidableEq

/-- A block of the main branch or of the side branch that leaves it after its first block. -/
structure BranchBlock where
  side : Bool
  below : ℕ
  deriving DecidableEq

instance : BlockId BranchId := ⟨BranchId.number, ⟨false, 0⟩, rfl⟩

instance : BlockHeader BranchBlock BranchId where
  id b := ⟨b.side, b.below + 1⟩
  previous b := ⟨b.side && 1 < b.below, b.below⟩
  num_id _ := rfl
  id_injective := by
    rintro ⟨s, n⟩ ⟨s', n'⟩ h
    simpa using h

/-- One siming produces every block, and every block applies. -/
instance : Processing BranchBlock BranchId Unit Unit where
  siming _ := ()
  before _ _ := some ([], ())
  after _ _ _ := some ([()], ())

def branchGenesis : ChainState BranchId (Confirmations Unit Unit) :=
  ⟨⟨false, 0⟩, 0, ⟨0, fun _ ↦ some 0, [()], (), fun _ _ h ↦ Nat.le_of_eq (Option.some.inj h).symm⟩⟩

theorem Signals.blocks {s s' : Signalled BranchBlock BranchId Unit Unit} {bs : List BranchBlock}
    (h : Signals branchGenesis s) (hs : bs.foldlM Signalled.apply s = some s') :
    Signals branchGenesis s' := by
  induction bs generalizing s with
  | nil =>
    cases hs
    exact h
  | cons b bs ih =>
    obtain ⟨t, ht, hs⟩ := Option.bind_eq_some_iff.mp hs
    exact ih (h.apply ht) hs

def mainBlocks (n : ℕ) : List BranchBlock := (List.range n).map fun k ↦ ⟨false, k⟩

/-- Block 1 becomes irreversible with block 22 and is notified of again with block 23. -/
theorem notified_twice : ∃ s : Signalled BranchBlock BranchId Unit Unit,
    Signals branchGenesis s ∧ 0 < s.reached ∧ s.notified.count 1 = 2 ∧ ¬ s.ExactlyOnce := by
  have hrun : ((mainBlocks 23).foldlM Signalled.apply
      (.start branchGenesis : Signalled BranchBlock BranchId Unit Unit)).map
        (fun s ↦ (s.reached, s.notified.count 1)) = some (2, 2) := by decide +kernel
  obtain ⟨s, hs, he⟩ := Option.map_eq_some_iff.mp hrun
  obtain ⟨hr, hc⟩ := Prod.mk.inj he
  refine ⟨s, Signals.start.blocks hs, by omega, hc, ?_⟩
  exact Signalled.not_exactlyOnce Nat.zero_lt_one (Nat.le_of_eq hc.symm)

theorem exactlyOnce_twentyTwo : ∃ s : Signalled BranchBlock BranchId Unit Unit,
    Signals branchGenesis s ∧ s.late = 1 ∧ s.ExactlyOnce := by
  have hrun : ((mainBlocks 22).foldlM Signalled.apply
      (.start branchGenesis : Signalled BranchBlock BranchId Unit Unit)).map
        Signalled.late = some 1 := by decide +kernel
  obtain ⟨s, hs, he⟩ := Option.map_eq_some_iff.mp hrun
  have hr := Signals.start.blocks hs
  exact ⟨s, hr, he, (exactlyOnce_iff_late_le_one rfl rfl rfl hr).mpr (Nat.le_of_eq he)⟩

end Branches

end Taiyi.Chain
