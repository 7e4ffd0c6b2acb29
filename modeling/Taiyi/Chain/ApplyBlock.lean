import Taiyi.Chain.Standing

set_option autoImplicit false

namespace Taiyi.Chain

open ForkDatabase Node

variable {Block Id Rest : Type} [BlockId Id] [BlockHeader Block Id]

/-- Walking down from an item meets every item of its path whose predecessors are alive. -/
theorem walkFrom_eq {live : ℕ → Bool} {n : ℕ} {l m : Link Block} {t v : List (Link Block)}
    (hl : Linked (l :: t)) (hs : m :: v <:+ l :: t) (hm : num (id m.block) = n)
    (hlive : ∀ k ∈ t, n ≤ num (id k.block) → live k.ref = true) :
    walkFrom live n l t = some ⟨m, v⟩ := by
  induction t generalizing l with
  | nil =>
    obtain ⟨rfl, rfl⟩ : m = l ∧ v = [] := by simpa [List.suffix_cons_iff] using hs
    simp [walkFrom, hm]
  | cons k t ih =>
    rcases List.suffix_cons_iff.mp hs with he | hs
    · obtain ⟨rfl, rfl⟩ := List.cons.inj he
      simp [walkFrom, hm]
    · have hlt : n < num (id l.block) := by
        obtain ⟨u, hu⟩ := hs
        rw [← hu] at hl
        exact hm ▸ Linked.num_lt (u := l :: u) hl l List.mem_cons_self
      have hle := Linked.num_le (linked_cons.mp hl).2 hs
      rw [walkFrom, if_pos hlt, if_pos (hlive k List.mem_cons_self (hm ▸ hle))]
      exact ih (linked_cons.mp hl).2 hs fun k' hk' ↦ hlive k' (List.mem_cons_of_mem _ hk')

section Migrate

variable {db : ForkDatabase Block} {pinned : List ℕ}

theorem alive_of_mem {it : ForkItem Block} (h : it ∈ db.index) : db.alive pinned it.ref = true := by
  simp only [alive, decide_eq_true_eq]
  exact .inr (.inr (List.mem_map_of_mem h))

theorem alive_of_pinned {r : ℕ} (h : r ∈ pinned) : db.alive pinned r = true := by
  simp only [alive, decide_eq_true_eq]
  exact .inl h

/-- A block of the path under the fork head that is in the index is found by its number. -/
theorem fetchOnMain_isSome {it : ForkItem Block} (hh : db.head = some it) (hl : Linked it.path)
    {m : Link Block} {v : List (Link Block)} (hs : m :: v <:+ it.path)
    (hin : (⟨m, v⟩ : ForkItem Block) ∈ db.index)
    (hlive : ∀ k ∈ it.trail, num (id m.block) ≤ num (id k.block) → db.alive pinned k.ref = true) :
    (db.fetchBlockOnMainBranchByNumber pinned (num (id m.block))).isSome = true := by
  unfold fetchBlockOnMainBranchByNumber
  split
  · next hnone =>
    have hmem : (⟨m, v⟩ : ForkItem Block) ∈ db.fetchBlockByNumber (num (id m.block)) := by
      rw [fetchBlockByNumber, List.mem_filter]
      exact ⟨hin, by simp [ForkItem.num, ForkItem.id, ForkItem.block]⟩
    rw [hnone] at hmem
    cases hmem
  · rfl
  · have hle : num (id m.block) ≤ it.num := Linked.num_le hl hs
    simp only [walkMainBranchToNum, hh, if_neg (Nat.not_lt.mpr hle)]
    rw [walkFrom_eq hl hs rfl hlive]
    rfl

theorem blocksToWrite_isSome {n k : ℕ}
    (h : ∀ i, n ≤ i → i < n + k → (db.fetchBlockOnMainBranchByNumber pinned i).isSome = true) :
    ∃ blocks, blocksToWrite db pinned n k = some blocks ∧ blocks.length = k := by
  induction k generalizing n with
  | zero => exact ⟨[], rfl, rfl⟩
  | succ k ih =>
    obtain ⟨it, hit⟩ := Option.isSome_iff_exists.mp (h n (Nat.le_refl _) (by omega))
    obtain ⟨blocks, hb, hlen⟩ := ih (n := n + 1) fun i hi hi' ↦ h i (by omega) (by omega)
    refine ⟨it.block :: blocks, ?_, by rw [List.length_cons, hlen]⟩
    simp only [blocksToWrite, hit, hb, Option.map_some]

end Migrate

variable [DecidableEq Id] [Evaluation Block Id Rest]

namespace Standing

variable {base : ChainState Id Rest} {s : Node Block Id Rest} {p : List (Link Block)}

/-- The state `applyInSession` leaves when the block of `it` gives the content `c`. -/
structure Applied (s : Node Block Id Rest) (it : ForkItem Block) (c : ChainState Id Rest)
    (s' : Node Block Id Rest) : Prop where
  chain : s'.chain = c
  head : s'.fork.head = some it
  index : s'.fork.index =
    s.fork.index.filter fun x ↦ c.headNum - (c.headNum - c.lib + 1) ≤ x.num
  nextRef : s'.fork.nextRef = s.fork.nextRef
  maxSize : s'.fork.maxSize = c.headNum - c.lib + 1
  undo : s'.undo = ((s.chain.headNum + 1, s.chain) :: s.undo).take (c.headNum - c.lib)

theorem floor_applied {it : ForkItem Block} {c : ChainState Id Rest} {s' : Node Block Id Rest}
    (h : Standing base s p) (hc : s.chain.apply it.block = some c) (ha : Applied s it c s') :
    s'.floor = max s.floor (min c.lib c.headNum) := by
  have hn := ChainState.headNum_apply hc
  have hu := h.backed.length_le.2
  unfold Node.floor
  rw [ha.chain, ha.undo, List.length_take, List.length_cons]
  omega

/-- What `migrate_irreversible_state` leaves after `it` gave the content `c`. -/
def migrated (s : Node Block Id Rest) (it : ForkItem Block) (c : ChainState Id Rest)
    (blocks : List Block) : Node Block Id Rest :=
  committed
    { fork := (s.fork.setHead it).setMaxSize (c.headNum - c.lib + 1), chain := c
      undo := (s.chain.headNum + 1, s.chain) :: s.undo, log := s.log ++ blocks } c.lib

theorem num_eq {it : ForkItem Block} {c : ChainState Id Rest}
    (hc : s.chain.apply it.block = some c) : it.num = c.headNum := by
  rw [ChainState.headNum, (ChainState.apply_eq_some hc).2]
  rfl

theorem backed_applied (h : Standing base s p) {it : ForkItem Block} (ht : it.trail = p)
    {c : ChainState Id Rest} (hc : s.chain.apply it.block = some c) :
    Backed base c ((s.chain.headNum + 1, s.chain) :: s.undo) it.path := by
  rw [ForkItem.path, ht]
  exact ⟨by rw [← ChainState.headNum_apply hc, ← num_eq hc]; rfl, hc, h.backed⟩

theorem applied_migrated (h : Standing base s p) {it : ForkItem Block} (ht : it.trail = p)
    {c : ChainState Id Rest} (hc : s.chain.apply it.block = some c) (blocks : List Block) :
    Applied s it c (migrated s it c blocks) where
  chain := rfl
  head := rfl
  index := by
    change s.fork.index.filter (fun x ↦ it.num - (c.headNum - c.lib + 1) ≤ x.num) = _
    rw [num_eq hc]
  nextRef := rfl
  maxSize := rfl
  undo := (h.backed_applied ht hc).rdropWhile_eq c.lib

theorem mem_index_of_suffix (h : Standing base s p) {it : ForkItem Block}
    (hit : it ∈ s.fork.index) (ht : it.trail = p) {l : Link Block} {t : List (Link Block)}
    (hs : l :: t <:+ it.path) (hl : s.floor ≤ num (id l.block)) :
    (⟨l, t⟩ : ForkItem Block) ∈ s.fork.index := by
  rcases List.suffix_cons_iff.mp hs with he | hs
  · obtain ⟨rfl, rfl⟩ := List.cons.inj he
    exact hit
  · exact h.main l t (ht ▸ hs) hl

/-- Every block between the end of the log and the irreversible one is found. -/
theorem blocks_found (h : Standing base s p) {it : ForkItem Block} (hit : it ∈ s.fork.index)
    (ht : it.trail = p) {c : ChainState Id Rest} (hc : s.chain.apply it.block = some c)
    (pinned : List ℕ) :
    ∃ blocks, blocksToWrite (s.fork.setHead it) pinned (s.log.length + 1)
      (c.lib - s.log.length) = some blocks ∧ blocks.length = c.lib - s.log.length := by
  have hn := ChainState.headNum_apply hc
  have hlib := ChainState.lib_le_apply h.lib_le hc
  have hfloor := h.floor_log
  refine blocksToWrite_isSome fun i hi hi' ↦ ?_
  obtain ⟨l, t, hs, rfl⟩ : ∃ l t, l :: t <:+ it.path ∧ num (id l.block) = i := by
    by_cases he : i = c.headNum
    · exact ⟨it.self, it.trail, List.suffix_refl _, by rw [he, ← num_eq hc]; rfl⟩
    · obtain ⟨l, t, hs, hl⟩ := h.backed.exists_suffix (n := i)
        (by unfold Node.floor at hfloor; omega) (by omega)
      exact ⟨l, t, (ht ▸ hs).trans (List.suffix_cons _ _), hl⟩
  refine fetchOnMain_isSome rfl (h.tree.linked it hit) hs
    (h.mem_index_of_suffix hit ht hs (by omega)) fun k hk hik ↦ ?_
  obtain ⟨u, v, huv⟩ := List.append_of_mem hk
  have hs : k :: v <:+ it.path := ⟨it.self :: u, by rw [ForkItem.path, huv]; rfl⟩
  have hin : (⟨k, v⟩ : ForkItem Block) ∈ (s.fork.setHead it).index :=
    h.mem_index_of_suffix hit ht hs (by omega)
  exact alive_of_mem hin

theorem standing_migrated (h : Standing base s p) {it : ForkItem Block} (hit : it ∈ s.fork.index)
    (ht : it.trail = p) {c : ChainState Id Rest} (hc : s.chain.apply it.block = some c)
    {blocks : List Block} (hb : blocks.length = c.lib - s.log.length) :
    Standing base (migrated s it c blocks) it.path := by
  have ha := h.applied_migrated ht hc blocks
  have hfl := h.floor_applied hc ha
  have hlib := ChainState.lib_le_apply h.lib_le hc
  have hlog := h.floor_log
  refine ⟨?_, h.base_lib, ?_, h.tree.linked it hit, fun l t hs hl ↦ ?_, ?_⟩
  · rw [ha.chain, ha.undo]
    exact (h.backed_applied ht hc).of_fewer (List.take_prefix _ _)
  · change _ ≤ (s.log ++ blocks).length
    rw [hfl, List.length_append, hb]
    omega
  · rw [ha.index, List.mem_filter]
    refine ⟨h.mem_index_of_suffix hit ht hs (by omega), ?_⟩
    simp only [decide_eq_true_eq]
    change _ ≤ num (id l.block)
    omega
  · refine (h.tree.mono (by omega)).filter ha.index ha.nextRef fun x _ hx ↦ .inl ?_
    simp only [decide_eq_false_iff_not] at hx
    omega

/-- A block that applies to the content is applied by the node whatever the pinned items are,
and the chain then stands on its item. -/
theorem apply (h : Standing base s p) {it : ForkItem Block} (hit : it ∈ s.fork.index)
    (ht : it.trail = p) {c : ChainState Id Rest} (hc : s.chain.apply it.block = some c)
    (pinned : List ℕ) :
    ∃ s', (applyInSession pinned it.block).run { s with fork := s.fork.setHead it } = .ok ⟨⟩ s' ∧
      Applied s it c s' ∧ Standing base s' it.path := by
  obtain ⟨blocks, hb, hlen⟩ := h.blocks_found hit ht hc pinned
  refine ⟨migrated s it c blocks, ?_, h.applied_migrated ht hc blocks,
    h.standing_migrated hit ht hc hlen⟩
  have hmig : ¬ ∃ x ∈ (s.fork.setHead it).head, x.num ≠ c.headNum := by
    simp [setHead, num_eq hc]
  simp only [EStateM.run, applyInSession, applyBlock, startUndoSession, hc,
    migrateIrreversibleState, if_neg hmig, hb]
  rfl

end Standing

theorem applyInSession_fail {s : Node Block Id Rest} {b : Block} (h : s.chain.apply b = none)
    (pinned : List ℕ) : ∃ e, (applyInSession pinned b).run s = .error e s := by
  exact ⟨"block does not apply", by
    simp only [EStateM.run, applyInSession, applyBlock, startUndoSession, h, undone]⟩

end Taiyi.Chain
