import Taiyi.Chain.Finality

set_option autoImplicit false

namespace Taiyi.Chain

open ForkDatabase Node

variable {Block Id Rest : Type} [BlockId Id] [BlockHeader Block Id]

section Fetch

variable {db : ForkDatabase Block} {pinned : List ℕ}

/-- A block of the path under the fork head is the one that is found by its number. -/
theorem fetchOnMain_eq (pinned : List ℕ) {it : ForkItem Block} (hh : db.head = some it)
    (hl : Linked it.path) {m : Link Block} {v : List (Link Block)} (hs : m :: v <:+ it.path)
    (hin : (⟨m, v⟩ : ForkItem Block) ∈ db.index)
    (hlive : ∀ k ∈ it.trail, num (id m.block) ≤ num (id k.block) → db.alive pinned k.ref = true) :
    db.fetchBlockOnMainBranchByNumber pinned (num (id m.block)) = some ⟨m, v⟩ := by
  have hmem : (⟨m, v⟩ : ForkItem Block) ∈ db.fetchBlockByNumber (num (id m.block)) := by
    rw [fetchBlockByNumber, List.mem_filter]
    exact ⟨hin, by simp [ForkItem.num, ForkItem.id, ForkItem.block]⟩
  unfold fetchBlockOnMainBranchByNumber
  split
  · next hnone =>
    rw [hnone] at hmem
    cases hmem
  · next x hone =>
    rw [hone, List.mem_singleton] at hmem
    rw [hmem]
  · have hle : num (id m.block) ≤ it.num := Linked.num_le hl hs
    simp only [walkMainBranchToNum, hh, if_neg (Nat.not_lt.mpr hle)]
    exact walkFrom_eq hl hs rfl hlive

theorem blocksToWrite_eq {n k : ℕ} {bs : List Block}
    (h : ∀ j < k, ∃ it, db.fetchBlockOnMainBranchByNumber pinned (n + j) = some it ∧
      bs[j]? = some it.block) : blocksToWrite db pinned n k = some (bs.take k) := by
  induction k generalizing n bs with
  | zero => simp [blocksToWrite]
  | succ k ih =>
    obtain ⟨it, hit, hb⟩ := h 0 (Nat.succ_pos _)
    obtain ⟨b, bs, rfl⟩ : ∃ b bs', bs = b :: bs' := List.exists_cons_of_ne_nil (by
      rintro rfl
      simp at hb)
    obtain rfl : b = it.block := by simpa using hb
    have htail : blocksToWrite db pinned (n + 1) k = some (bs.take k) := ih fun j hj ↦ by
      obtain ⟨it', hit', hb'⟩ := h (j + 1) (by omega)
      exact ⟨it', by rw [← hit']; congr 1; omega, by simpa using hb'⟩
    rw [Nat.add_zero] at hit
    simp only [blocksToWrite, hit, htail, Option.map_some, List.take_succ_cons]

end Fetch

variable [DecidableEq Id] [Evaluation Block Id Rest]

/-- The sessions hold the contents before the last blocks of a chain from the base. -/
def Traced (Block : Type) {Id Rest : Type} [BlockId Id] [BlockHeader Block Id] [DecidableEq Id]
    [Evaluation Block Id Rest] (base : ChainState Id Rest) :
    ChainState Id Rest → List (ℕ × ChainState Id Rest) → Prop
  | c, [] => ∃ bs : List Block, base.replay bs = some c
  | c, (_, c') :: undo => (∃ b : Block, c'.apply b = some c) ∧ Traced Block base c' undo

variable {base c c' : ChainState Id Rest} {undo : List (ℕ × ChainState Id Rest)}
  {pre bs : List Block} {s s' : Node Block Id Rest} {p q : List (Link Block)} {pinned : List ℕ}

theorem Backed.traced (h : Backed base c undo p) : Traced Block base c undo := by
  induction undo generalizing c p with
  | nil => exact h.2
  | cons session undo ih =>
    match session, p with
    | (_, _), l :: p => exact ⟨⟨l.block, h.2.1⟩, ih h.2.2⟩

theorem Traced.replays (h : Traced Block base c undo) :
    ∃ bs : List Block, base.replay bs = some c := by
  induction undo generalizing c with
  | nil => exact h
  | cons session undo ih =>
    obtain ⟨⟨b, hb⟩, h⟩ := h
    obtain ⟨bs, hbs⟩ := ih h
    exact ⟨bs ++ [b], by rw [ChainState.replay_concat, hbs, Option.bind_some, hb]⟩

theorem Traced.length_le (h : Traced Block base c undo) :
    base.headNum + undo.length ≤ c.headNum := by
  induction undo generalizing c with
  | nil =>
    obtain ⟨bs, hbs⟩ := h
    exact ChainState.headNum_replay hbs ▸ Nat.le_add_right _ _
  | cons session undo ih =>
    obtain ⟨⟨b, hb⟩, h⟩ := h
    have hn := ChainState.headNum_apply hb
    have hle := ih h
    simp only [List.length_cons]
    omega

/-- The blocks of the path that the sessions reach are those of the chain. -/
theorem Backed.block_eq (h : Backed base c undo p) (hp : Linked p) (hbs : base.replay bs = some c)
    {l : Link Block} {t : List (Link Block)} (hs : l :: t <:+ p)
    (hlo : c.headNum - undo.length < num (id l.block)) :
    base.headNum < num (id l.block) ∧
      bs[num (id l.block) - base.headNum - 1]? = some l.block := by
  induction undo generalizing c p bs with
  | nil =>
    obtain ⟨m, v, rfl⟩ : ∃ m v, p = m :: v := by
      cases p with
      | nil => simp at hs
      | cons m v => exact ⟨m, v, rfl⟩
    have hle := Linked.num_le hp hs
    have htop : id m.block = c.headId := h.1
    rw [htop] at hle
    exact absurd hle (Nat.not_le.mpr hlo)
  | cons session undo ih =>
    match session, p with
    | (_, c'), m :: p =>
      obtain ⟨-, ha, hb⟩ := h
      obtain ⟨bs', hbs'⟩ := hb.replays
      have hn := ChainState.headNum_apply ha
      have hcat : base.replay (bs' ++ [m.block]) = some c := by
        rw [ChainState.replay_concat, hbs', Option.bind_some, ha]
      obtain rfl := ChainState.replay_unique hbs hcat rfl
      have hlen := ChainState.headNum_replay hbs'
      rcases List.suffix_cons_iff.mp hs with he | hs
      · obtain ⟨rfl, rfl⟩ := List.cons.inj he
        have hi : num (id l.block) = c.headNum := by
          rw [ChainState.headNum, (ChainState.apply_eq_some ha).2]
        refine ⟨by omega, ?_⟩
        rw [show num (id l.block) - base.headNum - 1 = bs'.length by omega]
        simp
      · simp only [List.length_cons] at hlo
        obtain ⟨hlt, hk⟩ := ih hb (linked_cons.mp hp).2 hbs' hs (by omega)
        refine ⟨hlt, ?_⟩
        rw [List.getElem?_append_left (List.getElem?_eq_some_iff.mp hk).1]
        exact hk

/-- The block log holds the first blocks of the chain, none above the floor; `pre` are those up to
the base. -/
structure Logged (base : ChainState Id Rest) (pre : List Block) (s : Node Block Id Rest) :
    Prop where
  base_length : pre.length = base.headNum
  traced : Traced Block base s.chain s.undo
  log : ∃ bs : List Block, base.replay bs = some s.chain ∧ s.log <+: pre ++ bs
  length_le : s.log.length ≤ s.floor

/-- Applying a block drops no item above it. -/
theorem Standing.mem_later (h : Standing base s q) {it x : ForkItem Block}
    (hc : s.chain.apply it.block = some c) (ha : Standing.Applied s it c s')
    (hx : x ∈ s.fork.index) (hlt : it.num < x.num) :
    x ∈ s'.fork.index := by
  have hnum := Standing.num_eq hc
  have hch := ha.chain
  refine (h.pruned_applied hc ha).kept x hx ?_
  unfold Node.floor
  rw [hch]
  omega

namespace Logged

theorem log_prefix (h : Logged base pre s) (hbs : base.replay bs = some s.chain) :
    s.log <+: pre ++ bs := by
  obtain ⟨bs', hbs', hlog⟩ := h.log
  rwa [ChainState.replay_unique hbs hbs' rfl]

theorem setFork (h : Logged base pre s) (fork : ForkDatabase Block) :
    Logged base pre { s with fork := fork } := ⟨h.base_length, h.traced, h.log, h.length_le⟩

theorem undone (h : Logged base pre s) : Logged base pre s.undone := by
  obtain ⟨fork, c, undo, log⟩ := s
  cases undo with
  | nil => exact h
  | cons session undo =>
    obtain ⟨r, c'⟩ := session
    have hpre := h.base_length
    obtain ⟨⟨b, hb⟩, htr⟩ : (∃ b : Block, c'.apply b = some c) ∧ Traced Block base c' undo :=
      h.traced
    have hle : log.length ≤ c.headNum - (undo.length + 1) := h.length_le
    obtain ⟨bs, hbs⟩ := htr.replays
    have hcat : base.replay (bs ++ [b]) = some c := by
      rw [ChainState.replay_concat, hbs, Option.bind_some, hb]
    have hn := ChainState.headNum_apply hb
    have hlen := ChainState.headNum_replay hbs
    have hundo := htr.length_le
    refine ⟨hpre, htr, ⟨bs, hbs, ?_⟩, ?_⟩
    · refine List.prefix_of_prefix_length_le (h.log_prefix hcat) ⟨[b], by simp⟩ ?_
      rw [List.length_append]
      change log.length ≤ _
      omega
    · change log.length ≤ c'.headNum - undo.length
      omega

theorem popBlock (h : Logged base pre s) (hr : (Node.popBlock pinned).run s = .ok ⟨⟩ s') :
    Logged base pre s' := by
  rcases popBlock_cases s pinned with ⟨e, he⟩ | ⟨x, y, rest, -, -, he⟩
  · rw [he] at hr
    cases hr
  · rw [he] at hr
    cases hr
    exact (h.setFork _).undone

theorem popUntil (h : Logged base pre s) {target : Id} {path : List (Link Block)}
    (hr : (Node.popUntil pinned target path).run s = .ok ⟨⟩ s') : Logged base pre s' := by
  induction path generalizing s with
  | nil =>
    simp only [EStateM.run, Node.popUntil] at hr
    split at hr
    · cases hr
      exact h
    · exact h.popBlock hr
  | cons l path ih =>
    rw [popUntil_cons] at hr
    split at hr
    · cases hr
      exact h
    · split at hr
      · cases hr
      · next s₁ h₁ => exact ih (h.popBlock h₁) hr

theorem popTo (h : Logged base pre s) {target : Id}
    (hr : (Node.popTo pinned target).run s = .ok ⟨⟩ s') : Logged base pre s' := h.popUntil hr

/-- The blocks that become irreversible are found in `fork_db`. -/
theorem blocksToWrite_applied (h : Logged base pre s) (hs : Standing base s p)
    {it : ForkItem Block} (hit : it ∈ s.fork.index) (ht : it.trail = p)
    (hc : s.chain.apply it.block = some c) {bs : List Block}
    (hbs : base.replay bs = some s.chain) (pinned : List ℕ) :
    blocksToWrite (s.fork.setHead it) pinned (s.log.length + 1) (c.lib - s.log.length) =
      some (((pre ++ (bs ++ [it.block])).drop s.log.length).take (c.lib - s.log.length)) := by
  have hcat : base.replay (bs ++ [it.block]) = some c := by
    rw [ChainState.replay_concat, hbs, Option.bind_some, hc]
  have hn := ChainState.headNum_apply hc
  have hlen := ChainState.headNum_replay hbs
  have hlib := ChainState.lib_le_apply hs.lib_le hc
  have hfloor := hs.floor_log
  have hle := h.length_le
  have hpre := h.base_length
  have hb := hs.backed_applied ht hc
  refine blocksToWrite_eq fun j hj ↦ ?_
  obtain ⟨l, t, hl, hi⟩ := hb.exists_suffix (n := s.log.length + 1 + j)
    (by simp only [List.length_cons]; unfold Node.floor at hfloor; omega) (by omega)
  have hh : (s.fork.setHead it).head = some it := rfl
  have hf := fetchOnMain_eq pinned hh (hs.tree.linked it hit) hl
    (hs.mem_index_of_suffix hit ht hl (by omega)) fun k hk hik ↦ by
      obtain ⟨u, v, huv⟩ := List.append_of_mem hk
      have hk : k :: v <:+ it.path := ⟨it.self :: u, by rw [ForkItem.path, huv]; rfl⟩
      have hin : (⟨k, v⟩ : ForkItem Block) ∈ (s.fork.setHead it).index :=
        hs.mem_index_of_suffix hit ht hk (by omega)
      exact alive_of_mem hin
  obtain ⟨hlt, hk⟩ := hb.block_eq (hs.tree.linked it hit) hcat hl
    (by simp only [List.length_cons]; unfold Node.floor at hfloor; omega)
  refine ⟨⟨l, t⟩, by rw [← hi, hf], ?_⟩
  rw [List.getElem?_drop, List.getElem?_append_right (by omega),
    show s.log.length + j - pre.length = num (id l.block) - base.headNum - 1 by omega, hk]
  rfl

/-- A block that applies takes the log up to the irreversible one along the chain. -/
theorem apply (h : Logged base pre s) (hs : Standing base s p) {it : ForkItem Block}
    (hit : it ∈ s.fork.index) (ht : it.trail = p) (hc : s.chain.apply it.block = some c)
    (pinned : List ℕ) :
    ∃ s', (applyInSession pinned it.block).run { s with fork := s.fork.setHead it } = .ok ⟨⟩ s' ∧
      Standing.Applied s it c s' ∧ Standing base s' it.path ∧ Logged base pre s' := by
  obtain ⟨bs, hbs⟩ := hs.backed.replays
  have hcat : base.replay (bs ++ [it.block]) = some c := by
    rw [ChainState.replay_concat, hbs, Option.bind_some, hc]
  have hblocks := h.blocksToWrite_applied hs hit ht hc hbs pinned
  have hlog : s.log ++ ((pre ++ (bs ++ [it.block])).drop s.log.length).take
      (c.lib - s.log.length) <+: pre ++ (bs ++ [it.block]) := by
    obtain ⟨rest, hrest⟩ := h.log_prefix hbs
    rw [← List.append_assoc, ← hrest, List.append_assoc, List.drop_left]
    exact List.prefix_append_right_inj _ |>.mpr (List.take_prefix _ _)
  obtain ⟨s', hr, ha, hst⟩ := hs.apply hit ht hc pinned
  have hmig : ¬ ∃ x ∈ (s.fork.setHead it).head, x.num ≠ c.headNum := by
    simp [setHead, Standing.num_eq hc]
  have hs' : s' = Standing.migrated s it c
      (((pre ++ (bs ++ [it.block])).drop s.log.length).take (c.lib - s.log.length)) := by
    simp only [EStateM.run, applyInSession, applyBlock, startUndoSession, hc,
      migrateIrreversibleState, if_neg hmig, hblocks] at hr
    exact (EStateM.Result.ok.inj hr).2.symm
  refine ⟨s', hr, ha, hst, h.base_length, hst.backed.traced,
    ⟨bs ++ [it.block], ha.chain ▸ hcat, ?_⟩, ?_⟩
  · rw [hs']
    exact hlog
  · have hfloor := hs.floor_log
    have hle := h.length_le
    have hn := ChainState.headNum_apply hc
    have hlib := ChainState.lib_le_apply hs.lib_le hc
    rw [hs.floor_applied hc ha, hs']
    change (s.log ++ _).length ≤ _
    rw [List.length_append]
    have := List.length_take_le (c.lib - s.log.length)
      ((pre ++ (bs ++ [it.block])).drop s.log.length)
    omega

theorem pushItems (pinned : List ℕ) (h : Logged base pre s) (hs : Standing base s q)
    {items : List (ForkItem Block)} (hin : ∀ it ∈ items, it ∈ s.fork.index)
    (hst : Stacked q items) : Logged base pre (Node.pushItems pinned items s).1 := by
  induction items generalizing s q with
  | nil => exact h
  | cons it items ih =>
    cases hc : s.chain.apply it.block with
    | none =>
      obtain ⟨e, he⟩ := applyInSession_fail (s := { s with fork := s.fork.setHead it }) hc pinned
      simp only [Node.pushItems, he]
      exact h.setFork _
    | some c =>
      obtain ⟨s₁, hr, ha, hs₁, h₁⟩ := h.apply hs (hin it List.mem_cons_self) hst.1 hc pinned
      simp only [Node.pushItems, hr]
      refine ih h₁ hs₁ (fun x hx ↦ ?_) hst.2
      have hmem := hin x (List.mem_cons_of_mem _ hx)
      exact hs.mem_later hc ha hmem (Stacked.num_lt hst.2 hx (hs.tree.linked x hmem))

end Logged

section Switch

variable {hd parent newHead : ForkItem Block} {first second good rest : List (ForkItem Block)}
  {bad : ForkItem Block} {target : Id} {q' : List (Link Block)} {r : ℕ} {b : Block}
  {fork : ForkDatabase Block}

/-- Popping back to the common block after a failed switch: the blocks of the old branch are all
still there. -/
theorem Fork.returns (hk : Fork s hd newHead first second target q q')
    (h : Ahead base s hd parent newHead) (hu : s.undo[second.length - 1]? = some (r, c))
    (hs : first.reverse = good ++ bad :: rest) (hp : Fork.Partway base s s' c q good bad rest)
    (hc : c.ceiling (first.reverse.map ForkItem.block) ≤ c.headNum) {s₁ : Node Block Id Rest}
    (hr : (popTo (Fork.held newHead first second) target).run s' = .ok ⟨⟩ s₁) :
    Standing base s₁ q ∧ Stacked q second.reverse ∧ ∀ x ∈ second.reverse, x ∈ s₁.fork.index := by
  have hlen := (hk.reach_iff h hu hs hp).mpr hc
  obtain ⟨hqq, ht, r', c', hu', hb, hrep⟩ := hk.meet h (hk.length_le hu)
  obtain ⟨rfl, rfl⟩ : r = r' ∧ c = c' := by simpa [hu] using hu'
  obtain ⟨hover, hpath⟩ := hk.bad_path hs
  have hst := hp.standing
  rw [hover] at hst
  obtain ⟨s₂, hr₂, hs₂, hi₂, -, -, hd₂⟩ := hst.popUntil (Fork.held newHead first second)
    (by simpa using hlen) hp.head hpath (by simp) fun k hk' ↦ by
      have hm : k ∈ (good ++ bad :: rest).map ForkItem.self := by
        simp only [List.mem_cons, List.mem_reverse] at hk'
        simp only [List.map_append, List.map_cons, List.mem_append, List.mem_cons]
        exact hk'.symm.imp_right .inl
      obtain ⟨x, hx, rfl⟩ := List.mem_map.mp hm
      exact Fork.mem_held (List.mem_reverse.mp (hs ▸ hx))
  rw [popTo_run hp.head, ← ht, hr₂] at hr
  cases hr
  obtain ⟨hst₂, -⟩ := hk.down.stacked
  rw [← hqq] at hst₂
  refine ⟨hs₂, hst₂, fun x hx ↦ ?_⟩
  have hsuf := hk.down.suffix (List.mem_reverse.mp hx)
  have hxn : c.headNum < x.num := by
    obtain ⟨u, hu⟩ := hst₂.suffix hx
    have hlink := h.standing.linked.suffix hsuf
    rw [ForkItem.path, ← hu] at hlink
    rw [ChainState.headNum, ← hb.top]
    exact num_topId_lt (u := u) hlink
  have hn := ChainState.headNum_replay hrep
  have hn' := ChainState.headNum_replay hp.chain
  have hulen := hk.length_le hu
  simp only [List.length_map, List.length_reverse] at hn hn'
  have hfl : s.floor ≤ x.num := by
    unfold Node.floor
    omega
  have hin := h.standing.main x.self x.trail hsuf hfl
  have hval := h.standing.valid_of_suffix hsuf (Nat.le_trans h.standing.base_le_floor hfl)
  rw [hi₂]
  refine (hp.kept x hin ?_).resolve_right fun hv ↦ hv hval
  unfold Node.floor
  omega

/-- The state in which the blocks from the failing one on have been removed. -/
theorem Fork.partway_of (hk : Fork s hd newHead first second target q q')
    (hs₂ : Standing base s' q) (hi₂ : s'.fork.index = s.fork.index) (hfl₂ : s'.floor = s.floor)
    (hs : first.reverse = good ++ bad :: rest) {s₃ : Node Block Id Rest}
    (hs₃ : Standing base s₃ (pathOver q good)) (hpr : Pruned s' s₃)
    (hfl : s₃.floor = max s'.floor (s'.chain.ceiling (first.reverse.map ForkItem.block)))
    (hrep : s'.chain.replay (good.map ForkItem.block) = some s₃.chain)
    (hb : s₃.chain.apply bad.block = none) :
    Fork.Partway base s { s₃ with fork := removeItems (s₃.fork.setHead bad) (bad :: rest) }
      s'.chain q good bad rest := by
  have hst := hk.up.stacked.1
  rw [hs] at hst
  obtain ⟨hbt, hst⟩ := (stacked_append.mp hst).2
  have hmem : ∀ x ∈ good ++ bad :: rest, x ∈ s'.fork.index := fun x hx ↦
    hi₂ ▸ hk.mem x (List.mem_reverse.mp (hs ▸ hx))
  have hbmem := hmem bad (by simp)
  have hprev := hs₃.previous_eq hs₂.tree hbmem hbt
  obtain ⟨bs, hbs⟩ := hs₃.backed.replays
  have hvb := ChainState.not_valid_of_apply hbs hprev hb
  have hbn : base.headNum ≤ bad.num := by
    have hn := num_previous bad.block
    have hle := hs₃.base_le_floor
    rw [hprev] at hn
    unfold Node.floor at hle
    change num (id bad.block) = s₃.chain.headNum + 1 at hn
    change _ ≤ num (id bad.block)
    omega
  have hdoom : ∀ x ∈ bad :: rest, ¬ base.Valid x.block := by
    intro x hx
    rcases List.mem_cons.mp hx with rfl | hx
    · exact hvb
    · exact Stacked.not_valid hst (fun y hy ↦ hs₂.tree.linked y (hmem y (by simp [hy]))) hbn hvb
        x hx
  obtain ⟨hi, hh, -⟩ := @mem_removeItems _ _ _ _ _ (s₃.fork.setHead bad) (bad :: rest)
  refine ⟨(hs₃.congr_fork rfl rfl : Standing base { s₃ with fork := s₃.fork.setHead bad }
    (pathOver q good)).remove hdoom, hh, hrep, hb, hprev, hdoom, fun x hx ↦ ?_,
    fun x hx hl ↦ ?_, ?_⟩
  · rw [hi, List.mem_filter] at hx
    exact ⟨hi₂ ▸ hpr.subset x hx.1, by simpa using hx.2⟩
  · by_cases hid : x.id ∈ (bad :: rest).map ForkItem.id
    · obtain ⟨y, hy, he⟩ := List.mem_map.mp hid
      have hblock : y.block = x.block := BlockHeader.id_injective he
      exact .inr (hblock ▸ hdoom y hy)
    · refine .inl ?_
      rw [hi, List.mem_filter]
      exact ⟨hpr.kept x (hi₂ ▸ hx) hl, by simpa using hid⟩
  · change s₃.floor = _
    rw [hfl, hfl₂, hs]

/-- Whether a switch succeeds or the node goes back, the log stays on the chain. -/
theorem Ahead.logged (h : Ahead base s hd parent newHead) (hlog : Logged base pre s)
    (hf : s.fork.fetchBranchFrom newHead.id s.chain.headId = .ok (first, second))
    (hu : s.undo[second.length - 1]? = some (r, c))
    (hc : c.replay (first.reverse.map ForkItem.block) = none →
      c.ceiling (first.reverse.map ForkItem.block) ≤ c.headNum) :
    Logged base pre (after ((switchFork newHead).run s)) := by
  obtain ⟨target, q, q', hk⟩ := h.fork_of_fetch hf
  obtain ⟨s₂, hpop, hs₂, hi₂, -, hfl₂, -, r', hu'⟩ := hk.pops h (hk.length_le hu)
  obtain ⟨-, rfl⟩ : r = r' ∧ c = s₂.chain := by simpa [hu] using hu'
  have hmem : ∀ x ∈ first.reverse, x ∈ s₂.fork.index := fun x hx ↦
    hi₂ ▸ hk.mem x (List.mem_reverse.mp hx)
  have h₃ := (hlog.popTo hpop).pushItems (Fork.held newHead first second) hs₂ hmem
    hk.up.stacked.1
  obtain ⟨good, rest, s₃, hs, hs₃, hpr, hfl, hrep, -, -, hres⟩ :=
    pushItems_spec (Fork.held newHead first second) hs₂ hmem hk.up.stacked.1
  rw [hk.switch_run hf, hpop]
  rcases hres with ⟨-, hp, -⟩ | ⟨bad, rest, e, rfl, hb, hp⟩
  · rw [hp] at h₃
    simp only [hp]
    exact h₃
  · rw [hp] at h₃
    have hway := hk.partway_of hs₂ hi₂ hfl₂ hs hs₃ hpr hfl hrep hb
    have hle := hc (by rw [hs, List.map_append, List.map_cons, ChainState.replay_stuck hrep hb])
    obtain ⟨s₁, -, hback, -⟩ := hk.restores h hu hs hway hle
    obtain ⟨hs₁, hst, hold⟩ := hk.returns h hu hs hway hle hback
    have h₅ := ((h₃.setFork _).popTo hback).pushItems (Fork.held newHead first second) hs₁ hold hst
    simp only [hp, hback, restoreItems_eq]
    generalize Node.pushItems (Fork.held newHead first second) second.reverse s₁ = r at h₅ ⊢
    obtain ⟨s₆, _ | ⟨e', bad'⟩⟩ := r
    · exact h₅
    · exact h₅

theorem Intact.logged (h : Intact base s hd) (hlog : Logged base pre s) (hok : StepOk s b) :
    Logged base pre (s.push b) := by
  unfold Node.push
  cases hp : s.fork.pushBlock b with
  | error e =>
    rw [pushBlock_error hp]
    exact hlog
  | ok branch =>
    obtain ⟨newHead, fork⟩ := branch
    by_cases hn : s.chain.headNum < num (id b)
    · by_cases he : previous b = s.chain.headId
      · obtain ⟨c, hc⟩ := Option.isSome_iff_exists.mp (hok.extends_head he)
        obtain ⟨hb, hh, hi, parent, hpar, hid, -, ht⟩ := h.push_higher hp hn
        have hpe : parent = hd := h.standing.tree.eq_of_id hpar h.mem (by rw [hid, he, h.id_eq])
        have hmem : newHead ∈ ({ s with fork := fork } : Node Block Id Rest).fork.index := by
          change newHead ∈ fork.index
          rw [hi]
          exact List.mem_append_right _ List.mem_cons_self
        have hset : fork.setHead newHead = fork := by
          rw [ForkDatabase.setHead, ← hh]
        obtain ⟨s', hr, -, -, hlog'⟩ := (hlog.setFork fork).apply (h.standing_push hp) hmem
          (hpe ▸ ht) (hb ▸ hc) [newHead.ref]
        rw [hb, hset] at hr
        rw [pushBlock_extends hp (by rw [hb, he]), hr]
        exact hlog'
      · have hl : Longer s b := ⟨⟨newHead, fork, hp⟩, he, hn⟩
        obtain ⟨newHead', fork', parent, hp', -, ha, hrun⟩ := h.switch_iff hl
        obtain ⟨newHead'', fork'', first, second, session, hp'', hf, hu, hc⟩ := hok.switchable hl
        rw [hp'] at hp''
        cases hp''
        rw [hrun]
        exact ha.logged (hlog.setFork _) hf hu hc
    · rw [(h.push_lower hp hn).1]
      exact hlog.setFork _

/-- The first block from genesis. -/
theorem logged_first (hi : base.headId = zero) (hl : base.lib = 0)
    (hlog : Logged base pre (atGenesis base)) (hok : StepOk (atGenesis base) b) :
    Logged base pre ((atGenesis base).push b) := by
  obtain ⟨c, -, hc, -⟩ := push_first hi hl hok
  have hp : (atGenesis base : Node Block Id Rest).fork.pushBlock b =
      .ok (⟨⟨0, b⟩, []⟩, ForkDatabase.first b) := pushBlock_empty b
  have hz : base.headNum = 0 := by rw [ChainState.headNum, hi, BlockId.num_zero]
  have he : previous b = base.headId := (ChainState.apply_eq_some hc).1
  have htree : Tree base 0 (ForkDatabase.first b) :=
    (tree_empty base 0).push (fun _ ↦ by rw [he, hi]) (pushBlock_empty b)
  have hst : Standing base ⟨ForkDatabase.first b, base, [], []⟩ ([] : List (Link Block)) :=
    ⟨⟨hi.symm, [], rfl⟩, by omega, by simp [Node.floor, hz], List.isChain_nil,
      fun l t hs ↦ by simp at hs, by simpa [Node.floor, hz] using htree⟩
  have hlog : Logged base pre ⟨ForkDatabase.first b, base, [], []⟩ := hlog.setFork _
  have hmem : (⟨⟨0, b⟩, []⟩ : ForkItem Block) ∈ (ForkDatabase.first b).index := List.mem_cons_self
  obtain ⟨s', hr, -, -, hlog'⟩ := hlog.apply hst hmem rfl hc [0]
  have hr : (applyInSession [ForkItem.ref ⟨⟨0, b⟩, []⟩] b).run
      { (atGenesis base : Node Block Id Rest) with fork := ForkDatabase.first b } = .ok ⟨⟩ s' := hr
  rw [Node.push, pushBlock_extends hp he, hr]
  exact hlog'

theorem Start.logged (hs : Start base s) (hlen : s.log.length = base.headNum) :
    Logged base s.log s := by
  cases hs with
  | genesis hi hl => exact ⟨hlen, ⟨[], rfl⟩, ⟨[], rfl, List.prefix_append _ _⟩, Nat.zero_le _⟩
  | opened hi hl hlog =>
    exact ⟨hlen, ⟨[], rfl⟩, ⟨[], rfl, List.prefix_append _ _⟩, Nat.le_of_eq hlen⟩

theorem Settled.logged (h : Settled base s) (hlog : Logged base pre s) {blocks : List Block}
    (hok : StepsOk s blocks) : Logged base pre (s.deliver blocks) := by
  induction blocks generalizing s with
  | nil => exact hlog
  | cons b blocks ih =>
    refine ih (h.step hok.1).1 ?_ hok.2
    rcases h.node with hs | ⟨hd, hi⟩
    · cases hs with
      | genesis hi hl => exact logged_first hi hl hlog hok.1
      | opened hi hl hle => exact (Intact.opened hi hl hle).logged hlog hok.1
    · exact hi.logged hlog hok.1

theorem Settled.log_eq (h : Settled base s) (hlog : Logged base pre s)
    (hbs : base.replay bs = some s.chain) : s.log = (pre ++ bs).take s.floor := by
  have hle : s.floor ≤ s.log.length := by
    rcases h.node with hs | ⟨hd, hi⟩
    · cases hs with
      | genesis hi hl =>
        rw [Node.floor, atGenesis, ChainState.headNum, hi, BlockId.num_zero]
        exact Nat.zero_le _
      | opened hi hl hle => exact hle
    · exact hi.standing.floor_log
  rw [← Nat.le_antisymm hlog.length_le hle]
  exact List.prefix_iff_eq_take.mp (hlog.log_prefix hbs)

end Switch

section Run

theorem Settled.base_le_floor (h : Settled base s) : base.headNum ≤ s.floor := by
  rcases h.node with hs | ⟨hd, hi⟩
  · cases hs <;> exact Nat.le_refl _
  · exact hi.standing.base_le_floor

theorem Settled.floor_le (h : Settled base s) {blocks : List Block} (hok : StepsOk s blocks) :
    s.floor ≤ (s.deliver blocks).floor := by
  induction blocks generalizing s with
  | nil => exact Nat.le_refl _
  | cons b blocks ih =>
    obtain ⟨h', hs⟩ := h.step hok.1
    exact hs.floor.trans (ih h' hok.2)

theorem Settled.log_length (h : Settled base s) (hlog : Logged base pre s) :
    s.log.length = s.floor := by
  obtain ⟨bs, hbs⟩ := h.replays
  have hn := ChainState.headNum_replay hbs
  have hpre := hlog.base_length
  have hfl : s.floor ≤ s.chain.headNum := Nat.sub_le _ _
  rw [h.log_eq hlog hbs, List.length_take, List.length_append]
  omega

/-- What is in the log stays there. -/
theorem Settled.log_mono (h : Settled base s) (hlog : Logged base pre s) {blocks : List Block}
    (hok : StepsOk s blocks) : s.log <+: (s.deliver blocks).log := by
  obtain ⟨hrun, bs, bs', hbs, hbs', -, -, hkept⟩ := h.run hok
  rw [h.log_eq hlog hbs, hrun.log_eq (h.logged hlog hok) hbs']
  have hpre := hlog.base_length
  have hbase := h.base_le_floor
  have hcut : (pre ++ bs).take s.floor = (pre ++ bs').take s.floor := by
    rw [List.take_append, List.take_append, hpre, hkept]
  rw [hcut]
  exact List.take_prefix_take_left (h.floor_le hok)

/-- In every run from genesis, or from a node opened with the log of its chain, whose blocks on the
head apply and whose switches have what they need, the block log holds the blocks of the chain up
to the floor and no others, and it is only appended to, whatever branches the node is on. -/
theorem log_follows_chain (hs : Start base s) (hlen : s.log.length = base.headNum)
    {earlier later : List Block} (hok : StepsOk s (earlier ++ later)) :
    ∃ bs : List Block, base.replay bs = some (s.deliver (earlier ++ later)).chain ∧
      (s.deliver (earlier ++ later)).log =
        (s.log ++ bs).take (s.deliver (earlier ++ later)).floor ∧
      (s.deliver (earlier ++ later)).chain.lib ≤ (s.deliver (earlier ++ later)).log.length ∧
      (s.deliver earlier).log <+: (s.deliver (earlier ++ later)).log := by
  have hlog := hs.logged hlen
  obtain ⟨hok₁, hok₂⟩ := stepsOk_append.mp hok
  have hrun := (hs.settled.run hok).1
  obtain ⟨bs, hbs⟩ := hrun.replays
  refine ⟨bs, hbs, hrun.log_eq (hs.settled.logged hlog hok) hbs, ?_, ?_⟩
  · rw [hrun.log_length (hs.settled.logged hlog hok)]
    exact hrun.lib
  · have hmono := (hs.settled.run hok₁).1.log_mono (hs.settled.logged hlog hok₁) hok₂
    rwa [Node.deliver, Node.deliver, ← List.foldl_append] at hmono

end Run

section Blocks

/-- Every block builds on the head and applies. -/
def extendsAll (s : Node BranchBlock BranchId (Confirmations Unit Unit)) : List BranchBlock → Bool
  | [] => true
  | b :: blocks =>
    previous b = s.chain.headId && (s.chain.apply b).isSome && extendsAll (s.push b) blocks

theorem stepsOk_of_extendsAll {s : Node BranchBlock BranchId (Confirmations Unit Unit)}
    {blocks : List BranchBlock} (h : extendsAll s blocks = true) : StepsOk s blocks := by
  induction blocks generalizing s with
  | nil => trivial
  | cons b blocks ih =>
    simp only [extendsAll, Bool.and_eq_true, decide_eq_true_eq] at h
    exact ⟨stepOk_next h.1.1 h.1.2, ih h.2⟩

/-- Two of 23 blocks are irreversible. -/
theorem log_follows_chain_main :
    ((atGenesis branchGenesis).deliver (mainBlocks 22 ++ [⟨false, 22⟩])).log = mainBlocks 2 ∧
      ∃ bs : List BranchBlock, branchGenesis.replay bs =
        some ((atGenesis branchGenesis).deliver (mainBlocks 22 ++ [⟨false, 22⟩])).chain ∧
      ((atGenesis branchGenesis).deliver (mainBlocks 22 ++ [⟨false, 22⟩])).log =
        bs.take ((atGenesis branchGenesis).deliver (mainBlocks 22 ++ [⟨false, 22⟩])).floor := by
  have hs : Start branchGenesis (atGenesis branchGenesis : Node BranchBlock _ _) := .genesis rfl rfl
  obtain ⟨bs, hbs, hlog, -⟩ := log_follows_chain hs rfl
    (stepsOk_of_extendsAll (by decide +kernel) :
      StepsOk (atGenesis branchGenesis) (mainBlocks 22 ++ [⟨false, 22⟩]))
  exact ⟨by decide +kernel, bs, hbs, hlog⟩

end Blocks

end Taiyi.Chain
