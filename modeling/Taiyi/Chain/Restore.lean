import Taiyi.Chain.Switch

set_option autoImplicit false

namespace Taiyi.Chain

open ForkDatabase Node

variable {Block Id Rest : Type} [BlockId Id] [BlockHeader Block Id] [DecidableEq Id]
  [Evaluation Block Id Rest]

section Doomed

variable {base : ChainState Id Rest} {s : Node Block Id Rest} {p : List (Link Block)}

/-- An item whose trail is the path the chain stands on builds on the chain's head. -/
theorem Standing.previous_eq (h : Standing base s p) {db : ForkDatabase Block} {floor : ℕ}
    (ht : Tree base floor db) {it : ForkItem Block} (hit : it ∈ db.index) (hp : it.trail = p) :
    previous it.block = s.chain.headId := by
  have hl := ht.linked it hit
  rw [ForkItem.path, hp] at hl
  rw [← h.top]
  rcases (linked_cons.mp hl).1 with rfl | he
  · have htop := h.top
    have hle := h.base_le_floor
    have hpath : it.path = [it.self] := by rw [ForkItem.path, hp]
    rcases ht.rooted it hit it.self (hpath ▸ List.suffix_refl _) with hz | hb
    · exact hz
    · have hn := num_previous it.self.block
      have hc : s.chain.headNum = 0 := by
        rw [ChainState.headNum, ← htop, topId, BlockId.num_zero]
      unfold Node.floor at hle
      omega
  · exact he

/-- What stands on a block that is not valid is not valid. -/
theorem Stacked.not_valid {items : List (ForkItem Block)} {it : ForkItem Block}
    (hst : Stacked it.path items) (hl : ∀ x ∈ items, Linked x.path)
    (hn : base.headNum ≤ it.num) (hv : ¬ base.Valid it.block) :
    ∀ x ∈ items, ¬ base.Valid x.block := by
  induction items generalizing it with
  | nil => simp
  | cons y items ih =>
    have hly := hl y List.mem_cons_self
    rw [ForkItem.path, hst.1] at hly
    have hp : previous y.block = id it.block :=
      (linked_cons.mp hly).1.resolve_left (by simp [ForkItem.path])
    have hy : ¬ base.Valid y.block := fun hval ↦ hv (hval.previous hp hn)
    have hny : base.headNum ≤ y.num := by
      have := num_previous y.block
      rw [hp] at this
      change base.headNum ≤ num (id it.block) at hn
      change base.headNum ≤ num (id y.block)
      omega
    intro x hx
    rcases List.mem_cons.mp hx with rfl | hx
    · exact hy
    · exact ih hst.2 (fun z hz ↦ hl z (List.mem_cons_of_mem _ hz)) hny hy x hx

/-- Removing items that are not valid leaves the chain standing. -/
theorem Standing.remove (h : Standing base s p) {items : List (ForkItem Block)}
    (hv : ∀ x ∈ items, ¬ base.Valid x.block) :
    Standing base { s with fork := removeItems s.fork items } p := by
  obtain ⟨hi, -, hn⟩ := @mem_removeItems _ _ _ _ _ s.fork items
  have hid : ∀ it : ForkItem Block, it.id ∈ items.map ForkItem.id → ¬ base.Valid it.block := by
    intro it hit hval
    obtain ⟨x, hx, he⟩ := List.mem_map.mp hit
    have hb : x.block = it.block := BlockHeader.id_injective he
    exact hv x hx (hb ▸ hval)
  refine ⟨h.backed, h.base_lib, h.floor_log, h.linked, fun l t hs hl ↦ ?_,
    h.tree.filter hi hn fun it _ hk ↦ .inr (hid it (by simpa using hk))⟩
  change (⟨l, t⟩ : ForkItem Block) ∈ (removeItems s.fork items).index
  rw [hi, List.mem_filter]
  have hval := h.valid_of_suffix hs (Nat.le_trans h.base_le_floor hl)
  exact ⟨h.main l t hs hl, by simpa using fun hm ↦ hid ⟨l, t⟩ hm hval⟩

end Doomed

/-- The node after a switch that took over the new branch. -/
structure Adopted (base : ChainState Id Rest) (s s' : Node Block Id Rest)
    (newHead : ForkItem Block) (c : ChainState Id Rest) (branch : List Block) : Prop where
  standing : Standing base s' newHead.path
  head : s'.fork.head = some newHead
  chain : c.replay branch = some s'.chain
  pruned : Pruned s s'
  floor : s'.floor = max s.floor (c.ceiling branch)
  sized : Sized s'

/-- The node after a switch that failed and went back to the old branch. -/
structure Restored (base : ChainState Id Rest) (s s' : Node Block Id Rest)
    (hd : ForkItem Block) (c : ChainState Id Rest) (branch old : List Block)
    (removed : List (ForkItem Block)) : Prop where
  standing : Standing base s' hd.path
  head : s'.fork.head = some hd
  chain : s'.chain = s.chain
  subset : ∀ x ∈ s'.fork.index, x ∈ s.fork.index ∧ x.id ∉ removed.map ForkItem.id
  kept : ∀ x ∈ s.fork.index, s'.floor ≤ x.num → x ∈ s'.fork.index ∨ ¬ base.Valid x.block
  floor : s'.floor = max (max s.floor (c.ceiling branch)) (c.ceiling old)
  sized : Sized s'

namespace Fork

variable {base : ChainState Id Rest} {s : Node Block Id Rest} {hd parent newHead : ForkItem Block}
  {first second : List (ForkItem Block)} {target : Id} {q q' : List (Link Block)}

/-- All blocks of the new branch apply on the content of the common block. -/
theorem adopts (hk : Fork s hd newHead first second target q q')
    (h : Ahead base s hd parent newHead)
    (hf : s.fork.fetchBranchFrom newHead.id s.chain.headId = .ok (first, second))
    {r : ℕ} {c d : ChainState Id Rest} (hu : s.undo[second.length - 1]? = some (r, c))
    (hr : c.replay (first.reverse.map ForkItem.block) = some d) :
    ∃ s', (switchFork newHead).run s = .ok true s' ∧
      Adopted base s s' newHead c (first.reverse.map ForkItem.block) := by
  obtain ⟨s₂, hpop, hs₂, hi₂, hn₂, hfl₂, -, r', hu'⟩ := hk.pops h (hk.length_le hu)
  obtain ⟨-, rfl⟩ : r = r' ∧ c = s₂.chain := by simpa [hu] using hu'
  obtain ⟨hst, hover⟩ := hk.up.stacked
  obtain ⟨good, rest, s₃, hsplit, hs₃, hpr, hfl, hrep, -, hsz, hres⟩ :=
    pushItems_spec (held newHead first second) hs₂ (fun x hx ↦ by
      rw [hi₂]
      exact hk.mem x (List.mem_reverse.mp hx)) hst
  rcases hres with ⟨rfl, hp, hh⟩ | ⟨bad, rest', e, rfl, hb, -⟩
  · rw [List.append_nil] at hsplit
    subst hsplit
    refine ⟨s₃, by rw [hk.switch_run hf, hpop]; simp only [hp], hover ▸ hs₃, ?_, hrep, ?_, ?_,
      hsz ?_⟩
    · obtain ⟨f, l, hfirst, -⟩ := hk.first_last
      cases first with
      | nil => simp at hfirst
      | cons x f =>
        rw [hh, Spine.head_eq hk.up]
        simp
    · exact ⟨fun x hx ↦ hi₂ ▸ hpr.subset x hx, fun x hx ↦ hpr.kept x (hi₂ ▸ hx),
        hpr.nextRef.trans hn₂⟩
    · rw [hfl, hfl₂]
    · obtain ⟨f, l, rfl, -⟩ := hk.first_last
      simp
  · rw [hsplit, List.map_append, List.map_cons, ChainState.replay_stuck hrep hb] at hr
    cases hr

/-- The node after the failing block of the new branch and its successors are removed. -/
structure Partway (base : ChainState Id Rest) (s s' : Node Block Id Rest)
    (c : ChainState Id Rest) (q : List (Link Block)) (good : List (ForkItem Block))
    (bad : ForkItem Block) (rest : List (ForkItem Block)) : Prop where
  standing : Standing base s' (pathOver q good)
  head : s'.fork.head = some bad
  chain : c.replay (good.map ForkItem.block) = some s'.chain
  fails : s'.chain.apply bad.block = none
  builds : previous bad.block = s'.chain.headId
  doomed : ∀ x ∈ bad :: rest, ¬ base.Valid x.block
  subset : ∀ x ∈ s'.fork.index, x ∈ s.fork.index ∧ x.id ∉ (bad :: rest).map ForkItem.id
  kept : ∀ x ∈ s.fork.index, s'.floor ≤ x.num → x ∈ s'.fork.index ∨ ¬ base.Valid x.block
  floor : s'.floor = max s.floor (c.ceiling ((good ++ bad :: rest).map ForkItem.block))

theorem partway (hk : Fork s hd newHead first second target q q')
    (h : Ahead base s hd parent newHead)
    (hf : s.fork.fetchBranchFrom newHead.id s.chain.headId = .ok (first, second))
    {r : ℕ} {c : ChainState Id Rest} (hu : s.undo[second.length - 1]? = some (r, c))
    (hr : c.replay (first.reverse.map ForkItem.block) = none) :
    ∃ good bad rest e s', first.reverse = good ++ bad :: rest ∧
      Partway base s s' c q good bad rest ∧
      (switchFork newHead).run s =
        match (popTo (held newHead first second) target).run s' with
        | .error e s => .error e s
        | .ok _ s =>
          match (restoreItems (held newHead first second) second.reverse).run s with
          | .error e s => .error e s
          | .ok _ s => .error e s := by
  obtain ⟨s₂, hpop, hs₂, hi₂, hn₂, hfl₂, -, r', hu'⟩ := hk.pops h (hk.length_le hu)
  obtain ⟨-, rfl⟩ : r = r' ∧ c = s₂.chain := by simpa [hu] using hu'
  obtain ⟨hst, hover⟩ := hk.up.stacked
  have hmem : ∀ x ∈ first.reverse, x ∈ s₂.fork.index := by
    intro x hx
    rw [hi₂]
    exact hk.mem x (List.mem_reverse.mp hx)
  have hlinked : ∀ x ∈ first.reverse, Linked x.path := fun x hx ↦
    hs₂.tree.linked x (hmem x hx)
  obtain ⟨good, rest, s₃, hsplit, hs₃, hpr, hfl, hrep, -, -, hres⟩ :=
    pushItems_spec (held newHead first second) hs₂ hmem hst
  rcases hres with ⟨rfl, -, -⟩ | ⟨bad, rest, e, rfl, hb, hp⟩
  · rw [hsplit, List.append_nil, hrep] at hr
    cases hr
  · rw [hsplit] at hst hmem hlinked
    obtain ⟨hbt, hst⟩ := (stacked_append.mp hst).2
    have hbmem := hmem bad (by simp)
    have hprev := hs₃.previous_eq hs₂.tree hbmem hbt
    obtain ⟨bs, hbs⟩ := hs₃.backed.replays
    have hvb := ChainState.not_valid_of_apply hbs hprev hb
    have hbn : base.headNum ≤ bad.num := by
      have hn := num_previous bad.block
      have hle := hs₃.base_le_floor
      rw [hprev] at hn
      change num (id bad.block) = s₃.chain.headNum + 1 at hn
      unfold Node.floor at hle
      change _ ≤ num (id bad.block)
      omega
    have hdoom : ∀ x ∈ bad :: rest, ¬ base.Valid x.block := by
      intro x hx
      rcases List.mem_cons.mp hx with rfl | hx
      · exact hvb
      · exact Stacked.not_valid hst (fun y hy ↦ hlinked y (by simp [hy])) hbn hvb x hx
    have hset : Standing base { s₃ with fork := s₃.fork.setHead bad } (pathOver q good) :=
      hs₃.congr_fork rfl rfl
    obtain ⟨hi, hh, -⟩ := @mem_removeItems _ _ _ _ _ (s₃.fork.setHead bad) (bad :: rest)
    refine ⟨good, bad, rest, e,
      { s₃ with fork := removeItems (s₃.fork.setHead bad) (bad :: rest) }, hsplit,
      ⟨hset.remove hdoom, hh, hrep, hb, hprev, hdoom, fun x hx ↦ ?_, fun x hx hl ↦ ?_, ?_⟩, ?_⟩
    · rw [hi, List.mem_filter] at hx
      exact ⟨hi₂ ▸ hpr.subset x hx.1, by simpa using hx.2⟩
    · by_cases hid : x.id ∈ (bad :: rest).map ForkItem.id
      · obtain ⟨y, hy, he⟩ := List.mem_map.mp hid
        have hblock : y.block = x.block := BlockHeader.id_injective he
        exact .inr (hblock ▸ hdoom y hy)
      · refine .inl ?_
        rw [hi, List.mem_filter]
        exact ⟨hpr.kept x (hi₂ ▸ hx) hl, by simpa using hid⟩
    · change s₃.floor = _
      rw [hfl, hfl₂, hsplit]
    · rw [hk.switch_run hf, hpop]
      simp only [hp] <;> rfl

section Back

variable {c : ChainState Id Rest} {good rest : List (ForkItem Block)} {bad : ForkItem Block}
  {s' : Node Block Id Rest} {r : ℕ}

/-- The heights of a partial switch: the common block, and what the sessions still reach. -/
theorem reach_iff (hk : Fork s hd newHead first second target q q')
    (h : Ahead base s hd parent newHead) (hu : s.undo[second.length - 1]? = some (r, c))
    (hs : first.reverse = good ++ bad :: rest) (hp : Partway base s s' c q good bad rest) :
    good.length ≤ s'.undo.length ↔
      c.ceiling (first.reverse.map ForkItem.block) ≤ c.headNum := by
  obtain ⟨-, -, r', c', hu', -, hrep⟩ := hk.meet h (hk.length_le hu)
  obtain ⟨rfl, rfl⟩ : r = r' ∧ c = c' := by simpa [hu] using hu'
  have hn := ChainState.headNum_replay hrep
  have hn' := ChainState.headNum_replay hp.chain
  have hle := hp.standing.backed.length_le.2
  have hfl := hp.floor
  have hlen := hk.length_le hu
  simp only [List.length_map, List.length_reverse] at hn hn'
  simp only [Node.floor] at hfl
  rw [hs]
  omega

/-- The sessions do not reach the common block any more: the content stays that of a block of
the new branch. -/
theorem stuck (hk : Fork s hd newHead first second target q q')
    (h : Ahead base s hd parent newHead) (hu : s.undo[second.length - 1]? = some (r, c))
    (hs : first.reverse = good ++ bad :: rest) (hp : Partway base s s' c q good bad rest)
    (hc : c.headNum < c.ceiling (first.reverse.map ForkItem.block)) :
    ∃ e s'', (popTo (held newHead first second) target).run s' = .error e s'' ∧
      s''.chain.headId ≠ s.chain.headId := by
  have hlen : s'.undo.length < good.length := by
    have := (hk.reach_iff h hu hs hp).not
    omega
  obtain ⟨-, ht, -⟩ := hk.meet h (hk.length_le hu)
  have hst := hp.standing
  rw [(hk.bad_path hs).1] at hst
  have hne : ∀ l ∈ (good.map ForkItem.self).reverse, id l.block ≠ target := by
    intro l hl he
    obtain ⟨u, v, huv⟩ := List.append_of_mem hl
    have hlink := hst.linked
    rw [huv, List.append_assoc] at hlink
    have hlt := num_topId_lt (hlink.suffix (List.suffix_append _ _))
    rw [ht, he] at hlt
    exact Nat.lt_irrefl _ hlt
  obtain ⟨e, s'', hr, -, l, hl, hi⟩ := hst.popUntil_blocked (held newHead first second) hne
    (by simpa using hlen) hp.head
  refine ⟨e, s'', by rw [popTo_run hp.head, hr], fun he ↦ ?_⟩
  obtain ⟨x, hx, rfl⟩ := List.mem_map.mp (List.mem_reverse.mp hl)
  have hxf : x ∈ first := by
    rw [← List.mem_reverse, hs]
    exact List.mem_append_left _ hx
  have hid : x.id = hd.id := by
    rw [hi, ← h.standing.top] at he
    exact he
  have hx := h.standing.tree.eq_of_id (hk.mem x hxf) h.old_mem hid
  exact h.not_suffix (hx ▸ hk.up.suffix hxf)

/-- The sessions reach the common block: the old branch is applied again as it was. -/
theorem restores (hk : Fork s hd newHead first second target q q')
    (h : Ahead base s hd parent newHead) (hu : s.undo[second.length - 1]? = some (r, c))
    (hs : first.reverse = good ++ bad :: rest) (hp : Partway base s s' c q good bad rest)
    (hc : c.ceiling (first.reverse.map ForkItem.block) ≤ c.headNum) :
    ∃ s₁ s₂, (popTo (held newHead first second) target).run s' = .ok ⟨⟩ s₁ ∧
      (restoreItems (held newHead first second) second.reverse).run s₁ = .ok ⟨⟩ s₂ ∧
      Restored base s s₂ hd c (first.reverse.map ForkItem.block)
        (second.reverse.map ForkItem.block) (bad :: rest) := by
  have hlen := (hk.reach_iff h hu hs hp).mpr hc
  obtain ⟨hqq, ht, r', c', hu', hb, hrep⟩ := hk.meet h (hk.length_le hu)
  obtain ⟨rfl, rfl⟩ : r = r' ∧ c = c' := by simpa [hu] using hu'
  obtain ⟨hover, hpath⟩ := hk.bad_path hs
  have hst := hp.standing
  rw [hover] at hst
  obtain ⟨s₁, hr, hs₁, hi₁, hn₁, -, hd₁⟩ := hst.popUntil (held newHead first second)
    (by simpa using hlen) hp.head hpath (by simp) (fun k hk' ↦ by
      have hm : k ∈ (good ++ bad :: rest).map ForkItem.self := by
        simp only [List.mem_cons, List.mem_reverse] at hk'
        simp only [List.map_append, List.map_cons, List.mem_append, List.mem_cons]
        rcases hk' with rfl | hk'
        · exact .inr (.inl rfl)
        · exact .inl hk'
      obtain ⟨x, hx, rfl⟩ := List.mem_map.mp hm
      rw [← hs] at hx
      exact mem_held (List.mem_reverse.mp hx))
  rw [ht] at hr
  have hc₁ : s₁.chain = c := by
    obtain ⟨bs, hbs⟩ := hs₁.backed.replays
    obtain ⟨bs', hbs'⟩ := hb.replays
    exact ChainState.replay_state_unique hbs hbs' (by rw [← hs₁.top, ← hb.top])
  have hn := ChainState.headNum_replay hp.chain
  have hn' := ChainState.headNum_replay hrep
  have hle := hp.standing.backed.length_le.2
  have hle' := h.standing.backed.length_le.2
  have hulen := hk.length_le hu
  simp only [List.length_map, List.length_reverse] at hn hn'
  have hfl₁ : s₁.floor = s'.floor := by
    simp only [Node.floor, hc₁, hd₁, List.length_drop, List.length_reverse, List.length_map]
    omega
  have hflc : s'.floor ≤ c.headNum := by
    unfold Node.floor
    omega
  obtain ⟨hst₂, hover₂⟩ := hk.down.stacked
  rw [← hqq] at hst₂ hover₂
  have hmem : ∀ x ∈ second.reverse, x ∈ s₁.fork.index := by
    intro x hx
    have hsuf := hk.down.suffix (List.mem_reverse.mp hx)
    have hxn : c.headNum < x.num := by
      have hq := hst₂.suffix hx
      have hlink := h.standing.linked.suffix hsuf
      obtain ⟨u, hu⟩ := hq
      rw [ForkItem.path, ← hu] at hlink
      have hlt := num_topId_lt (u := u) hlink
      rw [ChainState.headNum, ← hb.top]
      exact hlt
    have hfl : s.floor ≤ x.num := by
      unfold Node.floor
      omega
    have hin := h.standing.main x.self x.trail hsuf hfl
    have hval := h.standing.valid_of_suffix hsuf (Nat.le_trans h.standing.base_le_floor hfl)
    rw [hi₁]
    exact (hp.kept x hin (by omega)).resolve_right (fun hv ↦ hv hval)
  obtain ⟨good', rest', s₂, hsplit, hs₂, hpr, hfl₂, hrep₂, -, hsz, hres⟩ :=
    pushItems_spec (held newHead first second) hs₁ hmem hst₂
  rw [hc₁] at hfl₂ hrep₂
  rcases hres with ⟨rfl, hpush, hh⟩ | ⟨bad', rest'', e, rfl, hb', -⟩
  · rw [List.append_nil] at hsplit
    subst hsplit
    rw [hover₂] at hs₂
    refine ⟨s₁, s₂, by rw [popTo_run hp.head, hr], by rw [restoreItems_eq, hpush],
      hs₂, ?_, hs₂.chain_eq h.standing, fun x hx ↦ ?_, fun x hx hl ↦ ?_, ?_, hsz ?_⟩
    · obtain ⟨f, l, hsec, -⟩ := hk.second_last
      cases second with
      | nil => simp at hsec
      | cons x f =>
        rw [hh, Spine.head_eq hk.down]
        simp
    · exact hp.subset x (hi₁ ▸ hpr.subset x hx)
    · refine (hp.kept x hx (by omega)).imp_left fun hin ↦ ?_
      exact hpr.kept x (hi₁ ▸ hin) hl
    · rw [hfl₂, hfl₁, hp.floor, hs]
    · obtain ⟨f, l, rfl, -⟩ := hk.second_last
      simp
  · rw [hsplit, List.map_append, List.map_cons, ChainState.replay_stuck hrep₂ hb'] at hrep
    cases hrep

end Back

end Fork

end Taiyi.Chain
