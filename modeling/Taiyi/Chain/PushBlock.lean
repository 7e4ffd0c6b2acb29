import Taiyi.Chain.Restore

set_option autoImplicit false

namespace Taiyi.Chain

open ForkDatabase Node

variable {Block Id Rest : Type} [BlockId Id] [BlockHeader Block Id] [DecidableEq Id]
  [Evaluation Block Id Rest]

variable {base : ChainState Id Rest} {s : Node Block Id Rest} {hd newHead : ForkItem Block}
  {b : Block} {fork : ForkDatabase Block}

theorem pushBlock_error {e : String} (hp : s.fork.pushBlock b = .error e) :
    (Node.pushBlock b).run s = .error e s := by
  simp only [EStateM.run, Node.pushBlock, hp]

theorem pushBlock_longer (hp : s.fork.pushBlock b = .ok (newHead, fork))
    (hne : previous newHead.block ≠ s.chain.headId) (hn : s.chain.headNum < newHead.num) :
    (Node.pushBlock b).run s = (switchFork newHead).run { s with fork := fork } := by
  simp only [EStateM.run, Node.pushBlock, hp, if_pos hne, if_pos hn]

theorem pushBlock_shorter (hp : s.fork.pushBlock b = .ok (newHead, fork))
    (hne : previous newHead.block ≠ s.chain.headId) (hn : ¬ s.chain.headNum < newHead.num) :
    (Node.pushBlock b).run s = .ok false { s with fork := fork } := by
  simp only [EStateM.run, Node.pushBlock, hp, if_pos hne, if_neg hn]

theorem pushBlock_extends (hp : s.fork.pushBlock b = .ok (newHead, fork))
    (he : previous newHead.block = s.chain.headId) :
    (Node.pushBlock b).run s =
      match (applyInSession [newHead.ref] b).run { s with fork := fork } with
      | .ok _ s' => .ok false s'
      | .error e s' => .error e { s' with fork := s'.fork.remove (BlockHeader.id b) } := by
  have hne : ¬ previous newHead.block ≠ s.chain.headId := not_not.mpr he
  simp only [EStateM.run, Node.pushBlock, hp, if_neg hne] <;> rfl

/-- The new branch was taken over, or a block of it failed and the old branch is back. -/
inductive Switched (base : ChainState Id Rest) (s : Node Block Id Rest)
    (hd newHead : ForkItem Block) : EStateM.Result String (Node Block Id Rest) Bool → Prop
  | adopted {s' : Node Block Id Rest} {c : ChainState Id Rest} {bs branch : List Block} (hc : base.replay bs = some c)
      (hn : newHead.block ∈ branch.getLast?) (h : Adopted base s s' newHead c branch) :
      Switched base s hd newHead (.ok true s')
  | restored {e : String} {s' : Node Block Id Rest} {c d : ChainState Id Rest}
      {bs old : List Block} {good rest : List (ForkItem Block)} {bad : ForkItem Block}
      (hc : base.replay bs = some c)
      (hg : c.replay (good.map ForkItem.block) = some d)
      (hp : previous bad.block = d.headId) (hb : d.apply bad.block = none)
      (hn : newHead ∈ (bad :: rest).getLast?)
      (hch : ((bad :: rest).map ForkItem.block).IsChain (fun x y ↦ previous y = id x))
      (hv : ∀ x ∈ bad :: rest, ¬ base.Valid x.block)
      (h : Restored base s s' hd c ((good ++ bad :: rest).map ForkItem.block) old (bad :: rest)) :
      Switched base s hd newHead (.error e s')

theorem Ahead.switched {parent : ForkItem Block} (h : Ahead base s hd parent newHead)
    {first second : List (ForkItem Block)}
    (hf : s.fork.fetchBranchFrom newHead.id s.chain.headId = .ok (first, second))
    {r : ℕ} {c : ChainState Id Rest} (hu : s.undo[second.length - 1]? = some (r, c))
    (hc : c.replay (first.reverse.map ForkItem.block) = none →
      c.ceiling (first.reverse.map ForkItem.block) ≤ c.headNum) :
    Switched base s hd newHead ((switchFork newHead).run s) := by
  obtain ⟨target, q, q', hk⟩ := h.fork_of_fetch hf
  obtain ⟨-, -, r', c', hu', hb, -⟩ := hk.meet h (hk.length_le hu)
  obtain ⟨rfl, rfl⟩ : r = r' ∧ c = c' := by simpa [hu] using hu'
  obtain ⟨bs, hbs⟩ := hb.replays
  have hlast : newHead ∈ first.reverse.getLast? := by
    obtain ⟨f, l, hfirst, -⟩ := hk.first_last
    cases first with
    | nil => simp at hfirst
    | cons x f =>
      rw [Spine.head_eq hk.up]
      simp
  cases hr : c.replay (first.reverse.map ForkItem.block) with
  | some d =>
    obtain ⟨s', hrun, ha⟩ := hk.adopts h hf hu hr
    rw [hrun]
    refine .adopted hbs ?_ ha
    rw [List.getLast?_map, Option.mem_def.mp hlast]
    rfl
  | none =>
    obtain ⟨good, bad, rest, e, s', hs, hp, hrun⟩ := hk.partway h hf hu hr
    obtain ⟨s₁, s₂, hpop, hres, hR⟩ := hk.restores h hu hs hp (hc hr)
    rw [hrun, hpop]
    simp only [hres]
    rw [hs] at hR hlast
    have hst := hk.up.stacked.1
    rw [hs] at hst
    have hlinked : ∀ x ∈ bad :: rest, Linked x.path := by
      intro x hx
      have hx : x ∈ first := by
        rw [← List.mem_reverse, hs]
        exact List.mem_append_right _ hx
      exact h.standing.tree.linked x (hk.mem x hx)
    refine .restored hbs hp.chain hp.builds hp.fails ?_
      ((stacked_append.mp hst).2.isChain hlinked) hp.doomed hR
    simpa using hlast

/-- Without a common block in reach the call throws and leaves the new block stored, or leaves
the node with another head. -/
theorem Ahead.not_switched {parent : ForkItem Block} (h : Ahead base s hd parent newHead)
    (hns : ¬ ∃ first second session,
      s.fork.fetchBranchFrom newHead.id s.chain.headId = .ok (first, second) ∧
      s.undo[second.length - 1]? = some session ∧
      (session.2.replay (first.reverse.map ForkItem.block) = none →
        session.2.ceiling (first.reverse.map ForkItem.block) ≤ session.2.headNum)) :
    ∃ e s', (switchFork newHead).run s = .error e s' ∧
      (newHead ∈ s'.fork.index ∨ s'.chain.headId ≠ s.chain.headId) := by
  cases hf : s.fork.fetchBranchFrom newHead.id s.chain.headId with
  | error e =>
    refine ⟨e, s, ?_, .inl h.mem⟩
    simp only [EStateM.run, switchFork, hf]
  | ok branches =>
    obtain ⟨first, second⟩ := branches
    obtain ⟨target, q, q', hk⟩ := h.fork_of_fetch hf
    cases hu : s.undo[second.length - 1]? with
    | none =>
      have hlen : s.undo.length < second.length := by
        obtain ⟨f, l, hs, -⟩ := hk.second_last
        have hle := List.getElem?_eq_none_iff.mp hu
        rw [hs, List.length_append, List.length_singleton] at hle ⊢
        omega
      obtain ⟨e, s', hr, hi⟩ := hk.out_of_reach h hf hlen
      exact ⟨e, s', hr, .inl (hi ▸ h.mem)⟩
    | some session =>
      obtain ⟨r, c⟩ := session
      by_cases hr : c.replay (first.reverse.map ForkItem.block) = none
      · obtain ⟨good, bad, rest, e, s', hs, hp, hrun⟩ := hk.partway h hf hu hr
        have hc : c.headNum < c.ceiling (first.reverse.map ForkItem.block) := by
          by_contra hle
          exact hns ⟨first, second, (r, c), hf, hu, fun _ ↦ Nat.le_of_not_lt hle⟩
        obtain ⟨e', s'', hpop, hne⟩ := hk.stuck h hu hs hp hc
        exact ⟨e', s'', by rw [hrun, hpop], .inr hne⟩
      · exact absurd ⟨first, second, (r, c), hf, hu, fun h ↦ absurd h hr⟩ hns

namespace Intact

/-- A block that is not higher than the head is stored and nothing else happens. -/
theorem push_lower (h : Intact base s hd) (hp : s.fork.pushBlock b = .ok (newHead, fork))
    (hn : ¬ s.chain.headNum < num (id b)) :
    (Node.pushBlock b).run s = .ok false { s with fork := fork } ∧
      Intact base { s with fork := fork } hd := by
  obtain ⟨trail, -, -, -, hh, -, -, hnew⟩ := pushBlock_ok hp
  have hnum := h.num_eq
  have hnew : newHead = hd := by
    rw [hnew, h.head]
    exact if_neg (hnum ▸ hn)
  have hne : previous newHead.block ≠ s.chain.headId := by
    intro he
    have hprev := num_previous newHead.block
    rw [he, hnew] at hprev
    change hd.num = s.chain.headNum + 1 at hprev
    omega
  refine ⟨pushBlock_shorter hp hne (by rw [hnew]; omega), hnew ▸ hh, h.standing_push hp, fun it hit ↦ ?_⟩
  rcases (mem_pushBlock hp).2 it hit with hit | rfl
  · exact h.highest it hit
  · change num (id it.block) ≤ hd.num
    omega

/-- A block on the head that applies becomes the head. -/
theorem push_next (h : Intact base s hd) (hp : s.fork.pushBlock b = .ok (newHead, fork))
    (he : previous b = s.chain.headId) {c : ChainState Id Rest} (hc : s.chain.apply b = some c) :
    ∃ s', (Node.pushBlock b).run s = .ok false s' ∧ Intact base s' newHead ∧
      Standing.Applied { s with fork := fork } newHead c s' := by
  have hnum := num_previous b
  rw [he] at hnum
  change num (id b) = s.chain.headNum + 1 at hnum
  obtain ⟨hb, hh, hi, parent, hpar, hid, -, ht⟩ := h.push_higher hp (by omega)
  have hpe : parent = hd := h.standing.tree.eq_of_id hpar h.mem (by rw [hid, he, h.id_eq])
  have hst := h.standing_push hp
  have hmem : newHead ∈ ({ s with fork := fork } : Node Block Id Rest).fork.index := by
    change newHead ∈ fork.index
    rw [hi]
    exact List.mem_append_right _ List.mem_cons_self
  have hset : fork.setHead newHead = fork := by
    rw [ForkDatabase.setHead, ← hh]
  obtain ⟨s', hr, ha, hs'⟩ := hst.apply hmem (hpe ▸ ht) (hb ▸ hc) [newHead.ref]
  refine ⟨s', ?_, ⟨ha.head, hs', fun it hit ↦ ?_⟩, ha⟩
  · rw [hb, hset] at hr
    rw [pushBlock_extends hp (by rw [hb, he]), hr]
  · rw [ha.index, List.mem_filter] at hit
    rcases (mem_pushBlock hp).2 it hit.1 with hit | hit
    · have hle := h.highest it hit
      have heq := h.num_eq
      change it.num ≤ num (id newHead.block)
      rw [hb]
      omega
    · change num (id it.block) ≤ num (id newHead.block)
      rw [hit, hb]

/-- After a switch the node is aligned again. -/
theorem of_adopted (h : Intact base s hd) (hp : s.fork.pushBlock b = .ok (newHead, fork))
    (hn : s.chain.headNum < num (id b)) {c : ChainState Id Rest} {branch : List Block}
    {s' : Node Block Id Rest} (ha : Adopted base { s with fork := fork } s' newHead c branch) :
    Intact base s' newHead := by
  obtain ⟨hb, -⟩ := h.push_higher hp hn
  refine ⟨ha.head, ha.standing, fun it hit ↦ ?_⟩
  rcases (mem_pushBlock hp).2 it (ha.pruned.subset it hit) with hit | hit
  · have hle := h.highest it hit
    have heq := h.num_eq
    change it.num ≤ num (id newHead.block)
    rw [hb]
    omega
  · change num (id it.block) ≤ num (id newHead.block)
    rw [hit, hb]

theorem of_restored (h : Intact base s hd) (hp : s.fork.pushBlock b = .ok (newHead, fork))
    (hn : s.chain.headNum < num (id b)) {c : ChainState Id Rest} {branch old : List Block}
    {removed : List (ForkItem Block)} (hl : newHead ∈ removed.getLast?)
    {s' : Node Block Id Rest}
    (hr : Restored base { s with fork := fork } s' hd c branch old removed) :
    Intact base s' hd := by
  obtain ⟨hb, -⟩ := h.push_higher hp hn
  refine ⟨hr.head, hr.standing, fun it hit ↦ ?_⟩
  obtain ⟨hin, hout⟩ := hr.subset it hit
  rcases (mem_pushBlock hp).2 it hin with hit | hit
  · exact h.highest it hit
  · refine absurd (List.mem_map.mpr ⟨newHead, List.mem_of_getLast? hl, ?_⟩) hout
    change id newHead.block = id it.block
    rw [hit, hb]

end Intact

end Taiyi.Chain
