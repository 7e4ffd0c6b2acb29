import Taiyi.Chain.Ahead

set_option autoImplicit false

namespace Taiyi.Chain

open ForkDatabase Node

variable {Block Id Rest : Type} [BlockId Id] [BlockHeader Block Id] [DecidableEq Id]
  [Evaluation Block Id Rest]

theorem restoreItems_eq (pinned : List ℕ) (items : List (ForkItem Block))
    (s : Node Block Id Rest) :
    (restoreItems pinned items).run s = match pushItems pinned items s with
      | (s', none) => .ok ⟨⟩ s'
      | (s', some (e, _)) => .error e s' := by
  induction items generalizing s with
  | nil => rfl
  | cons it items ih =>
    simp only [EStateM.run, restoreItems, pushItems] at ih ⊢
    split
    · next s' _ =>
      exact ih s'
    · rfl

theorem mem_removeItems {fork : ForkDatabase Block} {items : List (ForkItem Block)} :
    (removeItems fork items).index =
        fork.index.filter (fun x ↦ x.id ∉ items.map ForkItem.id) ∧
      (removeItems fork items).head = fork.head ∧
      (removeItems fork items).nextRef = fork.nextRef := by
  induction items generalizing fork with
  | nil => simp [removeItems]
  | cons it items ih =>
    obtain ⟨hi, hh, hn⟩ := @ih (fork.remove it.id)
    refine ⟨?_, hh, hn⟩
    change (removeItems (fork.remove it.id) items).index = _
    rw [hi, ForkDatabase.remove, List.filter_filter]
    refine List.filter_congr fun x _ ↦ ?_
    simp [not_or, Bool.and_comm]

namespace Fork

variable {base : ChainState Id Rest} {s : Node Block Id Rest} {hd parent newHead : ForkItem Block}
  {first second : List (ForkItem Block)} {target : Id} {q q' : List (Link Block)}

/-- When the sessions reach the last block of the old branch, the content under it has the
target as its head, and both branches end in the same objects. -/
theorem meet (hk : Fork s hd newHead first second target q q')
    (h : Ahead base s hd parent newHead) (hu : second.length ≤ s.undo.length) :
    q = q' ∧ topId q = target ∧ ∃ r c, s.undo[second.length - 1]? = some (r, c) ∧
      Backed base c (s.undo.drop second.length) q ∧
      c.replay (second.reverse.map ForkItem.block) = some s.chain := by
  have hdown := hk.down.eq_append
  have hb := h.standing.backed
  rw [hdown] at hb
  obtain ⟨c, hc, hrep, hsess⟩ := hb.below (by simpa using hu)
  obtain ⟨f, fl, hfirst, hft⟩ := hk.first_last
  obtain ⟨f', sl, hsecond, hst⟩ := hk.second_last
  obtain ⟨r, hsess⟩ := hsess (by simp [hsecond])
  have hblocks : (second.map ForkItem.self).reverse.map Link.block =
      second.reverse.map ForkItem.block := by
    rw [← List.map_reverse, List.map_map]
    rfl
  rw [hblocks] at hrep
  have hctop : c.headId = target := by
    have hrep' := hrep
    rw [hsecond, List.reverse_concat, List.map_cons, ChainState.replay_cons] at hrep'
    obtain ⟨d, hd', -⟩ := Option.bind_eq_some_iff.mp hrep'
    rw [← (ChainState.apply_eq_some hd').1]
    exact hst
  have htop := hc.top
  rw [hctop] at htop
  have hnum := ChainState.headNum_replay hrep
  simp only [List.length_map, List.length_reverse] at hnum
  have hbase : base.headNum ≤ c.headNum := by
    obtain ⟨bs, hbs⟩ := hc.replays
    have := ChainState.headNum_replay hbs
    omega
  have hfl : s.floor ≤ c.headNum := by
    unfold Node.floor
    omega
  have hcnum : c.headNum = num target := by rw [ChainState.headNum, hctop]
  have hmem : fl ∈ first := by simp [hfirst]
  have hpath : fl.path <:+ newHead.path := hk.up.suffix hmem
  have htail : fl.trail = q := by
    have hup := hk.up
    rw [hfirst] at hup
    exact (Spine.concat.mp hup).2
  have hfln := num_previous fl.block
  rw [hft] at hfln
  have hfold := h.linked.suffix hpath
  have hqq : q = q' := by
    cases q' with
    | nil =>
      change zero = target at htop
      cases hq : q with
      | nil => rfl
      | cons m v =>
        rw [ForkItem.path, htail, hq] at hfold
        have hm := (linked_cons.mp hfold).1.resolve_left (by simp)
        have hmn := num_previous m.block
        change previous fl.block = id m.block at hm
        rw [← hm, hft, ← htop, BlockId.num_zero] at hmn
        omega
    | cons m' v' =>
      change id m'.block = target at htop
      have hm'n := num_previous m'.block
      have hsuf : m' :: v' <:+ hd.path := ⟨_, hdown.symm⟩
      cases hq : q with
      | nil =>
        rw [ForkItem.path, htail, hq] at hpath
        rcases h.standing.tree.rooted newHead h.mem fl.self hpath with hz | hle
        · change previous fl.block = zero at hz
          rw [htop, ← hft, hz, BlockId.num_zero] at hm'n
          omega
        · change num (id fl.block) ≤ base.headNum at hle
          omega
      | cons m v =>
        rw [ForkItem.path, htail, hq] at hfold hpath
        have hm := (linked_cons.mp hfold).1.resolve_left (by simp)
        change previous fl.block = id m.block at hm
        refine h.standing.eq_main h.mem ((List.suffix_cons _ _).trans hpath) hsuf ?_ ?_
        · rw [htop, ← hcnum]
          exact hfl
        · rw [← hm, hft, htop]
  exact ⟨hqq, hqq ▸ htop, r, c, by simpa using hsess, by simpa [hqq] using hc, hrep⟩

/-- The local variables that hold items during a switch. -/
def held (newHead : ForkItem Block) (first second : List (ForkItem Block)) : List ℕ :=
  newHead.ref :: (first ++ second).map ForkItem.ref

theorem mem_held {x : ForkItem Block} (hx : x ∈ first) : x.ref ∈ held newHead first second :=
  List.mem_cons_of_mem _ (List.mem_map_of_mem (List.mem_append_left _ hx))

/-- The old branch lies above the target. -/
theorem down_ne (hk : Fork s hd newHead first second target q q')
    (h : Ahead base s hd parent newHead) :
    ∀ l ∈ second.map ForkItem.self, id l.block ≠ target := by
  obtain ⟨f, sl, rfl, ht⟩ := hk.second_last
  have hl := h.standing.linked
  rw [hk.down.eq_append, List.map_append, List.map_singleton, List.append_assoc,
    List.singleton_append] at hl
  have hn := num_previous sl.block
  rw [ht] at hn
  intro l hl' he
  rw [List.map_append, List.map_singleton, List.mem_append, List.mem_singleton] at hl'
  have hle : num (id sl.block) ≤ num (id l.block) := by
    rcases hl' with hl' | rfl
    · exact Nat.le_of_lt (Linked.num_lt hl l hl')
    · exact Nat.le_refl _
  rw [he] at hle
  omega

theorem switch_run (hk : Fork s hd newHead first second target q q')
    (hf : s.fork.fetchBranchFrom newHead.id s.chain.headId = .ok (first, second)) :
    (switchFork newHead).run s =
      match (popTo (held newHead first second) target).run s with
      | .error e s => .error e s
      | .ok _ s =>
        match pushItems (held newHead first second) first.reverse s with
        | (s, none) => .ok true s
        | (s, some (e, bad)) =>
          match (popTo (held newHead first second) target).run
              { s with fork := removeItems s.fork bad } with
          | .error e s => .error e s
          | .ok _ s =>
            match (restoreItems (held newHead first second) second.reverse).run s with
            | .error e s => .error e s
            | .ok _ s => .error e s := by
  obtain ⟨f, sl, hs, ht⟩ := hk.second_last
  have hlast : second.getLast? = some sl := by simp [hs]
  simp only [EStateM.run, switchFork, hf, hlast, ht, held] <;> rfl

theorem out_of_reach (hk : Fork s hd newHead first second target q q')
    (h : Ahead base s hd parent newHead)
    (hf : s.fork.fetchBranchFrom newHead.id s.chain.headId = .ok (first, second))
    (hu : s.undo.length < second.length) :
    ∃ e s', (switchFork newHead).run s = .error e s' ∧ s'.fork.index = s.fork.index := by
  have hst := h.standing
  rw [hk.down.eq_append] at hst
  obtain ⟨e, s', hr, hi, -⟩ := hst.popUntil_blocked (held newHead first second)
    (hk.down_ne h) (by simpa using hu) h.head
  exact ⟨e, s', by rw [hk.switch_run hf, popTo_run h.head, hr], hi⟩

/-- Popping down to the common block: the node then stands on the path below both branches. -/
theorem pops (hk : Fork s hd newHead first second target q q')
    (h : Ahead base s hd parent newHead) (hu : second.length ≤ s.undo.length) :
    ∃ s', (popTo (held newHead first second) target).run s = .ok ⟨⟩ s' ∧ Standing base s' q ∧
      s'.fork.index = s.fork.index ∧ s'.fork.nextRef = s.fork.nextRef ∧ s'.floor = s.floor ∧
      s'.chain.replay (second.reverse.map ForkItem.block) = some s.chain ∧
      ∃ r, s.undo[second.length - 1]? = some (r, s'.chain) := by
  obtain ⟨rfl, ht, r, c, hsess, hc, hrep⟩ := hk.meet h hu
  have hst := h.standing
  rw [hk.down.eq_append] at hst
  obtain ⟨s', hr, hs', hi, hn, -, hd'⟩ := hst.popUntil (held newHead first second)
    (by simpa using hu) h.head hk.up.eq_append (by simp [hk.length])
    (fun k hk' ↦ by
      obtain ⟨x, hx, rfl⟩ := List.mem_map.mp hk'
      exact mem_held hx)
  have hch : s'.chain = c := by
    obtain ⟨bs, hb⟩ := hs'.backed.replays
    obtain ⟨bs', hb'⟩ := hc.replays
    exact ChainState.replay_state_unique hb hb' (by rw [← hs'.top, ← hc.top])
  rw [ht] at hr
  refine ⟨s', by rw [popTo_run h.head, hr], hs', hi, hn, ?_, hch ▸ hrep, r, hch ▸ hsess⟩
  have hnum := ChainState.headNum_replay hrep
  simp only [List.length_map, List.length_reverse] at hnum
  simp only [Node.floor, hch, hd', List.length_drop, List.length_map]
  omega

end Fork

end Taiyi.Chain
