import Taiyi.Chain.PushItems

set_option autoImplicit false

namespace Taiyi.Chain

open ForkDatabase Node

variable {Block Id Rest : Type} [BlockId Id] [BlockHeader Block Id]

theorem climbTo_stop {live : ℕ → Bool} {n : ℕ} {it : ForkItem Block} (h : it.num ≤ n) :
    climbTo live n it.self it.trail = .ok ([], it) := by
  obtain ⟨l, t⟩ := it
  have hn : ¬ n < num (id l.block) := Nat.not_lt.mpr h
  cases t <;> simp only [climbTo, if_neg hn]

theorem climbTo_step {live : ℕ → Bool} {n : ℕ} {it parent : ForkItem Block} (h : n < it.num)
    (ht : it.trail = parent.path) (hl : live parent.ref = true) (hp : parent.num ≤ n) :
    climbTo live n it.self it.trail = .ok ([it], parent) := by
  obtain ⟨l, t⟩ := it
  obtain rfl : t = parent.self :: parent.trail := ht
  have hn : n < num (id l.block) := h
  have hl : live parent.self.ref = true := hl
  simp only [climbTo, if_pos hn, if_pos hl, climbTo_stop hp]

/-- The two branches from the fork head and from the chain's head: their last blocks build on
one block, the target of the switch. -/
structure Fork (s : Node Block Id Rest) (hd newHead : ForkItem Block)
    (first second : List (ForkItem Block)) (target : Id) (q q' : List (Link Block)) : Prop where
  up : Spine first newHead.path q
  down : Spine second hd.path q'
  length : first.length = second.length + 1
  first_last : ∃ f l, first = f ++ [l] ∧ previous l.block = target
  second_last : ∃ f l, second = f ++ [l] ∧ previous l.block = target
  mem : ∀ x ∈ first, x ∈ s.fork.index

namespace Fork

variable {s : Node Block Id Rest} {hd newHead : ForkItem Block}
  {first second : List (ForkItem Block)} {target : Id} {q q' : List (Link Block)}

theorem length_le (hk : Fork s hd newHead first second target q q')
    {session : ℕ × ChainState Id Rest} (hu : s.undo[second.length - 1]? = some session) :
    second.length ≤ s.undo.length := by
  obtain ⟨f, l, hs, -⟩ := hk.second_last
  have hlt := (List.getElem?_eq_some_iff.mp hu).1
  rw [hs, List.length_append, List.length_singleton] at hlt ⊢
  omega

/-- The path under the block of the new branch that fails. -/
theorem bad_path (hk : Fork s hd newHead first second target q q')
    {good rest : List (ForkItem Block)} {bad : ForkItem Block}
    (hs : first.reverse = good ++ bad :: rest) :
    pathOver q good = (good.map ForkItem.self).reverse ++ q ∧
      bad.path = (bad.self :: (good.map ForkItem.self).reverse) ++ q := by
  have hst := hk.up.stacked.1
  rw [hs] at hst
  obtain ⟨hg, hb, -⟩ := stacked_append.mp hst
  exact ⟨hg.pathOver_eq, by rw [ForkItem.path, hb, hg.pathOver_eq, List.cons_append]⟩

end Fork

variable [DecidableEq Id] [Evaluation Block Id Rest]

/-- The fork database and the chain are aligned: the chain stands on the fork head `hd`, and no
item of the index is higher. -/
structure Intact (base : ChainState Id Rest) (s : Node Block Id Rest) (hd : ForkItem Block) :
    Prop where
  head : s.fork.head = some hd
  standing : Standing base s hd.path
  highest : ∀ it ∈ s.fork.index, it.num ≤ hd.num

namespace Intact

variable {base : ChainState Id Rest} {s : Node Block Id Rest} {hd newHead : ForkItem Block}
  {b : Block} {fork : ForkDatabase Block}

theorem id_eq (h : Intact base s hd) : hd.id = s.chain.headId := h.standing.top

theorem num_eq (h : Intact base s hd) : hd.num = s.chain.headNum := by
  rw [ForkItem.num, h.id_eq]
  rfl

theorem mem (h : Intact base s hd) : hd ∈ s.fork.index := by
  have hle : s.floor ≤ num (id hd.self.block) := by
    have := h.num_eq
    unfold Node.floor
    rw [← this]
    exact Nat.sub_le _ _
  exact h.standing.main hd.self hd.trail (List.suffix_refl _) hle

theorem num_pos (h : Intact base s hd) : 0 < s.chain.headNum := by
  rw [← h.num_eq]
  have := num_previous hd.block
  change 0 < num (id hd.block)
  omega

theorem standing_push (h : Intact base s hd) (hp : s.fork.pushBlock b = .ok (newHead, fork)) :
    Standing base { s with fork := fork } hd.path := by
  have hsub : ∀ it ∈ s.fork.index, it ∈ fork.index := by
    obtain ⟨trail, -, -, hi, -⟩ := pushBlock_ok hp
    intro it hit
    rw [hi]
    split
    · exact hit
    · exact List.mem_append_left _ hit
  exact
    { backed := h.standing.backed
      base_lib := h.standing.base_lib
      floor_log := h.standing.floor_log
      linked := h.standing.linked
      main := fun l t hs hl ↦ hsub _ (h.standing.main l t hs hl)
      tree := h.standing.tree.push (by simp [h.head]) hp }

/-- A block higher than the head becomes the fork head, on top of an item as high as the
chain's head. -/
theorem push_higher (h : Intact base s hd) (hp : s.fork.pushBlock b = .ok (newHead, fork))
    (hn : s.chain.headNum < num (id b)) :
    newHead.block = b ∧ fork.head = some newHead ∧ fork.index = s.fork.index ++ [newHead] ∧
      ∃ parent ∈ s.fork.index, parent.id = previous b ∧ parent.num = hd.num ∧
        newHead.trail = parent.path := by
  obtain ⟨trail, hl, -, hi, hh, -, -, hnew⟩ := pushBlock_ok hp
  have hnew : newHead = newItem s.fork b trail := by
    rw [hnew, h.head]
    exact if_pos (h.num_eq ▸ hn)
  have hnone : s.fork.fetchBlock (id b) = none := by
    cases hf : s.fork.fetchBlock (id b) with
    | none => rfl
    | some it =>
      obtain ⟨hit, hid⟩ := Tree.mem_of_fetchBlock hf
      have hle := h.highest it hit
      have heq := h.num_eq
      rw [ForkItem.num, hid] at hle
      omega
  rw [hnone, ← hnew] at hi
  refine ⟨hnew ▸ rfl, hh, hi, ?_⟩
  have hnum := num_previous b
  rcases linkTo_ok hl with ⟨-, hnone | hz⟩ | ⟨parent, hpar, hid, ht⟩
  · rw [h.head] at hnone
    cases hnone
  · have := h.num_pos
    rw [hz, BlockId.num_zero] at hnum
    omega
  · refine ⟨parent, hpar, hid, ?_, hnew ▸ ht⟩
    have hle := h.highest parent hpar
    have heq := h.num_eq
    rw [ForkItem.num, hid] at hle ⊢
    omega

end Intact

/-- A block one higher than the chain's head `hd` was stored and is the fork head, on top of
an item other than `hd`. -/
structure Ahead (base : ChainState Id Rest) (s : Node Block Id Rest)
    (hd parent newHead : ForkItem Block) : Prop where
  standing : Standing base s hd.path
  head : s.fork.head = some newHead
  old_mem : hd ∈ s.fork.index
  parent_mem : parent ∈ s.fork.index
  mem : newHead ∈ s.fork.index
  trail : newHead.trail = parent.path
  num_parent : parent.num = hd.num
  ne : parent ≠ hd

theorem Intact.ahead {base : ChainState Id Rest} {s : Node Block Id Rest}
    {hd newHead : ForkItem Block} {b : Block} {fork : ForkDatabase Block}
    (h : Intact base s hd) (hp : s.fork.pushBlock b = .ok (newHead, fork))
    (hne : previous b ≠ s.chain.headId) (hn : s.chain.headNum < num (id b)) :
    newHead.block = b ∧ fork.index = s.fork.index ++ [newHead] ∧
      ∃ parent, Ahead base { s with fork := fork } hd parent newHead := by
  obtain ⟨hb, hh, hi, parent, hpar, hid, hnum, ht⟩ := h.push_higher hp hn
  have hsub : ∀ it ∈ s.fork.index, it ∈ fork.index := fun it hit ↦
    hi ▸ List.mem_append_left _ hit
  refine ⟨hb, hi, parent, h.standing_push hp, hh, hsub hd h.mem, hsub parent hpar, ?_, ht, hnum, ?_⟩
  · change newHead ∈ fork.index
    rw [hi]
    exact List.mem_append_right _ List.mem_cons_self
  · intro he
    rw [he, h.id_eq] at hid
    exact hne hid.symm

namespace Ahead

variable {base : ChainState Id Rest} {s : Node Block Id Rest} {hd parent newHead : ForkItem Block}
  {first second : List (ForkItem Block)} {target : Id} {q q' : List (Link Block)}

theorem linked (h : Ahead base s hd parent newHead) : Linked newHead.path :=
  h.standing.tree.linked newHead h.mem

theorem num_eq (h : Ahead base s hd parent newHead) : newHead.num = hd.num + 1 := by
  have hl := h.linked
  rw [ForkItem.path, h.trail] at hl
  have hp := (linked_cons.mp hl).1.resolve_left (by simp [ForkItem.path])
  have hn := num_previous newHead.self.block
  rw [hp] at hn
  rw [← h.num_parent]
  exact hn

/-- The chain's head is not on the new branch. -/
theorem not_suffix (h : Ahead base s hd parent newHead) : ¬ hd.path <:+ newHead.path := by
  intro hs
  have hn := h.num_eq
  rcases List.suffix_cons_iff.mp hs with he | hs
  · rw [ForkItem.path_injective he] at hn
    omega
  · rw [h.trail] at hs
    have hl := h.standing.tree.linked parent h.parent_mem
    rcases List.suffix_cons_iff.mp hs with he | ⟨u, hu⟩
    · exact h.ne (ForkItem.path_injective he).symm
    · rw [ForkItem.path, ← hu] at hl
      have hlt := Linked.num_lt (u := parent.self :: u) hl parent.self List.mem_cons_self
      have he := h.num_parent
      change hd.num < parent.num at hlt
      omega

theorem fetchBranchFrom_eq (h : Ahead base s hd parent newHead) :
    s.fork.fetchBranchFrom newHead.id s.chain.headId =
      (climbBoth (s.fork.alive []) parent.self parent.trail hd.self hd.trail).map
        fun branches ↦ (newHead :: branches.1, branches.2) := by
  have hf := h.standing.tree.fetchBlock_eq h.mem
  have hs := h.standing.tree.fetchBlock_eq h.old_mem
  have htop : hd.id = s.chain.headId := h.standing.top
  have hn := h.num_eq
  have hp := h.num_parent
  rw [htop] at hs
  have hup : climbTo (s.fork.alive []) hd.num newHead.self newHead.trail = .ok ([newHead], parent) :=
    climbTo_step (by omega) h.trail (alive_of_mem h.parent_mem) (by omega)
  have hdown : climbTo (s.fork.alive []) parent.num hd.self hd.trail = .ok ([], hd) :=
    climbTo_stop (by omega)
  simp only [fetchBranchFrom, hf, hs, hup, hdown]
  cases climbBoth (s.fork.alive []) parent.self parent.trail hd.self hd.trail <;> rfl

/-- Items that are alive are in the index: the fork head is. -/
theorem mem_of_alive (h : Ahead base s hd parent newHead) {l : Link Block} {t : List (Link Block)}
    (hs : l :: t <:+ newHead.path) (hl : s.fork.alive [] l.ref = true) :
    (⟨l, t⟩ : ForkItem Block) ∈ s.fork.index := by
  have hin : ∃ it ∈ s.fork.index, it.ref = l.ref := by
    simp only [alive, h.head, decide_eq_true_eq, List.not_mem_nil, false_or, Option.toList_some,
      List.map_cons, List.map_nil, List.mem_singleton] at hl
    rcases hl with hl | hl
    · exact ⟨newHead, h.mem, hl.symm⟩
    · exact List.mem_map.mp hl
  obtain ⟨it, hit, hr⟩ := hin
  exact h.standing.tree.refs newHead h.mem l t hs it hit hr ▸ hit

theorem fork_of_fetch (h : Ahead base s hd parent newHead)
    (hf : s.fork.fetchBranchFrom newHead.id s.chain.headId = .ok (first, second)) :
    ∃ target q q', Fork s hd newHead first second target q q' := by
  rw [h.fetchBranchFrom_eq] at hf
  cases hc : climbBoth (s.fork.alive []) parent.self parent.trail hd.self hd.trail with
  | error e =>
    rw [hc] at hf
    cases hf
  | ok branches =>
    rw [hc] at hf
    cases hf
    obtain ⟨f, sec, fl, sl, q, q', hfirst, hsecond, hlen, hup, hdown, hp, hlive⟩ := climbBoth_ok hc
    have hspine : Spine (newHead :: branches.1) newHead.path q := ⟨rfl, by rw [h.trail]; exact hup⟩
    refine ⟨previous sl.block, q, q', hspine, hdown, ?_, ⟨newHead :: f, fl, ?_, hp⟩,
      ⟨sec, sl, hsecond, rfl⟩, fun x hx ↦ ?_⟩
    · simp [hfirst, hsecond, hlen]
    · rw [hfirst, List.cons_append]
    · rcases List.mem_cons.mp hx with rfl | hx'
      · exact h.mem
      · rcases hlive x hx' with rfl | hl
        · exact h.parent_mem
        · exact h.mem_of_alive (hspine.suffix hx) hl

end Ahead

end Taiyi.Chain
