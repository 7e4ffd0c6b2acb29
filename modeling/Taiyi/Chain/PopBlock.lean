import Taiyi.Chain.ApplyBlock

set_option autoImplicit false

namespace Taiyi.Chain

open ForkDatabase Node

section Branches

variable {Block Id Rest : Type}

/-- The items of a branch, each being what its predecessor's `prev` points to: they lead from
the path `p` down to the path `q`. -/
def Spine : List (ForkItem Block) → List (Link Block) → List (Link Block) → Prop
  | [], p, q => p = q
  | it :: items, p, q => p = it.path ∧ Spine items it.trail q

theorem ForkItem.path_injective : Function.Injective (ForkItem.path : ForkItem Block → List (Link Block)) := by
  intro x y h
  cases x
  cases y
  obtain ⟨rfl, rfl⟩ := List.cons.inj h
  rfl

namespace Spine

variable {items : List (ForkItem Block)} {p q : List (Link Block)}

theorem eq_append (h : Spine items p q) : p = items.map ForkItem.self ++ q := by
  induction items generalizing p with
  | nil => exact h
  | cons it items ih => rw [h.1, ForkItem.path, ih h.2, List.map_cons, List.cons_append]

theorem suffix (h : Spine items p q) {it : ForkItem Block} (hit : it ∈ items) :
    it.path <:+ p := by
  induction items generalizing p with
  | nil => cases hit
  | cons x items ih =>
    rw [h.1]
    rcases List.mem_cons.mp hit with rfl | hit
    · exact List.suffix_refl _
    · exact (ih h.2 hit).trans (List.suffix_cons _ _)

theorem head_eq {x it : ForkItem Block} (h : Spine (x :: items) it.path q) : x = it :=
  (ForkItem.path_injective h.1).symm

theorem concat {it : ForkItem Block} : Spine (items ++ [it]) p q ↔
    Spine items p it.path ∧ it.trail = q := by
  induction items generalizing p with
  | nil => simp [Spine]
  | cons x items ih => simp only [List.cons_append, Spine, ih, and_assoc]

end Spine

variable [BlockId Id] [BlockHeader Block Id]

/-- What `climbBoth` answers: two branches of one length down to a common `previous`. -/
theorem climbBoth_ok [DecidableEq Id] {live : ℕ → Bool} {l m : Link Block}
    {t t' : List (Link Block)} {first second : List (ForkItem Block)}
    (h : climbBoth live l t m t' = .ok (first, second)) :
    ∃ f s fl sl q q', first = f ++ [fl] ∧ second = s ++ [sl] ∧ f.length = s.length ∧
      Spine first (l :: t) q ∧ Spine second (m :: t') q' ∧
      previous fl.block = previous sl.block ∧
      (∀ x ∈ first, x = ⟨l, t⟩ ∨ live x.ref = true) := by
  induction t generalizing l m t' first second with
  | nil =>
    unfold climbBoth at h
    split at h
    · next hp =>
      cases h
      exact ⟨[], [], ⟨l, []⟩, ⟨m, t'⟩, [], t', rfl, rfl, rfl, ⟨rfl, rfl⟩, ⟨rfl, rfl⟩, hp, by simp⟩
    · cases t' <;> cases h
  | cons l' t ih =>
    unfold climbBoth at h
    split at h
    · next hp =>
      cases h
      exact ⟨[], [], ⟨l, l' :: t⟩, ⟨m, t'⟩, l' :: t, t', rfl, rfl, rfl, ⟨rfl, rfl⟩, ⟨rfl, rfl⟩, hp,
        by simp⟩
    · cases t' with
      | nil => cases h
      | cons m' t' =>
        simp only at h
        split at h
        · next hl =>
          split at h
          · split at h
            · cases h
            · next first' second' hr =>
              cases h
              obtain ⟨f, s, fl, sl, q, q', rfl, rfl, hlen, hf, hs, hp, hlive⟩ := ih hr
              refine ⟨⟨l, l' :: t⟩ :: f, ⟨m, m' :: t'⟩ :: s, fl, sl, q, q', rfl, rfl,
                by simp [hlen], ⟨rfl, hf⟩, ⟨rfl, hs⟩, hp, fun x hx ↦ ?_⟩
              rcases List.mem_cons.mp hx with rfl | hx
              · exact .inl rfl
              · rcases hlive x hx with rfl | hx
                · exact .inr hl
                · exact .inr hx
          · cases h
        · cases h

end Branches

variable {Block Id Rest : Type}

theorem undone_of_nil {s : Node Block Id Rest} (h : s.undo = []) : s.undone = s := by
  unfold undone
  rw [h]

variable [BlockId Id] [BlockHeader Block Id]

/-- The blocks above an ancestor are higher than it. -/
theorem num_topId_lt {l : Link Block} {u q : List (Link Block)} (h : Linked (l :: u ++ q)) :
    num (topId q) < num (id l.block) := by
  cases q with
  | nil =>
    rw [topId, BlockId.num_zero, BlockHeader.num_id]
    omega
  | cons m v => exact Linked.num_lt h l List.mem_cons_self

variable [DecidableEq Id]

theorem popBlock_cases (s : Node Block Id Rest) (pinned : List ℕ) :
    (∃ e, (Node.popBlock pinned).run s = .error e s) ∨
      ∃ x y rest, s.fork.head = some x ∧ x.trail = y :: rest ∧
        (Node.popBlock pinned).run s =
          .ok ⟨⟩ (undone { s with fork := { s.fork with head := some ⟨y, rest⟩ } }) := by
  simp only [EStateM.run, Node.popBlock]
  split
  · exact .inl ⟨_, rfl⟩
  · cases hh : s.fork.head with
    | none =>
      simp only [ForkDatabase.popBlock, hh]
      exact .inl ⟨_, rfl⟩
    | some x =>
      cases ht : x.trail with
      | nil =>
        simp only [ForkDatabase.popBlock, hh, ht]
        exact .inl ⟨_, rfl⟩
      | cons y rest =>
        by_cases ha : s.fork.alive pinned y.ref = true
        · exact .inr ⟨x, y, rest, rfl, ht, by simp only [ForkDatabase.popBlock, hh, ht, ha, if_true]⟩
        · exact .inl ⟨_, by simp only [ForkDatabase.popBlock, hh, ht, ha]; rfl⟩

theorem popUntil_cons (pinned : List ℕ) (target : Id) (l : Link Block) (path : List (Link Block))
    (s : Node Block Id Rest) :
    (popUntil pinned target (l :: path)).run s =
      if s.chain.headId = target then .ok ⟨⟩ s
      else match (Node.popBlock pinned).run s with
        | .error e s' => .error e s'
        | .ok _ s' => (popUntil pinned target path).run s' := rfl

theorem popTo_run {pinned : List ℕ} {target : Id} {x : ForkItem Block} {s : Node Block Id Rest}
    (hx : s.fork.head = some x) :
    (popTo pinned target).run s = (popUntil pinned target x.path).run s := by
  simp only [EStateM.run, popTo, hx, Option.map_some, Option.getD_some]

/-- With no session left the loop never gets further: it throws with the content unchanged. -/
theorem popUntil_stuck {pinned : List ℕ} {target : Id} {x : ForkItem Block}
    {s : Node Block Id Rest} (hx : s.fork.head = some x) (hu : s.undo = [])
    (ht : s.chain.headId ≠ target) :
    ∃ e s', (popUntil pinned target x.path).run s = .error e s' ∧ s'.chain = s.chain ∧
      s'.fork.index = s.fork.index := by
  obtain ⟨l, t⟩ := x
  simp only [ForkItem.path]
  induction t generalizing l s with
  | nil =>
    rw [popUntil_cons, if_neg ht]
    rcases popBlock_cases s pinned with ⟨e, he⟩ | ⟨x, y, rest, hx', hy, -⟩
    · exact ⟨e, s, by rw [he], rfl, rfl⟩
    · rw [hx] at hx'
      cases hx'
      cases hy
  | cons m t ih =>
    rw [popUntil_cons, if_neg ht]
    rcases popBlock_cases s pinned with ⟨e, he⟩ | ⟨x, y, rest, hx', hy, hr⟩
    · exact ⟨e, s, by rw [he], rfl, rfl⟩
    · rw [hx] at hx'
      cases hx'
      obtain ⟨rfl, rfl⟩ := List.cons.inj hy
      obtain ⟨e, s', he, hc, hi⟩ := ih
        (s := { s with fork := { s.fork with head := some ⟨m, t⟩ } }) hu ht m rfl
      refine ⟨e, s', ?_, hc, hi⟩
      rw [undone_of_nil (by exact hu)] at hr
      rw [hr]
      exact he

variable [Evaluation Block Id Rest]

namespace Standing

variable {base : ChainState Id Rest} {s : Node Block Id Rest} {pinned : List ℕ}

/-- The node after one block is popped. -/
def popped (s : Node Block Id Rest) (c : ChainState Id Rest)
    (undo : List (ℕ × ChainState Id Rest)) (y : Link Block) (rest : List (Link Block)) :
    Node Block Id Rest :=
  { s with fork := { s.fork with head := some ⟨y, rest⟩ }, chain := c, undo := undo }

theorem standing_popped {l : Link Block} {p : List (Link Block)} (h : Standing base s (l :: p))
    {r : ℕ} {c : ChainState Id Rest} {undo : List (ℕ × ChainState Id Rest)}
    (hu : s.undo = (r, c) :: undo) (y : Link Block) (rest : List (Link Block)) :
    Standing base (popped s c undo y rest) p := by
  have hb := h.backed
  rw [hu] at hb
  obtain ⟨-, ha, hb⟩ := hb
  have hn := ChainState.headNum_apply ha
  have hlen := hb.length_le.2
  have hfl : (popped s c undo y rest).floor = s.floor := by
    simp only [Node.floor, popped, hu, List.length_cons]
    omega
  refine ⟨hb, h.base_lib, ?_, (linked_cons.mp h.linked).2, fun m t hs hl ↦ ?_, ?_⟩
  · rw [hfl]
    exact h.floor_log
  · rw [hfl] at hl
    exact h.main m t (hs.trans (List.suffix_cons _ _)) hl
  · rw [hfl]
    exact h.tree.congr rfl (Nat.le_refl _)

/-- The head block is found and popped while a session is left. -/
theorem pop {l : Link Block} {p : List (Link Block)} (h : Standing base s (l :: p)) {r : ℕ}
    {c : ChainState Id Rest} {undo : List (ℕ × ChainState Id Rest)}
    (hu : s.undo = (r, c) :: undo) {x : ForkItem Block} (hx : s.fork.head = some x)
    {y : Link Block} {rest : List (Link Block)} (hy : x.trail = y :: rest)
    (hlive : s.fork.alive pinned y.ref = true) :
    (Node.popBlock pinned).run s = .ok ⟨⟩ (popped s c undo y rest) := by
  have hb := h.backed
  rw [hu] at hb
  obtain ⟨-, ha, hb⟩ := hb
  have hn := ChainState.headNum_apply ha
  have hle : s.floor ≤ num (id l.block) := by
    rw [← (ChainState.apply_eq_some ha).2]
    unfold Node.floor ChainState.headNum
    omega
  have hf := h.tree.fetchBlock_eq (h.main l p (List.suffix_refl _) hle)
  change s.fork.fetchBlock (id l.block) = _ at hf
  have htop : s.chain.headId = id l.block := h.top.symm
  simp only [EStateM.run, Node.popBlock, fetchBlockById, htop, hf, ForkDatabase.popBlock, hx, hy,
    hlive, if_true, undone, hu, popped]

/-- The loop reaches an ancestor that the sessions reach, while the path under the fork head
is long enough and held. -/
theorem popUntil (pinned : List ℕ) {u q : List (Link Block)} (h : Standing base s (u ++ q))
    (hu : u.length ≤ s.undo.length) {x : ForkItem Block} (hx : s.fork.head = some x)
    {w v : List (Link Block)} (hw : x.path = w ++ v) (hlen : u.length < w.length)
    (hp : ∀ k ∈ w, k.ref ∈ pinned) :
    ∃ s', (Node.popUntil pinned (topId q) x.path).run s = .ok ⟨⟩ s' ∧ Standing base s' q ∧
      s'.fork.index = s.fork.index ∧ s'.fork.nextRef = s.fork.nextRef ∧
      s'.fork.maxSize = s.fork.maxSize ∧ s'.undo = s.undo.drop u.length := by
  induction u generalizing s x w with
  | nil =>
    refine ⟨s, ?_, h, rfl, rfl, rfl, rfl⟩
    have htop : s.chain.headId = topId q := h.top.symm
    rw [ForkItem.path, popUntil_cons, if_pos htop]
  | cons l u ih =>
    have hne : s.chain.headId ≠ topId q := by
      have hlt := num_topId_lt h.linked
      have htop : s.chain.headId = id l.block := h.top.symm
      intro he
      rw [← he, htop] at hlt
      exact Nat.lt_irrefl _ hlt
    rcases hs : s.undo with _ | ⟨⟨r, c⟩, undo⟩
    · simp [hs] at hu
    · rcases w with _ | ⟨k, _ | ⟨y, w⟩⟩
      · simp at hlen
      · simp at hlen
      · rw [ForkItem.path, List.cons_append] at hw
        obtain ⟨-, hw⟩ := List.cons.inj hw
        have hrun := h.pop (p := u ++ q) hs hx hw (alive_of_pinned (hp y (by simp)))
        have hst := h.standing_popped (p := u ++ q) hs y (w ++ v)
        obtain ⟨s', hr, hs', hi, hn, hm, hd⟩ := ih hst
          (by simp only [hs, List.length_cons, popped] at hu ⊢; omega) (x := ⟨y, w ++ v⟩) rfl
          (w := y :: w) rfl (by simpa using hlen) (fun k hk ↦ hp k (List.mem_cons_of_mem _ hk))
        refine ⟨s', ?_, hs', hi, hn, hm, hd⟩
        rw [ForkItem.path, popUntil_cons, if_neg hne, hrun, hw]
        exact hr

/-- The loop throws when the sessions end above the target; the content is then that of some
block above it. -/
theorem popUntil_blocked (pinned : List ℕ) {u q : List (Link Block)}
    (h : Standing base s (u ++ q)) {target : Id}
    (ht : ∀ l ∈ u, id l.block ≠ target) (hu : s.undo.length < u.length) {x : ForkItem Block}
    (hx : s.fork.head = some x) :
    ∃ e s', (Node.popUntil pinned target x.path).run s = .error e s' ∧
      s'.fork.index = s.fork.index ∧ ∃ l ∈ u, s'.chain.headId = id l.block := by
  induction u generalizing s x with
  | nil => simp at hu
  | cons l u ih =>
    have htop : s.chain.headId = id l.block := h.top.symm
    have hne : s.chain.headId ≠ target := htop ▸ ht l List.mem_cons_self
    match hs : s.undo with
    | [] =>
      obtain ⟨e, s', he, hc, hi⟩ := popUntil_stuck hx hs hne
      exact ⟨e, s', he, hi, l, List.mem_cons_self, by rw [hc, htop]⟩
    | (r, c) :: undo =>
      rw [ForkItem.path, popUntil_cons, if_neg hne]
      rcases popBlock_cases s pinned with ⟨e, he⟩ | ⟨x, y, rest, hx', hy, hr⟩
      · exact ⟨e, s, by rw [he], rfl, l, List.mem_cons_self, htop⟩
      · have hst := h.standing_popped (p := u ++ q) hs y rest
        have hpop : undone { s with fork := { s.fork with head := some ⟨y, rest⟩ } } =
            popped s c undo y rest := by
          simp only [undone, hs, popped]
        obtain ⟨e, s', he, hi, m, hm, hid⟩ := ih hst
          (fun m hm ↦ ht m (List.mem_cons_of_mem _ hm))
          (by simp only [hs, List.length_cons, popped] at hu ⊢; omega) (x := ⟨y, rest⟩) rfl
        refine ⟨e, s', ?_, hi, m, List.mem_cons_of_mem _ hm, hid⟩
        rw [hx] at hx'
        cases hx'
        rw [hr, hpop, hy]
        exact he

end Standing

end Taiyi.Chain
