import Taiyi.Chain.ForkTree

set_option autoImplicit false

namespace Taiyi.Chain

open ForkDatabase

theorem rdropWhile_cons {α : Type} (keep : α → Bool) (a : α) (l : List α)
    (ha : keep a = false) : (a :: l).rdropWhile keep = a :: l.rdropWhile keep := by
  simp only [List.rdropWhile, List.reverse_cons]
  rw [List.dropWhile_append]
  split
  · next h =>
    rw [List.isEmpty_iff] at h
    simp [h, ha]
  · simp

variable {Block Id Rest : Type} [BlockId Id] [BlockHeader Block Id] [DecidableEq Id]
  [Evaluation Block Id Rest]

/-- The sessions on the undo stack are the contents before the blocks of the path, newest first;
the content below the last session is a replay from the base. -/
def Backed (base : ChainState Id Rest) :
    ChainState Id Rest → List (ℕ × ChainState Id Rest) → List (Link Block) → Prop
  | c, [], p => topId p = c.headId ∧ ∃ bs : List Block, base.replay bs = some c
  | c, (r, c') :: undo, l :: p =>
    r = num (id l.block) ∧ c'.apply l.block = some c ∧ Backed base c' undo p
  | _, _ :: _, [] => False

namespace Backed

variable {base c : ChainState Id Rest} {undo : List (ℕ × ChainState Id Rest)}
  {p : List (Link Block)}

theorem top (h : Backed base c undo p) : topId p = c.headId := by
  match undo, p with
  | [], _ => exact h.1
  | (_, _) :: _, l :: _ => exact (ChainState.apply_eq_some h.2.1).2.symm

theorem replays (h : Backed base c undo p) : ∃ bs : List Block, base.replay bs = some c := by
  induction undo generalizing c p with
  | nil => exact h.2
  | cons session undo ih =>
    match session, p with
    | (_, c'), l :: p =>
      obtain ⟨-, ha, hb⟩ := h
      obtain ⟨bs, hbs⟩ := ih hb
      exact ⟨bs ++ [l.block], by rw [ChainState.replay_concat, hbs, Option.bind_some, ha]⟩

theorem length_le (h : Backed base c undo p) :
    undo.length ≤ p.length ∧ base.headNum + undo.length ≤ c.headNum := by
  induction undo generalizing c p with
  | nil =>
    obtain ⟨-, bs, hbs⟩ := h
    have := ChainState.headNum_replay hbs
    exact ⟨Nat.zero_le _, by rw [List.length_nil]; omega⟩
  | cons session undo ih =>
    match session, p with
    | (_, c'), l :: p =>
      obtain ⟨-, ha, hb⟩ := h
      obtain ⟨hp, hn⟩ := ih hb
      have := ChainState.headNum_apply ha
      simp only [List.length_cons]
      omega

theorem of_fewer (h : Backed base c undo p) {undo' : List (ℕ × ChainState Id Rest)}
    (hu : undo' <+: undo) : Backed base c undo' p := by
  induction undo' generalizing c undo p with
  | nil => exact ⟨h.top, h.replays⟩
  | cons session undo' ih =>
    obtain ⟨undo, rfl⟩ := hu
    match session, p with
    | (_, c'), l :: p => exact ⟨h.1, h.2.1, ih h.2.2 (List.prefix_append _ _)⟩

theorem revision_le (h : Backed base c undo p) : ∀ session ∈ undo, session.1 ≤ c.headNum := by
  induction undo generalizing c p with
  | nil => simp
  | cons session undo ih =>
    match session, p with
    | (r, c'), l :: p =>
      obtain ⟨hr, ha, hb⟩ := h
      have hn := ChainState.headNum_apply ha
      have hi := (ChainState.apply_eq_some ha).2
      intro x hx
      rcases List.mem_cons.mp hx with rfl | hx
      · rw [hr, ChainState.headNum, hi]
      · have := ih hb x hx
        omega

/-- Committing leaves the sessions of the blocks above the revision. -/
theorem rdropWhile_eq (h : Backed base c undo p) (r : ℕ) :
    undo.rdropWhile (fun session ↦ session.1 ≤ r) = undo.take (c.headNum - r) := by
  induction undo generalizing c p with
  | nil => simp
  | cons session undo ih =>
    match session, p with
    | (rev, c'), l :: p =>
      have hle := h.revision_le
      obtain ⟨hr, ha, hb⟩ := h
      have hn := ChainState.headNum_apply ha
      have hi := (ChainState.apply_eq_some ha).2
      have hrev : rev = c.headNum := by rw [hr, ChainState.headNum, hi]
      by_cases hlt : r < c.headNum
      · rw [rdropWhile_cons _ _ _ (by simpa [hrev] using hlt), ih hb,
          show c.headNum - r = (c'.headNum - r) + 1 by omega, List.take_succ_cons]
      · rw [show c.headNum - r = 0 by omega, List.take_zero, List.rdropWhile_eq_nil_iff]
        intro x hx
        have := hle x hx
        simp only [decide_eq_true_eq]
        omega

/-- Every height that a session covers has its block on the path. -/
theorem exists_suffix (h : Backed base c undo p) {n : ℕ} (hlo : c.headNum - undo.length < n)
    (hhi : n ≤ c.headNum) : ∃ l t, l :: t <:+ p ∧ num (id l.block) = n := by
  induction undo generalizing c p with
  | nil =>
    simp only [List.length_nil] at hlo
    omega
  | cons session undo ih =>
    match session, p with
    | (rev, c'), l :: p =>
      obtain ⟨hr, ha, hb⟩ := h
      have hn := ChainState.headNum_apply ha
      have hi := (ChainState.apply_eq_some ha).2
      by_cases he : n = c.headNum
      · exact ⟨l, p, List.suffix_refl _, by rw [he, ChainState.headNum, hi]⟩
      · simp only [List.length_cons] at hlo
        obtain ⟨m, t, hs, hm⟩ := ih hb (by omega) (by omega)
        exact ⟨m, t, hs.trans (List.suffix_cons _ _), hm⟩

/-- The content under the newest blocks, and the way back up. -/
theorem below {u q : List (Link Block)} (h : Backed base c undo (u ++ q))
    (hu : u.length ≤ undo.length) :
    ∃ c', Backed base c' (undo.drop u.length) q ∧
      c'.replay (u.reverse.map Link.block) = some c ∧
      (u ≠ [] → ∃ r, undo[u.length - 1]? = some (r, c')) := by
  induction u generalizing c undo with
  | nil => exact ⟨c, h, rfl, fun hne ↦ absurd rfl hne⟩
  | cons l u ih =>
    match undo with
    | [] => simp at hu
    | (r, d) :: undo =>
      obtain ⟨-, ha, hb⟩ := h
      obtain ⟨c', hc', hrep, hs⟩ := ih hb (by simpa using hu)
      refine ⟨c', hc', ?_, fun _ ↦ ?_⟩
      · rw [List.reverse_cons, List.map_append, List.map_singleton, ChainState.replay_concat, hrep,
          Option.bind_some, ha]
      · cases u with
        | nil =>
          cases hrep
          exact ⟨r, rfl⟩
        | cons m u => simpa using hs (by simp)

end Backed

/-- The height below which the node cannot pop blocks. -/
def Node.floor (s : Node Block Id Rest) : ℕ := s.chain.headNum - s.undo.length

/-- The chain stands on the path `p` of the fork database: its blocks down to the floor are in
the index, and the block log reaches the floor. -/
structure Standing (base : ChainState Id Rest) (s : Node Block Id Rest)
    (p : List (Link Block)) : Prop where
  backed : Backed base s.chain s.undo p
  base_lib : base.lib ≤ base.headNum
  floor_log : s.floor ≤ s.log.length
  linked : Linked p
  main : ∀ l t, l :: t <:+ p → s.floor ≤ num (id l.block) → ⟨l, t⟩ ∈ s.fork.index
  tree : Tree base s.floor s.fork

namespace Standing

variable {base : ChainState Id Rest} {s s' : Node Block Id Rest} {p : List (Link Block)}

theorem top (h : Standing base s p) : topId p = s.chain.headId := h.backed.top

theorem chain_eq (h : Standing base s p) (h' : Standing base s' p) : s.chain = s'.chain := by
  obtain ⟨bs, hb⟩ := h.backed.replays
  obtain ⟨bs', hb'⟩ := h'.backed.replays
  exact ChainState.replay_state_unique hb hb' (by rw [← h.top, ← h'.top])

theorem base_le_floor (h : Standing base s p) : base.headNum ≤ s.floor := by
  have := h.backed.length_le.2
  unfold Node.floor
  omega

theorem congr_fork (h : Standing base s p) {fork : ForkDatabase Block}
    (hi : fork.index = s.fork.index) (hn : fork.nextRef = s.fork.nextRef) :
    Standing base { s with fork := fork } p where
  backed := h.backed
  base_lib := h.base_lib
  floor_log := h.floor_log
  linked := h.linked
  main l t hs hl := by
    change _ ∈ fork.index
    exact hi ▸ h.main l t hs hl
  tree := h.tree.congr hi (Nat.le_of_eq hn.symm)

theorem lib_le (h : Standing base s p) : s.chain.lib ≤ s.chain.headNum := by
  obtain ⟨bs, hb⟩ := h.backed.replays
  exact ChainState.lib_le_headNum h.base_lib hb

theorem valid_of_suffix (h : Standing base s p) {l : Link Block} {t : List (Link Block)}
    (hs : l :: t <:+ p) (hl : base.headNum ≤ num (id l.block)) : base.Valid l.block := by
  obtain ⟨u, hu⟩ := hs
  have hlink := hu ▸ h.linked
  have htop := hu ▸ h.top
  obtain ⟨bs, hb⟩ := h.backed.replays
  have hhead : ∀ m v, u ++ l :: t = m :: v → base.Valid m.block := by
    intro m v hm
    rw [hm] at htop
    exact ⟨bs, s.chain, hb, htop.symm⟩
  clear hu htop hb
  induction u with
  | nil => exact hhead l t rfl
  | cons m u ih =>
    have hm := hhead m (u ++ l :: t) rfl
    rw [List.cons_append] at hlink
    obtain ⟨hp, hlink'⟩ := linked_cons.mp hlink
    refine ih hlink' fun m' v hv ↦ ?_
    have hp := hp.resolve_left (by simp)
    rw [hv] at hp
    refine hm.previous hp ?_
    have hle := Linked.num_le (hv ▸ hlink') (v := t) (m := l) (hv ▸ List.suffix_append _ _)
    omega

/-- An object below an item of the index with the id of a block of the main branch is that
block's item. -/
theorem eq_main (h : Standing base s p) {it : ForkItem Block} (hit : it ∈ s.fork.index)
    {q m : Link Block} {t v : List (Link Block)} (hq : q :: t <:+ it.path) (hm : m :: v <:+ p)
    (hf : s.floor ≤ num (id m.block)) (hi : id q.block = id m.block) : q :: t = m :: v := by
  have hmain := h.main m v hm hf
  have hvalid := h.valid_of_suffix hm (Nat.le_trans h.base_le_floor hf)
  have hblock : q.block = m.block := BlockHeader.id_injective hi
  have hin : (⟨q, t⟩ : ForkItem Block) ∈ s.fork.index := by
    by_contra hout
    exact h.tree.doomed it hit q t hq (hi ▸ hf) hout (hblock ▸ hvalid)
  have he := h.tree.eq_of_id hin hmain (by
    change id q.block = id m.block
    exact hi)
  exact congrArg ForkItem.path he

end Standing

end Taiyi.Chain
