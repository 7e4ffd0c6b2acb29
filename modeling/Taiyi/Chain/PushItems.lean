import Taiyi.Chain.PopBlock

set_option autoImplicit false

namespace Taiyi.Chain

open ForkDatabase Node

variable {Block Id Rest : Type}

/-- The items, oldest first, stand one on the other above the path `q`. -/
def Stacked : List (Link Block) → List (ForkItem Block) → Prop
  | _, [] => True
  | q, it :: items => it.trail = q ∧ Stacked it.path items

/-- The path on top of the stack. -/
def pathOver : List (Link Block) → List (ForkItem Block) → List (Link Block)
  | q, [] => q
  | _, it :: items => pathOver it.path items

theorem stacked_append {q : List (Link Block)} {items items' : List (ForkItem Block)} :
    Stacked q (items ++ items') ↔ Stacked q items ∧ Stacked (pathOver q items) items' := by
  induction items generalizing q with
  | nil => simp [Stacked, pathOver]
  | cons it items ih => simp only [List.cons_append, Stacked, pathOver, ih, and_assoc]

theorem pathOver_append (q : List (Link Block)) (items items' : List (ForkItem Block)) :
    pathOver q (items ++ items') = pathOver (pathOver q items) items' := by
  induction items generalizing q with
  | nil => rfl
  | cons it items ih => exact ih it.path

theorem Stacked.pathOver_eq {q : List (Link Block)} {items : List (ForkItem Block)}
    (h : Stacked q items) : pathOver q items = (items.map ForkItem.self).reverse ++ q := by
  induction items generalizing q with
  | nil => rfl
  | cons it items ih =>
    rw [pathOver, ih h.2, ForkItem.path, h.1]
    simp

theorem Spine.stacked {items : List (ForkItem Block)} {p q : List (Link Block)}
    (h : Spine items p q) : Stacked q items.reverse ∧ pathOver q items.reverse = p := by
  induction items generalizing p with
  | nil => exact ⟨trivial, h.symm⟩
  | cons it items ih =>
    obtain ⟨hs, hp⟩ := ih h.2
    rw [List.reverse_cons, stacked_append, pathOver_append, hp]
    exact ⟨⟨hs, rfl, trivial⟩, h.1.symm⟩

theorem Stacked.suffix {q : List (Link Block)} {items : List (ForkItem Block)}
    (h : Stacked q items) {it : ForkItem Block} (hit : it ∈ items) : q <:+ it.trail := by
  induction items generalizing q with
  | nil => cases hit
  | cons x items ih =>
    rcases List.mem_cons.mp hit with rfl | hit
    · exact h.1 ▸ List.suffix_refl _
    · have hx : q <:+ x.path := by
        rw [ForkItem.path, h.1]
        exact List.suffix_cons _ _
      exact hx.trans (ih h.2 hit)

variable [BlockId Id] [BlockHeader Block Id]

theorem Stacked.num_lt {l : Link Block} {t : List (Link Block)} {items : List (ForkItem Block)}
    (h : Stacked (l :: t) items) {it : ForkItem Block} (hit : it ∈ items) (hl : Linked it.path) :
    num (id l.block) < it.num := by
  obtain ⟨u, hu⟩ := h.suffix hit
  rw [ForkItem.path, ← hu] at hl
  exact Linked.num_lt (u := it.self :: u) hl it.self List.mem_cons_self

theorem Stacked.isChain {items : List (ForkItem Block)} {q : List (Link Block)}
    (hst : Stacked q items) (hl : ∀ x ∈ items, Linked x.path) :
    (items.map ForkItem.block).IsChain (fun x y ↦ previous y = id x) := by
  induction items generalizing q with
  | nil => exact List.isChain_nil
  | cons x items ih =>
    have htail := ih hst.2 fun z hz ↦ hl z (List.mem_cons_of_mem _ hz)
    cases items with
    | nil => exact List.isChain_singleton _
    | cons y items =>
      have hly := hl y (by simp)
      rw [ForkItem.path, hst.2.1] at hly
      exact List.isChain_cons_cons.mpr
        ⟨(linked_cons.mp hly).1.resolve_left (by simp [ForkItem.path]), htail⟩

variable [DecidableEq Id] [Evaluation Block Id Rest]

/-- The highest irreversible block named while the blocks apply. -/
def ChainState.ceiling (c : ChainState Id Rest) : List Block → ℕ
  | [] => 0
  | b :: bs =>
    match c.apply b with
    | none => 0
    | some c' => max c'.lib (c'.ceiling bs)

/-- `s'` came from `s` by applying blocks and pruning what fell below the floor. -/
structure Pruned (s s' : Node Block Id Rest) : Prop where
  subset : ∀ x ∈ s'.fork.index, x ∈ s.fork.index
  kept : ∀ x ∈ s.fork.index, s'.floor ≤ x.num → x ∈ s'.fork.index
  nextRef : s'.fork.nextRef = s.fork.nextRef

/-- The depth of `fork_db` that `migrate_irreversible_state` sets. -/
def Sized (s : Node Block Id Rest) : Prop :=
  s.fork.maxSize = s.chain.headNum - s.chain.lib + 1

variable {base : ChainState Id Rest} {s : Node Block Id Rest}

theorem Standing.pruned_applied {p : List (Link Block)} (h : Standing base s p)
    {it : ForkItem Block} {c : ChainState Id Rest} (hc : s.chain.apply it.block = some c)
    {s' : Node Block Id Rest} (ha : Standing.Applied s it c s') : Pruned s s' where
  subset x hx := List.mem_of_mem_filter (ha.index ▸ hx)
  kept x hx hl := by
    have hlib := ChainState.lib_le_apply h.lib_le hc
    rw [h.floor_applied hc ha] at hl
    rw [ha.index, List.mem_filter]
    refine ⟨hx, ?_⟩
    simp only [decide_eq_true_eq]
    omega
  nextRef := ha.nextRef

/-- The loop over a stack of items ends at its top when all blocks apply, and else at the
first block that does not. -/
theorem pushItems_spec (pinned : List ℕ) {q : List (Link Block)} (h : Standing base s q)
    {items : List (ForkItem Block)} (hin : ∀ it ∈ items, it ∈ s.fork.index)
    (hst : Stacked q items) :
    ∃ good rest s', items = good ++ rest ∧ Standing base s' (pathOver q good) ∧ Pruned s s' ∧
      s'.floor = max s.floor (s.chain.ceiling (items.map ForkItem.block)) ∧
      s.chain.replay (good.map ForkItem.block) = some s'.chain ∧ (good = [] → s' = s) ∧
      (good ≠ [] → Sized s') ∧
      ((rest = [] ∧ pushItems pinned items s = (s', none) ∧
          s'.fork.head = (good.getLast?).or s.fork.head) ∨
        ∃ bad rest' e, rest = bad :: rest' ∧ s'.chain.apply bad.block = none ∧
          pushItems pinned items s =
            ({ s' with fork := s'.fork.setHead bad }, some (e, bad :: rest'))) := by
  induction items generalizing s q with
  | nil =>
    refine ⟨[], [], s, rfl, h, ⟨fun _ hx ↦ hx, fun _ hx _ ↦ hx, rfl⟩, ?_, rfl,
      fun _ ↦ rfl, fun hn ↦ absurd rfl hn, .inl ⟨rfl, rfl, rfl⟩⟩
    simp [ChainState.ceiling]
  | cons it items ih =>
    cases hc : s.chain.apply it.block with
    | none =>
      obtain ⟨e, he⟩ := applyInSession_fail (s := { s with fork := s.fork.setHead it }) hc pinned
      refine ⟨[], it :: items, s, rfl, h, ⟨fun _ hx ↦ hx, fun _ hx _ ↦ hx, rfl⟩, ?_, rfl,
        fun _ ↦ rfl, fun hn ↦ absurd rfl hn, .inr ⟨it, items, e, rfl, hc, ?_⟩⟩
      · simp [ChainState.ceiling, hc]
      · simp only [pushItems, he]
    | some c =>
      obtain ⟨s₁, hr, ha, hs₁⟩ := h.apply (hin it List.mem_cons_self) hst.1 hc pinned
      have hpr := h.pruned_applied hc ha
      have hfl := h.floor_applied hc ha
      have hlib := ChainState.lib_le_apply h.lib_le hc
      have hnum := Standing.num_eq hc
      have hin₁ : ∀ x ∈ items, x ∈ s₁.fork.index := by
        intro x hx
        have hmem := hin x (List.mem_cons_of_mem _ hx)
        have hlt : it.num < x.num := Stacked.num_lt hst.2 hx (h.tree.linked x hmem)
        have hle := hs₁.backed.length_le.2
        have hch := ha.chain
        refine hpr.kept x hmem ?_
        unfold Node.floor
        rw [hch]
        omega
      obtain ⟨good, rest, s', rfl, hs', hpr', hfl', hrep, hnil, hsized, hres⟩ := ih hs₁ hin₁ hst.2
      rw [ha.chain] at hfl' hrep
      refine ⟨it :: good, rest, s', rfl, hs', ⟨fun x hx ↦ hpr.subset x (hpr'.subset x hx),
        fun x hx hl ↦ hpr'.kept x (hpr.kept x hx ?_) hl, hpr'.nextRef.trans hpr.nextRef⟩, ?_, ?_,
        fun hn ↦ absurd hn (List.cons_ne_nil _ _), fun _ ↦ ?_, ?_⟩
      · omega
      · simp only [List.map_cons, ChainState.ceiling, hc]
        omega
      · rw [List.map_cons, ChainState.replay_cons, hc, Option.bind_some, hrep]
      · cases good with
        | nil =>
          rw [hnil rfl, Sized, ha.maxSize, ha.chain]
        | cons x good => exact hsized (List.cons_ne_nil _ _)
      · rcases hres with ⟨hr', hp, hh⟩ | ⟨bad, rest', e, hr', hb, hp⟩
        · refine .inl ⟨hr', ?_, ?_⟩
          · simp only [pushItems, hr, hp]
          · rw [hh, ha.head]
            cases good with
            | nil => rfl
            | cons y good => simp [List.getLast?_eq_some_getLast]
        · exact .inr ⟨bad, rest', e, hr', hb, by simp only [pushItems, hr, hp]⟩

end Taiyi.Chain
