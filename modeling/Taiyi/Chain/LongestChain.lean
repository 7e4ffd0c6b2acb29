import Taiyi.Chain.AllOrNothing

set_option autoImplicit false

namespace Taiyi.Chain

open ForkDatabase Node

section General

variable {Block Id Rest : Type} [BlockId Id] [BlockHeader Block Id]

/-- The head of `fork_db` is stored in its index and is the chain's head block. -/
def Aligned (s : Node Block Id Rest) : Prop :=
  ∃ h, s.fork.head = some h ∧ h ∈ s.fork.index ∧ h.id = s.chain.headId

variable [DecidableEq Id] [Evaluation Block Id Rest] {base : ChainState Id Rest}
  {s : Node Block Id Rest}

theorem Intact.aligned {hd : ForkItem Block} (h : Intact base s hd) : Aligned s :=
  ⟨hd, h.head, h.mem, h.id_eq⟩

/-- From the start on, `fork_db` and the chain are aligned after every push, for all deliveries
whose blocks on the head apply and whose switches have what they need. -/
theorem aligned_of_stepsOk (hs : Start base s) {blocks : List Block} (hne : blocks ≠ [])
    (hok : StepsOk s blocks) : Aligned (s.deliver blocks) := by
  obtain ⟨hd, h⟩ := hs.run hne hok
  exact h.aligned

end General

section Tagged

/-- An invalid block on a chain of one block. -/
theorem invalid_next_not_aligned :
    Start tagGenesis (atGenesis tagGenesis : Node TaggedBlock TagPath Unit) ∧
      ¬ Aligned ((atGenesis tagGenesis).deliver [tagged 1 [], tagged 0 [1]]) := by
  refine ⟨.genesis rfl rfl, ?_⟩
  rintro ⟨h, hh, -, hid⟩
  have hhead : ((atGenesis tagGenesis).deliver [tagged 1 [], tagged 0 [1]]).fork.head =
      some ⟨⟨1, tagged 0 [1]⟩, [⟨0, tagged 1 []⟩]⟩ := by decide +kernel
  rw [hhead] at hh
  cases hh
  revert hid
  decide +kernel

theorem invalid_sibling_aligned :
    Aligned ((atGenesis tagGenesis).deliver [tagged 1 [], tagged 1 [1], tagged 0 [1]]) := by
  refine aligned_of_stepsOk (.genesis rfl rfl) (List.cons_ne_nil _ _)
    ⟨stepOk_of_next ?_ ?_, stepOk_of_next ?_ ?_, stepOk_of_lower ?_ ?_, trivial⟩ <;> decide +kernel

end Tagged

section General

variable {Block Id Rest : Type} [BlockId Id] [BlockHeader Block Id] [DecidableEq Id]
  [Evaluation Block Id Rest]

/-- No block above the base becomes irreversible: the sessions reach all of them. -/
def Window (Block : Type) {Id Rest : Type} [BlockId Id] [BlockHeader Block Id] [DecidableEq Id]
    [Evaluation Block Id Rest] (base : ChainState Id Rest) : Prop :=
  ∀ (bs : List Block) (c : ChainState Id Rest), base.replay bs = some c → c.lib ≤ base.headNum

/-- Every block builds on the base, on a block seen before or on one before it in the list. -/
def ParentsFirst (base : ChainState Id Rest) : List Block → List Block → Prop
  | _, [] => True
  | seen, b :: blocks => (previous b = base.headId ∨ ∃ a ∈ seen, id a = previous b) ∧
      ParentsFirst base (seen ++ [b]) blocks

variable {base : ChainState Id Rest} {s : Node Block Id Rest}

theorem Window.ceiling_le (hw : Window Block base) {c : ChainState Id Rest} {bs : List Block}
    (hc : base.replay bs = some c) (blocks : List Block) : c.ceiling blocks ≤ base.headNum := by
  induction blocks generalizing c bs with
  | nil => exact Nat.zero_le _
  | cons b blocks ih =>
    simp only [ChainState.ceiling]
    cases ha : c.apply b with
    | none => exact Nat.zero_le _
    | some d =>
      have hd : base.replay (bs ++ [b]) = some d := by
        rw [ChainState.replay_concat, hc, Option.bind_some, ha]
      exact Nat.max_le.mpr ⟨hw _ _ hd, ih hd⟩

/-- What holds after the blocks `seen` were pushed. -/
structure Complete (base : ChainState Id Rest) (s : Node Block Id Rest) (seen : List Block) :
    Prop where
  intact : ∃ hd, Intact base s hd
  floor : s.floor ≤ base.headNum
  depth : s.chain.headNum - s.fork.maxSize ≤ base.headNum
  above : ∀ b ∈ seen, base.headNum < num (id b)
  root : base.headId = zero ∨ ∃ it ∈ s.fork.index, it.id = base.headId
  kept : ∀ b ∈ seen, base.Valid b → ∃ it ∈ s.fork.index, it.block = b
  source : ∀ it ∈ s.fork.index, it.id = base.headId ∨ it.block ∈ seen

/-- From `s` to `s'`, while `b` is pushed, no valid item is lost and only `b` comes in. -/
structure Carries (base : ChainState Id Rest) (s : Node Block Id Rest) (b : Block)
    (s' : Node Block Id Rest) : Prop where
  floor : s'.floor ≤ base.headNum
  depth : s'.chain.headNum - s'.fork.maxSize ≤ base.headNum
  kept : ∀ it ∈ s.fork.index, base.Valid it.block → it ∈ s'.fork.index
  stored : base.Valid b → ∃ it ∈ s'.fork.index, it.block = b
  source : ∀ it ∈ s'.fork.index, it ∈ s.fork.index ∨ it.block = b

theorem stored_of_push {db db' : ForkDatabase Block} {b : Block} {newHead : ForkItem Block}
    (hp : db.pushBlock b = .ok (newHead, db')) : ∃ it ∈ db'.index, it.block = b := by
  obtain ⟨trail, -, -, hi, -⟩ := pushBlock_ok hp
  rw [hi]
  split
  · next hf =>
    obtain ⟨it, hit⟩ := Option.isSome_iff_exists.mp hf
    obtain ⟨hin, hid⟩ := Tree.mem_of_fetchBlock hit
    exact ⟨it, hin, BlockHeader.id_injective hid⟩
  · exact ⟨newItem db b trail, List.mem_append_right _ List.mem_cons_self, rfl⟩

theorem Sized.depth {hd : ForkItem Block} (hz : Sized s) (h : Intact base s hd)
    (hw : Window Block base) : s.chain.headNum - s.fork.maxSize ≤ base.headNum := by
  obtain ⟨bs, hb⟩ := h.standing.backed.replays
  have hle := hw bs _ hb
  rw [hz]
  omega

section Step

variable {hd : ForkItem Block} {b : Block} {r : EStateM.Result String (Node Block Id Rest) Bool}

theorem Carries.of_kept {t s' : Node Block Id Rest} {newHead : ForkItem Block}
    (hp : s.fork.pushBlock b = .ok (newHead, t.fork)) (hf : s'.floor ≤ base.headNum)
    (hd : s'.chain.headNum - s'.fork.maxSize ≤ base.headNum)
    (hk : ∀ it ∈ t.fork.index, base.Valid it.block → it ∈ s'.fork.index)
    (hs : ∀ it ∈ s'.fork.index, it ∈ t.fork.index) : Carries base s b s' where
  floor := hf
  depth := hd
  kept it hit hv := hk it ((mem_pushBlock hp).1 it hit) hv
  stored hv := by
    obtain ⟨it, hit, hb⟩ := stored_of_push hp
    exact ⟨it, hk it hit (hb ▸ hv), hb⟩
  source it hit := (mem_pushBlock hp).2 it (hs it hit)

theorem Pushed.carries (hw : Window Block base) (h : Intact base s hd)
    (hf : s.floor ≤ base.headNum) (hdep : s.chain.headNum - s.fork.maxSize ≤ base.headNum)
    (hstore : base.Valid b → ∃ p, s.fork.pushBlock b = .ok p) (hp : Pushed base s hd b r) :
    Carries base s b (after r) ∧ (base.Valid b → ∃ a s', r = .ok a s') := by
  cases hp with
  | @refused e hp =>
    have hnv : ¬ base.Valid b := by
      intro hv
      obtain ⟨p, hp'⟩ := hstore hv
      rw [hp] at hp'
      cases hp'
    exact ⟨⟨hf, hdep, fun it hit _ ↦ hit, fun hv ↦ absurd hv hnv, fun it hit ↦ .inl hit⟩,
      fun hv ↦ absurd hv hnv⟩
  | @stored newHead fork hp hn =>
    have hdep' : s.chain.headNum - fork.maxSize ≤ base.headNum := by
      obtain ⟨trail, -, -, -, -, hm, -⟩ := pushBlock_ok hp
      rw [hm]
      exact hdep
    have hc : Carries base s b { s with fork := fork } :=
      .of_kept hp hf hdep' (fun it hit _ ↦ hit) fun it hit ↦ hit
    exact ⟨hc, fun _ ↦ ⟨_, _, rfl⟩⟩
  | @next newHead fork c s' hp hc hi ha =>
    obtain ⟨bs, hbs⟩ := h.standing.backed.replays
    have hlib : c.lib ≤ base.headNum :=
      hw (bs ++ [b]) c (by rw [ChainState.replay_concat, hbs, Option.bind_some, hc])
    have hn := ChainState.headNum_apply hc
    have hu : s'.undo.length = min (c.headNum - c.lib) (s.undo.length + 1) := by
      rw [ha.undo, List.length_take, List.length_cons]
    have hf' : s'.floor ≤ base.headNum := by
      unfold Node.floor at hf ⊢
      rw [ha.chain, hu]
      omega
    have hdep' : s'.chain.headNum - s'.fork.maxSize ≤ base.headNum := by
      rw [ha.chain, ha.maxSize]
      omega
    have hkept : ∀ it ∈ fork.index, base.Valid it.block → it ∈ s'.fork.index := by
      intro it hit hv
      have hle := hv.le_num
      change base.headNum ≤ it.num at hle
      rw [ha.index, List.mem_filter]
      exact ⟨hit, by simp only [decide_eq_true_eq]; omega⟩
    have hc : Carries base s b s' := .of_kept (t := { s with fork := fork }) hp hf' hdep' hkept
      fun it hit ↦ List.mem_of_mem_filter (ha.index ▸ hit)
    exact ⟨hc, fun _ ↦ ⟨_, _, rfl⟩⟩
  | @switched newHead fork r hp hl hsw =>
    cases hsw with
    | @adopted s' c bs branch hc hn ha =>
      have hceil := hw.ceiling_le hc branch
      have hfl := ha.floor
      have hf' : s'.floor ≤ base.headNum := hfl ▸ Nat.max_le.mpr ⟨hf, hceil⟩
      have hkept : ∀ it ∈ fork.index, base.Valid it.block → it ∈ s'.fork.index := fun it hit hv ↦
        ha.pruned.kept it hit (Nat.le_trans hf' hv.le_num)
      have hc : Carries base s b s' := .of_kept (t := { s with fork := fork }) hp hf'
        (ha.sized.depth (h.of_adopted hp hl ha) hw) hkept ha.pruned.subset
      exact ⟨hc, fun _ ↦ ⟨_, _, rfl⟩⟩
    | @restored e s' c d bs old good rest bad hc hg hpr hb hn hch hv hr =>
      have hceil := hw.ceiling_le hc ((good ++ bad :: rest).map ForkItem.block)
      have hceil' := hw.ceiling_le hc old
      have hf' : s'.floor ≤ base.headNum :=
        hr.floor ▸ Nat.max_le.mpr ⟨Nat.max_le.mpr ⟨hf, hceil⟩, hceil'⟩
      have hkept : ∀ it ∈ fork.index, base.Valid it.block → it ∈ s'.fork.index := fun it hit hv ↦
        (hr.kept it hit (Nat.le_trans hf' hv.le_num)).resolve_right fun hn ↦ hn hv
      have hc : Carries base s b s' := .of_kept (t := { s with fork := fork }) hp hf'
        (hr.sized.depth (h.of_restored hp hl hn hr) hw) hkept fun it hit ↦ (hr.subset it hit).1
      have hnv : ¬ base.Valid b := by
        rw [← (h.push_higher hp hl).1]
        exact hv newHead (List.mem_of_getLast? hn)
      exact ⟨hc, fun hv ↦ absurd hv hnv⟩

variable {seen : List Block}

theorem Complete.lt (h : Complete base s seen)
    (hp : previous b = base.headId ∨ ∃ a ∈ seen, id a = previous b) :
    base.headNum < num (id b) := by
  have hnum := num_previous b
  rcases hp with hp | ⟨a, ha, hp⟩
  · rw [hp] at hnum
    change num (id b) = base.headNum + 1 at hnum
    omega
  · have := h.above a ha
    rw [hp] at this
    omega

/-- A valid block whose parent is the base or a block already seen links to `fork_db`. -/
theorem Complete.links (h : Complete base s seen)
    (hp : previous b = base.headId ∨ ∃ a ∈ seen, id a = previous b) (hv : base.Valid b) :
    ∃ p, s.fork.pushBlock b = .ok p := by
  have hlt := h.lt hp
  obtain ⟨hd, hi⟩ := h.intact
  have hparent : previous b = zero ∨ ∃ it, s.fork.fetchBlock (previous b) = some it := by
    rcases hp with hp | ⟨a, ha, hp⟩
    · rcases h.root with hz | ⟨it, hit, hid⟩
      · exact .inl (hp.trans hz)
      · exact .inr ⟨it, hp ▸ hid ▸ hi.standing.tree.fetchBlock_eq hit⟩
    · have hva : base.Valid a := hv.previous hp.symm (Nat.le_of_lt (h.above a ha))
      obtain ⟨it, hit, rfl⟩ := h.kept a ha hva
      exact .inr ⟨it, hp ▸ hi.standing.tree.fetchBlock_eq hit⟩
  have hold : ¬ ∃ o ∈ s.fork.head, num (id b) ≤ o.num - s.fork.maxSize := by
    rintro ⟨o, ho, hle⟩
    rw [hi.head, Option.mem_def, Option.some.injEq] at ho
    subst ho
    have hdep := h.depth
    rw [← hi.num_eq] at hdep
    omega
  unfold ForkDatabase.pushBlock
  rw [if_neg hold]
  rcases hparent with hz | ⟨it, hit⟩
  · have hn : ¬ (s.fork.head.isSome ∧ previous b ≠ zero) := fun hc ↦ hc.2 hz
    simp only [linkTo, if_neg hn]
    exact ⟨_, rfl⟩
  · by_cases hc : s.fork.head.isSome ∧ previous b ≠ zero
    · simp only [linkTo, if_pos hc, hit]
      exact ⟨_, rfl⟩
    · simp only [linkTo, if_neg hc]
      exact ⟨_, rfl⟩

theorem Complete.step (hw : Window Block base) (h : Complete base s seen)
    (hp : previous b = base.headId ∨ ∃ a ∈ seen, id a = previous b) (hok : StepOk s b) :
    Complete base (s.push b) (seen ++ [b]) ∧
      (base.Valid b → ∃ a s', (Node.pushBlock b).run s = .ok a s') := by
  obtain ⟨hd, hi⟩ := h.intact
  have hpush := hi.pushed hok
  obtain ⟨hc, hacc⟩ := hpush.carries hw hi h.floor h.depth (h.links hp)
  refine ⟨⟨hpush.intact hi, hc.floor, hc.depth, ?_, ?_, ?_, ?_⟩, hacc⟩
  · intro a ha
    rcases List.mem_append.mp ha with ha | ha
    · exact h.above a ha
    · rw [List.mem_singleton.mp ha]
      exact h.lt hp
  · refine h.root.imp_right fun ⟨it, hit, hid⟩ ↦ ⟨it, hc.kept it hit ⟨[], base, rfl, ?_⟩, hid⟩
    exact hid.symm
  · intro a ha hv
    rcases List.mem_append.mp ha with ha | ha
    · obtain ⟨it, hit, rfl⟩ := h.kept a ha hv
      exact ⟨it, hc.kept it hit hv, rfl⟩
    · rw [List.mem_singleton.mp ha] at hv ⊢
      exact hc.stored hv
  · intro it hit
    rcases hc.source it hit with hit | hb
    · exact (h.source it hit).imp_right fun hm ↦ List.mem_append_left _ hm
    · exact .inr (List.mem_append_right _ (List.mem_singleton.mpr hb))

theorem Complete.run (hw : Window Block base) {blocks : List Block} (h : Complete base s seen)
    (hp : ParentsFirst base seen blocks) (hok : StepsOk s blocks) :
    Complete base (s.deliver blocks) (seen ++ blocks) ∧
      ∀ earlier b later, blocks = earlier ++ b :: later → base.Valid b →
        ∃ a s', (Node.pushBlock b).run (s.deliver earlier) = .ok a s' := by
  induction blocks generalizing s seen with
  | nil => exact ⟨by simpa [Node.deliver] using h, fun earlier b later he ↦ by simp at he⟩
  | cons b blocks ih =>
    obtain ⟨hc, hacc⟩ := h.step hw hp.1 hok.1
    obtain ⟨hrun, hrest⟩ := ih hc hp.2 hok.2
    refine ⟨by simpa [Node.deliver] using hrun, fun earlier x later he hv ↦ ?_⟩
    cases earlier with
    | nil =>
      obtain ⟨rfl, -⟩ := List.cons.inj he
      exact hacc hv
    | cons y earlier =>
      obtain ⟨rfl, he'⟩ := List.cons.inj he
      exact hrest earlier x later he' hv

/-- At the end of a delivery no valid block is higher than the head. -/
theorem Complete.head (h : Complete base s seen) :
    (∀ b ∈ seen, base.Valid b → num (id b) ≤ s.chain.headNum) ∧
      (s.chain.headId = base.headId ∨
        ∃ b ∈ seen, base.Valid b ∧ id b = s.chain.headId) := by
  obtain ⟨hd, hi⟩ := h.intact
  refine ⟨fun b hb hv ↦ ?_, ?_⟩
  · obtain ⟨it, hit, rfl⟩ := h.kept b hb hv
    rw [← hi.num_eq]
    exact hi.highest it hit
  · rcases h.source hd hi.mem with hid | hin
    · exact .inl (hi.id_eq ▸ hid)
    · obtain ⟨bs, hbs⟩ := hi.standing.backed.replays
      exact .inr ⟨hd.block, hin, ⟨bs, _, hbs, hi.id_eq.symm⟩, hi.id_eq⟩

theorem Complete.opened {log : List Block} (hi : base.headId = id b)
    (hl : base.lib ≤ base.headNum) (hlog : base.headNum ≤ log.length) :
    Complete base (Node.opened base b log) [] where
  intact := ⟨_, Intact.opened hi hl hlog⟩
  floor := Nat.le_refl _
  depth := Nat.sub_le _ _
  above := by simp
  root := .inr ⟨⟨⟨0, b⟩, []⟩, List.mem_cons_self, hi.symm⟩
  kept := by simp
  source it hit := .inl (by rw [List.mem_singleton.mp hit, hi]; rfl)

theorem Complete.first (hi : base.headId = zero) (hl : base.lib = 0)
    (hok : StepOk (atGenesis base) b) (hw : Window Block base) :
    Complete base ((atGenesis base).push b) [b] ∧
      ∃ a s', (Node.pushBlock b).run (atGenesis base) = .ok a s' := by
  obtain ⟨c, s', hc, hr, h, ha⟩ := push_first hi hl hok
  have hz : base.headNum = 0 := by rw [ChainState.headNum, hi, BlockId.num_zero]
  have hn := ChainState.headNum_apply hc
  have hlib := hw [b] c (by rw [ChainState.replay_cons, hc]; rfl)
  have hin : (⟨⟨0, b⟩, []⟩ : ForkItem Block) ∈ s'.fork.index := h.mem
  have hs' : (atGenesis base).push b = s' := by rw [Node.push, hr]; rfl
  rw [hs']
  refine ⟨⟨⟨_, h⟩, ?_, ?_, ?_, .inl hi, ?_, ?_⟩, false, s', hr⟩
  · unfold Node.floor
    rw [ha.chain, ha.undo, List.length_take, List.length_singleton]
    omega
  · rw [ha.chain, ha.maxSize]
    omega
  · intro a ha
    rw [List.mem_singleton.mp ha, hz]
    have := num_previous b
    omega
  · intro a ha _
    exact ⟨_, hin, (List.mem_singleton.mp ha).symm⟩
  · intro it hit
    rw [ha.index] at hit
    rw [show it = ⟨⟨0, b⟩, []⟩ from List.mem_singleton.mp (List.mem_of_mem_filter hit)]
    exact .inr List.mem_cons_self

end Step

/-- Whatever the order of delivery, the head ends up as high as any block on an all-valid branch,
and every such block was accepted and is still stored, for the deliveries whose blocks on the
head apply and whose switches have what they need. -/
theorem longest_valid_chain (hs : Start base s) (hw : Window Block base) {blocks : List Block}
    (hp : ParentsFirst base [] blocks) (hok : StepsOk s blocks) :
    (∀ b ∈ blocks, base.Valid b → num (id b) ≤ (s.deliver blocks).chain.headNum) ∧
      ((s.deliver blocks).chain.headId = base.headId ∨
        ∃ b ∈ blocks, base.Valid b ∧ id b = (s.deliver blocks).chain.headId) ∧
      (∀ b ∈ blocks, base.Valid b → ∃ it ∈ (s.deliver blocks).fork.index, it.block = b) ∧
      ∀ earlier b later, blocks = earlier ++ b :: later → base.Valid b →
        ∃ a s', (Node.pushBlock b).run (s.deliver earlier) = .ok a s' := by
  cases hs with
  | opened hi hl hlog =>
    obtain ⟨hc, hacc⟩ := (Complete.opened hi hl hlog).run hw hp hok
    exact ⟨hc.head.1, hc.head.2, hc.kept, hacc⟩
  | genesis hi hl =>
    match blocks with
    | [] => exact ⟨by simp, .inl rfl, by simp, fun earlier b later he ↦ by simp at he⟩
    | b :: blocks =>
      obtain ⟨hc, hfirst⟩ := Complete.first hi hl hok.1 hw
      obtain ⟨hc, hacc⟩ := hc.run hw hp.2 hok.2
      refine ⟨hc.head.1, hc.head.2, hc.kept, fun earlier x later he hv ↦ ?_⟩
      cases earlier with
      | nil =>
        obtain ⟨rfl, -⟩ := List.cons.inj he
        exact hfirst
      | cons y earlier =>
        obtain ⟨rfl, he'⟩ := List.cons.inj he
        exact hacc earlier x later he' hv

end General

section Tagged

theorem tag_window : Window TaggedBlock tagGenesis := by
  have hlib : ∀ (bs : List TaggedBlock) (c d : ChainState TagPath Unit),
      c.replay bs = some d → d.lib = c.lib := by
    intro bs
    induction bs with
    | nil =>
      intro c d h
      cases h
      rfl
    | cons b bs ih =>
      intro c d h
      rw [ChainState.replay_cons] at h
      obtain ⟨e, he, h⟩ := Option.bind_eq_some_iff.mp h
      rw [ih e d h]
      simp only [ChainState.apply, evaluate] at he
      split at he
      · split at he
        · cases he
        · cases he
          rfl
      · cases he
  intro bs c h
  rw [hlib bs _ c h]
  exact Nat.zero_le _

/-- A chain of two blocks, an invalid block on it, and then a branch of three more valid blocks
on the first one. -/
def delivery : List TaggedBlock :=
  [tagged 1 [], tagged 1 [1], tagged 0 [1, 1], tagged 2 [1], tagged 2 [2, 1], tagged 2 [2, 2, 1]]

/-- The invalid block stays the head of `fork_db`; the other branch is thrown away. -/
theorem longer_valid_branch_lost :
    Start tagGenesis (atGenesis tagGenesis : Node TaggedBlock TagPath Unit) ∧
      Window TaggedBlock tagGenesis ∧ ParentsFirst tagGenesis [] delivery ∧ tagged 2 [2, 2, 1] ∈ delivery ∧
      tagGenesis.Valid (tagged 2 [2, 2, 1]) ∧
      ((atGenesis tagGenesis).deliver delivery).chain.headNum < num (id (tagged 2 [2, 2, 1])) := by
  refine ⟨.genesis rfl rfl, tag_window, ?_, by decide, ?_, by decide +kernel⟩
  · simp [ParentsFirst, delivery, tagged, tagGenesis, previous, BlockHeader.id]
  · exact ⟨[tagged 1 [], tagged 2 [1], tagged 2 [2, 1], tagged 2 [2, 2, 1]],
      ⟨⟨[2, 2, 2, 1]⟩, 0, ()⟩, by decide +kernel, rfl⟩

theorem sibling_delivery_longest :
    num (id (tagged 1 [1])) ≤ ((atGenesis tagGenesis).deliver
      [tagged 1 [], tagged 1 [1], tagged 0 [1]]).chain.headNum := by
  have hp : ParentsFirst tagGenesis [] [tagged 1 [], tagged 1 [1], tagged 0 [1]] := by
    simp [ParentsFirst, tagged, tagGenesis, previous, BlockHeader.id]
  have hok : StepsOk (atGenesis tagGenesis) [tagged 1 [], tagged 1 [1], tagged 0 [1]] := by
    refine ⟨stepOk_of_next ?_ ?_, stepOk_of_next ?_ ?_, stepOk_of_lower ?_ ?_, trivial⟩ <;>
      decide +kernel
  have hv : tagGenesis.Valid (tagged 1 [1]) :=
    ⟨[tagged 1 [], tagged 1 [1]], ⟨⟨[1, 1]⟩, 0, ()⟩, by decide +kernel, rfl⟩
  exact (longest_valid_chain (.genesis rfl rfl) tag_window hp hok).1 _ (by decide) hv

end Tagged

end Taiyi.Chain
