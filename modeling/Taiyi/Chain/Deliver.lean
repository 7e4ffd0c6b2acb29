import Taiyi.Chain.PushBlock

set_option autoImplicit false

namespace Taiyi.Chain

open ForkDatabase Node

variable {Block Id Rest : Type} [BlockId Id] [BlockHeader Block Id]

def ForkDatabase.empty : ForkDatabase Block := ⟨[], none, 1024, 0⟩

namespace Node

/-- After `init_genesis`: no block yet. -/
def atGenesis (c : ChainState Id Rest) : Node Block Id Rest := ⟨.empty, c, [], []⟩

variable [DecidableEq Id]

/-- After `open` on an existing chain: `start_block` puts its head block into `fork_db`. -/
def opened (c : ChainState Id Rest) (b : Block) (log : List Block) : Node Block Id Rest :=
  ⟨ForkDatabase.empty.startBlock b, c, [], log⟩

variable [Evaluation Block Id Rest]

/-- The node after a call, for a caller that catches what it throws. -/
def after : EStateM.Result String (Node Block Id Rest) Bool → Node Block Id Rest
  | .ok _ s' => s'
  | .error _ s' => s'

def push (s : Node Block Id Rest) (b : Block) : Node Block Id Rest :=
  after ((pushBlock b).run s)

def deliver (s : Node Block Id Rest) (blocks : List Block) : Node Block Id Rest :=
  blocks.foldl push s

end Node

variable [DecidableEq Id] [Evaluation Block Id Rest]

/-- The states a node starts in; `base` is the content then. -/
inductive Start (base : ChainState Id Rest) : Node Block Id Rest → Prop
  | genesis (hi : base.headId = zero) (hl : base.lib = 0) : Start base (atGenesis base)
  | opened {b : Block} {log : List Block} (hi : base.headId = id b) (hl : base.lib ≤ base.headNum)
      (hlog : base.headNum ≤ log.length) : Start base (opened base b log)

/-- Pushing the block makes a branch other than the chain's the longest one. -/
def Longer (s : Node Block Id Rest) (b : Block) : Prop :=
  (∃ newHead fork, s.fork.pushBlock b = .ok (newHead, fork)) ∧
    previous b ≠ s.chain.headId ∧ s.chain.headNum < num (id b)

/-- The `prev` pointers of both branches resolve down to a common block, the sessions on the
stack reach that block, and they still do after the blocks that apply when not all of the new
branch does. -/
def Switchable (s : Node Block Id Rest) (b : Block) : Prop :=
  ∃ newHead fork first second session,
    s.fork.pushBlock b = .ok (newHead, fork) ∧
    fork.fetchBranchFrom newHead.id s.chain.headId = .ok (first, second) ∧
    s.undo[second.length - 1]? = some session ∧
    (session.2.replay (first.reverse.map ForkItem.block) = none →
      session.2.ceiling (first.reverse.map ForkItem.block) ≤ session.2.headNum)

/-- The push does not run into a state it cannot leave cleanly: a block on the head applies,
and a switch to another branch has all it needs. -/
structure StepOk (s : Node Block Id Rest) (b : Block) : Prop where
  extends_head : previous b = s.chain.headId → (s.chain.apply b).isSome
  switchable : Longer s b → Switchable s b

def StepsOk : Node Block Id Rest → List Block → Prop
  | _, [] => True
  | s, b :: blocks => StepOk s b ∧ StepsOk (s.push b) blocks

section Run

variable {base : ChainState Id Rest} {s : Node Block Id Rest} {hd newHead : ForkItem Block}
  {b : Block} {fork : ForkDatabase Block}

theorem tree_empty (base : ChainState Id Rest) (floor : ℕ) :
    Tree base floor (ForkDatabase.empty : ForkDatabase Block) := by
  constructor <;> simp [ForkDatabase.empty]

theorem Intact.opened {log : List Block} (hi : base.headId = id b) (hl : base.lib ≤ base.headNum)
    (hlog : base.headNum ≤ log.length) :
    Intact base (Node.opened base b log) ⟨⟨0, b⟩, []⟩ := by
  have hnum : num (id b) = base.headNum := by rw [ChainState.headNum, hi]
  refine ⟨rfl, ⟨⟨hi.symm, [], rfl⟩, hl, hlog, List.isChain_singleton _, fun l t hs _ ↦ ?_, ?_⟩, ?_⟩
  · obtain ⟨rfl, rfl⟩ : l = ⟨0, b⟩ ∧ t = [] := by
      simpa [ForkItem.path, List.suffix_cons_iff] using hs
    exact List.mem_cons_self
  · constructor
    · simp [Node.opened, startBlock, ForkDatabase.empty, fetchBlock, ForkItem.path, Linked]
    · simp [Node.opened, startBlock, ForkDatabase.empty, fetchBlock]
    · simp [Node.opened, startBlock, ForkDatabase.empty, fetchBlock, ForkItem.path,
        List.suffix_cons_iff]
    · simp [Node.opened, startBlock, ForkDatabase.empty, fetchBlock, ForkItem.path]
    · simp [Node.opened, startBlock, ForkDatabase.empty, fetchBlock, ForkItem.path,
        List.suffix_cons_iff, hnum]
    · simp [Node.opened, startBlock, ForkDatabase.empty, fetchBlock, ForkItem.path,
        List.suffix_cons_iff]
  · simp [Node.opened, startBlock, ForkDatabase.empty, fetchBlock]

/-- What a push does to an aligned node when the step is fine. -/
inductive Pushed (base : ChainState Id Rest) (s : Node Block Id Rest) (hd : ForkItem Block)
    (b : Block) : EStateM.Result String (Node Block Id Rest) Bool → Prop
  | refused {e : String} (hp : s.fork.pushBlock b = .error e) : Pushed base s hd b (.error e s)
  | stored {newHead : ForkItem Block} {fork : ForkDatabase Block}
      (hp : s.fork.pushBlock b = .ok (newHead, fork)) (hn : ¬ s.chain.headNum < num (id b)) :
      Pushed base s hd b (.ok false { s with fork := fork })
  | next {newHead : ForkItem Block} {fork : ForkDatabase Block} {c : ChainState Id Rest}
      {s' : Node Block Id Rest} (hp : s.fork.pushBlock b = .ok (newHead, fork))
      (hc : s.chain.apply b = some c) (hi : Intact base s' newHead)
      (ha : Standing.Applied { s with fork := fork } newHead c s') : Pushed base s hd b (.ok false s')
  | switched {newHead : ForkItem Block} {fork : ForkDatabase Block}
      {r : EStateM.Result String (Node Block Id Rest) Bool}
      (hp : s.fork.pushBlock b = .ok (newHead, fork)) (hl : s.chain.headNum < num (id b))
      (h : Switched base { s with fork := fork } hd newHead r) : Pushed base s hd b r

theorem Intact.switch_iff (h : Intact base s hd) (hl : Longer s b) :
    ∃ newHead fork parent, s.fork.pushBlock b = .ok (newHead, fork) ∧ newHead.block = b ∧
      Ahead base { s with fork := fork } hd parent newHead ∧
      (Node.pushBlock b).run s = (switchFork newHead).run { s with fork := fork } := by
  obtain ⟨⟨newHead, fork, hp⟩, hne, hn⟩ := hl
  obtain ⟨hb, -, parent, ha⟩ := h.ahead hp hne hn
  refine ⟨newHead, fork, parent, hp, hb, ha, pushBlock_longer hp (hb ▸ hne) ?_⟩
  change s.chain.headNum < num (id newHead.block)
  rw [hb]
  exact hn

theorem Intact.switched (h : Intact base s hd) (hl : Longer s b) (hsw : Switchable s b) :
    ∃ newHead fork, s.fork.pushBlock b = .ok (newHead, fork) ∧ newHead.block = b ∧
      Switched base { s with fork := fork } hd newHead ((Node.pushBlock b).run s) := by
  obtain ⟨newHead, fork, parent, hp, hb, ha, hrun⟩ := h.switch_iff hl
  obtain ⟨newHead', fork', first, second, session, hp', hf, hu, hc⟩ := hsw
  rw [hp] at hp'
  cases hp'
  exact ⟨newHead, fork, hp, hb, hrun ▸ ha.switched hf hu hc⟩

theorem Intact.pushed (h : Intact base s hd) (hok : StepOk s b) :
    Pushed base s hd b ((Node.pushBlock b).run s) := by
  cases hp : s.fork.pushBlock b with
  | error e =>
    rw [pushBlock_error hp]
    exact .refused hp
  | ok r =>
    obtain ⟨newHead, fork⟩ := r
    by_cases hn : s.chain.headNum < num (id b)
    · by_cases he : previous b = s.chain.headId
      · obtain ⟨c, hc⟩ := Option.isSome_iff_exists.mp (hok.extends_head he)
        obtain ⟨s', hr, hi, ha⟩ := h.push_next hp he hc
        rw [hr]
        exact .next hp hc hi ha
      · have hl : Longer s b := ⟨⟨newHead, fork, hp⟩, he, hn⟩
        obtain ⟨newHead', fork', hp', -, hsw⟩ := h.switched hl (hok.switchable hl)
        exact .switched hp' hn hsw
    · rw [(h.push_lower hp hn).1]
      exact .stored hp hn

theorem Pushed.intact (h : Intact base s hd)
    {r : EStateM.Result String (Node Block Id Rest) Bool} (hp : Pushed base s hd b r) :
    ∃ hd', Intact base (after r) hd' := by
  cases hp with
  | refused hp => exact ⟨hd, h⟩
  | stored hp hn => exact ⟨hd, (h.push_lower hp hn).2⟩
  | next hp hc hi ha => exact ⟨_, hi⟩
  | switched hp hl hs =>
    cases hs with
    | adopted hc hn ha => exact ⟨_, h.of_adopted hp hl ha⟩
    | restored hc hg hpr hb hn hch hv hr => exact ⟨_, h.of_restored hp hl hn hr⟩

theorem Intact.step (h : Intact base s hd) (hok : StepOk s b) :
    ∃ hd', Intact base (s.push b) hd' :=
  (h.pushed hok).intact h

theorem Intact.run (h : Intact base s hd) {blocks : List Block} (hok : StepsOk s blocks) :
    ∃ hd', Intact base (s.deliver blocks) hd' := by
  induction blocks generalizing s hd with
  | nil => exact ⟨hd, h⟩
  | cons b blocks ih =>
    obtain ⟨hd', h'⟩ := h.step hok.1
    exact ih h' hok.2

/-- `fork_db` with the first block in it. -/
def ForkDatabase.first (b : Block) : ForkDatabase Block :=
  ⟨[⟨⟨0, b⟩, []⟩], some ⟨⟨0, b⟩, []⟩, 1024, 1⟩

theorem pushBlock_empty (b : Block) :
    (ForkDatabase.empty : ForkDatabase Block).pushBlock b =
      .ok (⟨⟨0, b⟩, []⟩, ForkDatabase.first b) := by
  simp [ForkDatabase.pushBlock, ForkDatabase.empty, linkTo, fetchBlock, ForkDatabase.first]

/-- The first block of a chain links to nothing and is only taken over on the content it
names. -/
theorem not_switchable_atGenesis (hi : base.headId = zero) (b : Block) :
    ¬ Switchable (atGenesis base) b := by
  rintro ⟨newHead, fork, first, second, session, hp, hf, -⟩
  have hp : (ForkDatabase.empty : ForkDatabase Block).pushBlock b = .ok (newHead, fork) := hp
  rw [pushBlock_empty] at hp
  cases hp
  have hne : id b ≠ zero := by
    intro he
    have hn := num_previous b
    rw [he, BlockId.num_zero] at hn
    omega
  have hc : (atGenesis base : Node Block Id Rest).chain.headId = zero := hi
  rw [hc] at hf
  simp [fetchBranchFrom, fetchBlock, ForkDatabase.first, ForkItem.id, ForkItem.block, hne] at hf

/-- The first block from genesis. -/
theorem push_first (hi : base.headId = zero) (hl : base.lib = 0)
    (hok : StepOk (atGenesis base) b) :
    ∃ c s', base.apply b = some c ∧ (Node.pushBlock b).run (atGenesis base) = .ok false s' ∧
      Intact base s' ⟨⟨0, b⟩, []⟩ ∧
      Standing.Applied ⟨ForkDatabase.first b, base, [], []⟩ ⟨⟨0, b⟩, []⟩ c s' := by
  have hp : (atGenesis base : Node Block Id Rest).fork.pushBlock b =
      .ok (⟨⟨0, b⟩, []⟩, ForkDatabase.first b) := pushBlock_empty b
  have hz : base.headNum = 0 := by rw [ChainState.headNum, hi, BlockId.num_zero]
  have he : previous b = base.headId := by
    by_contra hne
    have hpos : base.headNum < num (id b) := by
      have := num_previous b
      omega
    exact not_switchable_atGenesis hi b (hok.switchable ⟨⟨_, _, hp⟩, hne, hpos⟩)
  obtain ⟨c, hc⟩ := Option.isSome_iff_exists.mp (hok.extends_head he)
  have htree : Tree base 0 (ForkDatabase.first b) :=
    (tree_empty base 0).push (fun _ ↦ by rw [he, hi]) (pushBlock_empty b)
  have hst : Standing base ⟨ForkDatabase.first b, base, [], []⟩ ([] : List (Link Block)) :=
    ⟨⟨hi.symm, [], rfl⟩, by omega, by simp [Node.floor, hz], List.isChain_nil,
      fun l t hs ↦ by simp at hs, by simpa [Node.floor, hz] using htree⟩
  have hmem : (⟨⟨0, b⟩, []⟩ : ForkItem Block) ∈ (ForkDatabase.first b).index :=
    List.mem_cons_self
  obtain ⟨s', hr, ha, hs'⟩ := hst.apply hmem rfl hc [ForkItem.ref ⟨⟨0, b⟩, []⟩]
  refine ⟨c, s', hc, ?_, ⟨ha.head, hs', fun it hit ↦ ?_⟩, ha⟩
  · have hr : (applyInSession [ForkItem.ref ⟨⟨0, b⟩, []⟩] b).run
        { fork := ForkDatabase.first b, chain := (atGenesis base : Node Block Id Rest).chain
          undo := (atGenesis base : Node Block Id Rest).undo
          log := (atGenesis base : Node Block Id Rest).log } = .ok ⟨⟩ s' := hr
    rw [pushBlock_extends hp he, hr]
  · rw [ha.index] at hit
    rw [show it = ⟨⟨0, b⟩, []⟩ from List.mem_singleton.mp (List.mem_of_mem_filter hit)]

theorem Start.step {s : Node Block Id Rest} (hs : Start base s) (hok : StepOk s b) :
    ∃ hd, Intact base (s.push b) hd := by
  cases hs with
  | opened hi hl hlog => exact (Intact.opened hi hl hlog).step hok
  | genesis hi hl =>
    obtain ⟨c, s', -, hr, h, -⟩ := push_first hi hl hok
    rw [Node.push, hr]
    exact ⟨_, h⟩

/-- From the start on, the node is aligned after every push. -/
theorem Start.run {s : Node Block Id Rest} (hs : Start base s) {blocks : List Block}
    (hne : blocks ≠ []) (hok : StepsOk s blocks) : ∃ hd, Intact base (s.deliver blocks) hd := by
  match blocks with
  | b :: blocks =>
    obtain ⟨hd, h⟩ := hs.step hok.1
    exact h.run hok.2

end Run

end Taiyi.Chain
