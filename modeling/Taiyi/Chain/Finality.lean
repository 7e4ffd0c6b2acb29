import Taiyi.Chain.Deliver
import Taiyi.Chain.Notices

set_option autoImplicit false

namespace Taiyi.Chain

open ForkDatabase Node

section General

variable {Block Id Rest : Type} [BlockId Id] [BlockHeader Block Id] [DecidableEq Id]
  [Evaluation Block Id Rest]

/-- The chains from the base to both contents have the same blocks up to the height `n`. -/
def Kept (Block : Type) {Id Rest : Type} [BlockId Id] [BlockHeader Block Id] [DecidableEq Id]
    [Evaluation Block Id Rest] (base : ChainState Id Rest) (n : ℕ)
    (c c' : ChainState Id Rest) : Prop :=
  ∃ bs bs' : List Block, base.replay bs = some c ∧ base.replay bs' = some c' ∧
    n ≤ c.headNum ∧ n ≤ c'.headNum ∧
    bs.take (n - base.headNum) = bs'.take (n - base.headNum)

variable {base c c' c'' d : ChainState Id Rest} {n : ℕ}

namespace Kept

theorem refl {bs : List Block} (hc : base.replay bs = some c) (hn : n ≤ c.headNum) :
    Kept Block base n c c := ⟨bs, bs, hc, hc, hn, hn, rfl⟩

theorem trans (h : Kept Block base n c c') (h' : Kept Block base n c' c'') :
    Kept Block base n c c'' := by
  obtain ⟨bs, bs', hc, hc', hn, -, he⟩ := h
  obtain ⟨cs, cs', hd, hd', -, hn', he'⟩ := h'
  obtain rfl := ChainState.replay_unique hc' hd rfl
  exact ⟨bs, cs', hc, hd', hn, hn', he.trans he'⟩

theorem mono (h : Kept Block base n c c') {m : ℕ} (hm : m ≤ n) : Kept Block base m c c' := by
  obtain ⟨bs, bs', hc, hc', hn, hn', he⟩ := h
  refine ⟨bs, bs', hc, hc', hm.trans hn, hm.trans hn', ?_⟩
  have hmin : min (m - base.headNum) (n - base.headNum) = m - base.headNum := by omega
  have := congrArg (List.take (m - base.headNum)) he
  rwa [List.take_take, List.take_take, hmin] at this

/-- Two chains share the blocks up to a content that both pass through. -/
theorem of_common {shared old new : List Block} (hd : base.replay shared = some d)
    (hc : d.replay old = some c) (hc' : d.replay new = some c') (hn : n ≤ d.headNum) :
    Kept Block base n c c' := by
  have hs := ChainState.headNum_replay hd
  refine ⟨shared ++ old, shared ++ new, ?_, ?_, ?_, ?_, ?_⟩
  · rw [ChainState.replay_append, hd, Option.bind_some, hc]
  · rw [ChainState.replay_append, hd, Option.bind_some, hc']
  · exact hn.trans (ChainState.headNum_replay hc ▸ Nat.le_add_right _ _)
  · exact hn.trans (ChainState.headNum_replay hc' ▸ Nat.le_add_right _ _)
  · rw [List.take_append_of_le_length (by omega), List.take_append_of_le_length (by omega)]

end Kept

theorem lib_le_ceiling {bs : List Block} (h : c.replay bs = some c') (hne : bs ≠ []) :
    c'.lib ≤ c.ceiling bs := by
  induction bs generalizing c with
  | nil => exact absurd rfl hne
  | cons b bs ih =>
    rw [ChainState.replay_cons] at h
    obtain ⟨e, he, h⟩ := Option.bind_eq_some_iff.mp h
    simp only [ChainState.ceiling, he]
    cases bs with
    | nil =>
      cases h
      exact Nat.le_max_left _ _
    | cons x bs => exact (ih h (List.cons_ne_nil _ _)).trans (Nat.le_max_right _ _)

variable {s : Node Block Id Rest} {hd newHead : ForkItem Block} {b : Block}

/-- Whether the new branch is taken over or not, the chain keeps its blocks up to the floor. -/
theorem Ahead.kept {parent : ForkItem Block} (h : Ahead base s hd parent newHead)
    {first second : List (ForkItem Block)}
    (hf : s.fork.fetchBranchFrom newHead.id s.chain.headId = .ok (first, second))
    {r : ℕ} {c : ChainState Id Rest} (hu : s.undo[second.length - 1]? = some (r, c))
    (hc : c.replay (first.reverse.map ForkItem.block) = none →
      c.ceiling (first.reverse.map ForkItem.block) ≤ c.headNum) :
    Kept Block base s.floor s.chain (after ((switchFork newHead).run s)).chain := by
  obtain ⟨target, q, q', hk⟩ := h.fork_of_fetch hf
  obtain ⟨s₀, -, hs₀, -, -, hfl, hold, r', hu'⟩ := hk.pops h (hk.length_le hu)
  obtain ⟨rfl, rfl⟩ : r = r' ∧ c = s₀.chain := by simpa [hu] using hu'
  obtain ⟨bs, hbs⟩ := hs₀.backed.replays
  have hn : s.floor ≤ s₀.chain.headNum := hfl ▸ Nat.sub_le _ _
  cases hr : s₀.chain.replay (first.reverse.map ForkItem.block) with
  | some d =>
    obtain ⟨s', hrun, ha⟩ := hk.adopts h hf hu hr
    rw [hrun]
    exact .of_common hbs hold ha.chain hn
  | none =>
    obtain ⟨good, bad, rest, e, s', hs, hp, hrun⟩ := hk.partway h hf hu hr
    obtain ⟨s₁, s₂, hpop, hres, hR⟩ := hk.restores h hu hs hp (hc hr)
    rw [hrun, hpop]
    simp only [hres]
    change Kept Block base s.floor s.chain s₂.chain
    rw [hR.chain]
    exact .of_common hbs hold hold hn

/-- What a push leaves alone: the blocks up to the floor, and all blocks when it throws. -/
structure Settles (base : ChainState Id Rest) (s : Node Block Id Rest)
    (r : EStateM.Result String (Node Block Id Rest) Bool) : Prop where
  kept : Kept Block base s.floor s.chain (after r).chain
  floor : s.floor ≤ (after r).floor
  lib : (after r).chain.lib ≤ max s.chain.lib (after r).floor
  failed : ∀ e s', r = .error e s' → s'.chain = s.chain

theorem Standing.kept {p : List (Link Block)} (h : Standing base s p) :
    Kept Block base s.floor s.chain s.chain := by
  obtain ⟨bs, hbs⟩ := h.backed.replays
  exact .refl hbs (Nat.sub_le _ _)

theorem Switched.settles {fork : ForkDatabase Block}
    {r : EStateM.Result String (Node Block Id Rest) Bool}
    (hk : Kept Block base s.floor s.chain (after r).chain)
    (h : Switched base { s with fork := fork } hd newHead r) : Settles base s r := by
  cases h with
  | @adopted s' c bs branch hc hn ha =>
    have hne : branch ≠ [] := by
      rintro rfl
      cases hn
    have hle := lib_le_ceiling ha.chain hne
    have hfl : s'.floor = max s.floor (c.ceiling branch) := ha.floor
    refine ⟨hk, ?_, ?_, fun e s' he ↦ by cases he⟩
    · change s.floor ≤ s'.floor
      omega
    · change s'.chain.lib ≤ max _ s'.floor
      omega
  | @restored e s' c d bs old good rest bad hc hg hpr hb hn hch hv hr =>
    have hfl : s'.floor = max (max s.floor _) _ := hr.floor
    have hchain : s'.chain = s.chain := hr.chain
    refine ⟨hk, ?_, ?_, fun e' s'' he ↦ by cases he; exact hchain⟩
    · change s.floor ≤ s'.floor
      omega
    · change s'.chain.lib ≤ max _ s'.floor
      rw [hchain]
      exact Nat.le_max_left _ _

/-- A block on the head of the chain that applies. -/
theorem Standing.Applied.settles {p : List (Link Block)} (h : Standing base s p)
    {it : ForkItem Block} {c : ChainState Id Rest} (hc : s.chain.apply it.block = some c)
    {s' : Node Block Id Rest} (ha : Standing.Applied s it c s') (a : Bool) :
    Settles base s (.ok a s') := by
  obtain ⟨bs, hbs⟩ := h.backed.replays
  have hfl := h.floor_applied hc ha
  have hlib := ChainState.lib_le_apply h.lib_le hc
  have hnew : s.chain.replay [it.block] = some c := by rw [ChainState.replay_cons, hc]; rfl
  have hchain : (after (.ok a s') : Node Block Id Rest).chain = c := ha.chain
  refine ⟨?_, ?_, ?_, fun e s'' he ↦ by cases he⟩
  · rw [hchain]
    exact .of_common hbs (ChainState.replay_nil _) hnew (Nat.sub_le _ _)
  · change s.floor ≤ s'.floor
    omega
  · change s'.chain.lib ≤ max _ s'.floor
    rw [ha.chain]
    omega

theorem Intact.settles (h : Intact base s hd) (hok : StepOk s b) :
    Settles base s ((Node.pushBlock b).run s) := by
  have hkeep := h.standing.kept
  cases hp : s.fork.pushBlock b with
  | error e =>
    rw [pushBlock_error hp]
    exact ⟨hkeep, Nat.le_refl _, Nat.le_max_left _ _, fun e' s' he ↦ by cases he; rfl⟩
  | ok r =>
    obtain ⟨newHead, fork⟩ := r
    by_cases hn : s.chain.headNum < num (id b)
    · by_cases he : previous b = s.chain.headId
      · obtain ⟨c, hc⟩ := Option.isSome_iff_exists.mp (hok.extends_head he)
        obtain ⟨s', hr, hi, ha⟩ := h.push_next hp he hc
        obtain ⟨hb, -⟩ := h.push_higher hp hn
        rw [hr]
        have hset := ha.settles (h.standing_push hp) (hb ▸ hc) false
        exact ⟨hset.kept, hset.floor, hset.lib, hset.failed⟩
      · have hl : Longer s b := ⟨⟨newHead, fork, hp⟩, he, hn⟩
        obtain ⟨newHead', fork', parent, hp', -, ha, hrun⟩ := h.switch_iff hl
        obtain ⟨newHead'', fork'', first, second, session, hp'', hf, hu, hc⟩ := hok.switchable hl
        rw [hp'] at hp''
        cases hp''
        rw [hrun]
        exact (ha.switched hf hu hc).settles (ha.kept hf hu hc)
    · rw [(h.push_lower hp hn).1]
      exact ⟨hkeep, Nat.le_refl _, Nat.le_max_left _ _, fun e s' he ↦ by cases he⟩

/-- The first block from genesis. -/
theorem settles_first (hi : base.headId = zero) (hl : base.lib = 0)
    (hok : StepOk (atGenesis base) b) :
    Settles base (atGenesis base) ((Node.pushBlock b).run (atGenesis base)) := by
  obtain ⟨c, s', hc, hr, -, ha⟩ := push_first hi hl hok
  have hn := ChainState.headNum_apply hc
  have hz : base.headNum = 0 := by rw [ChainState.headNum, hi, BlockId.num_zero]
  have hlib := ChainState.lib_le_apply (by omega) hc
  have hfl : s'.floor = c.headNum - min (c.headNum - c.lib) 1 := by
    rw [Node.floor, ha.chain, ha.undo, List.length_take, List.length_singleton]
  have hfl₀ : (atGenesis base : Node Block Id Rest).floor = base.headNum := Nat.sub_zero _
  have hnew : base.replay [b] = some c := by rw [ChainState.replay_cons, hc]; rfl
  rw [hr]
  refine ⟨?_, ?_, ?_, fun e s'' he ↦ by cases he⟩
  · change Kept Block base _ base s'.chain
    rw [ha.chain]
    exact .of_common (ChainState.replay_nil _) (ChainState.replay_nil _) hnew (Nat.le_of_eq hfl₀)
  · change _ ≤ s'.floor
    omega
  · change s'.chain.lib ≤ max _ s'.floor
    rw [ha.chain]
    omega

/-- A node on the way: it starts or is aligned, and blocks up to the floor are irreversible. -/
structure Settled (base : ChainState Id Rest) (s : Node Block Id Rest) : Prop where
  node : Start base s ∨ ∃ hd, Intact base s hd
  lib : s.chain.lib ≤ s.floor

theorem Start.settled (hs : Start base s) : Settled base s := by
  refine ⟨.inl hs, ?_⟩
  cases hs with
  | genesis hi hl => exact Nat.le_trans (Nat.le_of_eq hl) (Nat.zero_le _)
  | opened hi hl hlog => exact hl

theorem Settled.step (h : Settled base s) (hok : StepOk s b) :
    Settled base (s.push b) ∧ Settles base s ((Node.pushBlock b).run s) := by
  have hs : Settles base s ((Node.pushBlock b).run s) := by
    rcases h.node with hs | ⟨hd, hi⟩
    · cases hs with
      | genesis hi hl => exact settles_first hi hl hok
      | opened hi hl hlog => exact (Intact.opened hi hl hlog).settles hok
    · exact hi.settles hok
  refine ⟨⟨.inr ?_, ?_⟩, hs⟩
  · rcases h.node with hs | ⟨hd, hi⟩
    · exact hs.step hok
    · exact hi.step hok
  · have hle := hs.lib
    have hfl := hs.floor
    have hlib := h.lib
    change (after _).chain.lib ≤ (after _).floor
    omega

theorem Settled.replays (h : Settled base s) : ∃ bs : List Block, base.replay bs = some s.chain := by
  rcases h.node with hs | ⟨hd, hi⟩
  · cases hs <;> exact ⟨[], rfl⟩
  · exact hi.standing.backed.replays

theorem Settled.run (h : Settled base s) {blocks : List Block} (hok : StepsOk s blocks) :
    Settled base (s.deliver blocks) ∧ Kept Block base s.floor s.chain (s.deliver blocks).chain := by
  induction blocks generalizing s with
  | nil =>
    obtain ⟨bs, hbs⟩ := h.replays
    exact ⟨h, .refl hbs (Nat.sub_le _ _)⟩
  | cons b blocks ih =>
    obtain ⟨h', hs⟩ := h.step hok.1
    obtain ⟨hrun, hk⟩ := ih h' hok.2
    exact ⟨hrun, hs.kept.trans (hk.mono hs.floor)⟩

theorem stepsOk_append {earlier later : List Block} :
    StepsOk s (earlier ++ later) ↔ StepsOk s earlier ∧ StepsOk (s.deliver earlier) later := by
  induction earlier generalizing s with
  | nil => simp [StepsOk, Node.deliver]
  | cons b earlier ih => simp [StepsOk, Node.deliver, ih, and_assoc]

end General

section Rule

variable {Block Id Name Other : Type} [BlockId Id] [BlockHeader Block Id] [DecidableEq Id]
  [DecidableEq Name] [Processing Block Id Name Other]

/-- The content is that of some chain from genesis. -/
def FromGenesis (Block : Type) {Id Name Other : Type} [BlockId Id] [BlockHeader Block Id]
    [DecidableEq Id] [DecidableEq Name] [Processing Block Id Name Other]
    (base : ChainState Id (Confirmations Name Other)) : Prop :=
  ∃ (genesis : ChainState Id (Confirmations Name Other)) (bs : List Block),
    genesis.headId = zero ∧ genesis.lib = 0 ∧ genesis.rest.headBlockNumber = 0 ∧
      genesis.replay bs = some base

theorem FromGenesis.paced {base : ChainState Id (Confirmations Name Other)}
    (h : FromGenesis Block base) : Paced base := by
  obtain ⟨genesis, bs, hi, hl, hn, hr⟩ := h
  exact (Paced.replay (.genesis hi hl hn) hr).1

/-- How many of the simings scheduled at `c` have produced a block at or above `n` when the
content is `c'`. -/
def confirmedBy (c c' : ChainState Id (Confirmations Name Other)) (n : ℕ) : ℕ :=
  c.rest.scheduled.countP fun name ↦ (c'.rest.lastConfirmed name).any (n ≤ ·)

/-- Irreversibility over the pushes of a run: on every branch the last irreversible block does
not decrease or pass the head and is raised to the highest block that enough scheduled simings
have confirmed, no irreversible block is popped, and a push that throws leaves the chain. -/
structure Irreversible (base : ChainState Id (Confirmations Name Other))
    (s : Node Block Id (Confirmations Name Other)) (blocks : List Block) : Prop where
  branch : ∀ (bs : List Block) (b : Block) c c', base.replay bs = some c → c.apply b = some c' →
    c.lib ≤ c'.lib ∧ c'.lib ≤ c'.headNum
  rule : ∀ (bs : List Block) (b : Block) c c', base.replay bs = some c → c.apply b = some c' →
    taiyiStartAdoringBlock ≤ c'.headNum → c.lib < c'.lib →
    IsGreatest {n | c.rest.scheduled.length - Confirmations.offset c.rest.scheduled.length ≤
      confirmedBy c c' n} c'.lib
  bounded : ∀ earlier later, blocks = earlier ++ later →
    (s.deliver earlier).chain.lib ≤ (s.deliver earlier).floor ∧
      (s.deliver earlier).floor ≤ (s.deliver earlier).chain.headNum
  kept : ∀ earlier later, blocks = earlier ++ later → Kept Block base (s.deliver earlier).floor
    (s.deliver earlier).chain (s.deliver blocks).chain
  failed : ∀ earlier b later e s', blocks = earlier ++ b :: later →
    (Node.pushBlock b).run (s.deliver earlier) = .error e s' →
      s'.chain = (s.deliver earlier).chain

variable {base : ChainState Id (Confirmations Name Other)}
  {s : Node Block Id (Confirmations Name Other)}

theorem confirmed_by_rule {c c' : ChainState Id (Confirmations Name Other)} {b : Block}
    (h : c.apply b = some c') (hl : taiyiStartAdoringBlock ≤ c'.headNum) (hlt : c.lib < c'.lib) :
    IsGreatest {n | c.rest.scheduled.length - Confirmations.offset c.rest.scheduled.length ≤
      confirmedBy c c' n} c'.lib := by
  obtain ⟨-, before, hb, hs, hu, -, hc⟩ := apply_ok h
  have hg := Confirmations.isGreatest_of_advanced (hb ▸ Nat.not_lt.mpr hl) hu hlt
  have he : ∀ n, before.confirmations n = confirmedBy c c' n := by
    intro n
    rw [Confirmations.confirmations, confirmedBy, hs, hc]
  simpa only [hs, he] using hg

/-- In every run from genesis, or from a node opened on a chain from genesis, whose blocks on
the head apply and whose switches have what they need. -/
theorem irreversible_of_stepsOk (hg : FromGenesis Block base) (hs : Start base s)
    {blocks : List Block} (hok : StepsOk s blocks) : Irreversible base s blocks := by
  have hp := hg.paced
  refine ⟨fun bs b c c' hc hb ↦ ?_, fun bs b c c' _ hb hl hlt ↦ confirmed_by_rule hb hl hlt,
    fun earlier later he ↦ ?_, fun earlier later he ↦ ?_, fun earlier b later e s' he hr ↦ ?_⟩
  · have hpc := (hp.replay hc).1
    exact ⟨hpc.lib_mono hb, (hpc.step hb).lib_le⟩
  · subst he
    have h := (hs.settled.run (stepsOk_append.mp hok).1).1
    exact ⟨h.lib, Nat.sub_le _ _⟩
  · subst he
    obtain ⟨hok, hok'⟩ := stepsOk_append.mp hok
    have h := ((hs.settled.run hok).1.run hok').2
    rwa [Node.deliver, Node.deliver, ← List.foldl_append] at h
  · subst he
    obtain ⟨hok, hok'⟩ := stepsOk_append.mp hok
    exact ((hs.settled.run hok).1.step hok'.1).2.failed e s' hr

end Rule

section Branches

/-- The blocks of the side branch on the first block of the main one. -/
def sideBlocks (n : ℕ) : List BranchBlock := (List.range n).map fun k ↦ ⟨true, k + 1⟩

theorem branchGenesis_fromGenesis : FromGenesis BranchBlock branchGenesis :=
  ⟨branchGenesis, [], rfl, rfl, rfl, rfl⟩

/-- Block 2 is irreversible when the branch that leaves the chain below it becomes the longest:
the push throws, and the chain has lost its blocks above block 2. -/
theorem irreversible_block_stops_popping :
    FromGenesis BranchBlock branchGenesis ∧
      Start branchGenesis (atGenesis branchGenesis : Node BranchBlock _ _) ∧
      ¬ Irreversible branchGenesis (atGenesis branchGenesis)
        (mainBlocks 23 ++ sideBlocks 22 ++ [⟨true, 23⟩]) := by
  refine ⟨branchGenesis_fromGenesis, .genesis rfl rfl, fun h ↦ ?_⟩
  have hhead : ((atGenesis branchGenesis).deliver (mainBlocks 23 ++ sideBlocks 22)).chain.headNum =
      23 := by decide +kernel
  have hrun : (match (Node.pushBlock ⟨true, 23⟩).run
      ((atGenesis branchGenesis).deliver (mainBlocks 23 ++ sideBlocks 22)) with
    | .ok _ _ => 0
    | .error _ s' => s'.chain.headNum) = 2 := by decide +kernel
  cases hr : (Node.pushBlock ⟨true, 23⟩).run
      ((atGenesis branchGenesis).deliver (mainBlocks 23 ++ sideBlocks 22)) with
  | ok a s' =>
    rw [hr] at hrun
    cases hrun
  | error e s' =>
    rw [hr] at hrun
    have hc := h.failed _ _ [] e s' rfl hr
    rw [← hc] at hhead
    exact absurd (hhead.symm.trans hrun) (by decide)

theorem stepOk_next {s : Node BranchBlock BranchId (Confirmations Unit Unit)} {b : BranchBlock}
    (hp : previous b = s.chain.headId) (hc : (s.chain.apply b).isSome) : StepOk s b :=
  ⟨fun _ ↦ hc, fun hl ↦ absurd hp hl.2.1⟩

/-- A switch to a branch of two blocks. -/
theorem switch_irreversible :
    Irreversible branchGenesis (atGenesis branchGenesis) (mainBlocks 2 ++ sideBlocks 2) := by
  refine irreversible_of_stepsOk branchGenesis_fromGenesis (.genesis rfl rfl)
    ⟨stepOk_next (by decide +kernel) (by decide +kernel),
      stepOk_next (by decide +kernel) (by decide +kernel),
      ⟨fun he ↦ absurd he (by decide +kernel), fun hl ↦ absurd hl.2.2 (by decide +kernel)⟩,
      ⟨fun he ↦ absurd he (by decide +kernel), fun _ ↦ ?_⟩, trivial⟩
  refine ⟨_, _, _, _, _, rfl, rfl, rfl, ?_⟩
  decide +kernel

end Branches

end Taiyi.Chain
