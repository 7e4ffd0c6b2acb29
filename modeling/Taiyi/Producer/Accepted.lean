import Taiyi.Producer.Turns
import Taiyi.Schedule.WellFormed

set_option autoImplicit false

namespace Taiyi.Producer

open Transactions

variable {Op Sig TrxId Result World Global Plugin Key Digest : Type} [DecidableEq TrxId]
  [TransactionId Op TrxId] [DecidableEq Key] [DecidableEq Digest]
  [Engine Op Sig Result World Global Plugin Key Digest]

namespace Node

/-- A node between two calls. The session over its head has nothing but what transactions
change; the binary knows every hardfork of the chain, and the simings have voted for blocks of
a size that they may vote for. -/
structure AtRest (n : Node Op Sig TrxId Result World Global Plugin) : Prop where
  path : n.process.invokingPath = []
  overrun : n.process.overrun = false
  producing : n.producing = false
  session : ∀ s ∈ n.session, s.head = n.head.head ∧ s.world.global = n.head.world.global ∧
    s.world.hardfork = n.head.world.hardfork ∧ s.world.report = n.head.world.report
  version : n.head.world.hardfork.currentHardforkVersion ≤ taiyiBlockchainVersion
  size : taiyiMinBlockSizeLimit ≤ Engine.maximumBlockSize Op Sig n.head.world.global

/-- The siming has the slot of the time and is called with the key that the node finds for it. -/
structure Scheduled (n : Node Op Sig TrxId Result World Global Plugin) (timestamp siming : ℕ)
    (key : Key) : Prop where
  slot : 0 < getSlotAtTime n.head.head timestamp
  turn : Engine.getScheduledSiming Op Sig n.head.head n.head.world.global
    (getSlotAtTime n.head.head timestamp) = siming
  signs : Engine.signingKey Op Sig n.current.world.world siming = some key
  known : ∃ k : Key, Engine.signingKey Op Sig n.head.world.world siming = some k

variable (n : Node Op Sig TrxId Result World Global Plugin) (skip : GenerateFlags)
  (timestamp siming : ℕ) (key : Key)

/-- Every pending transaction with the assembly in which it has its turn. -/
def turns : List (Assembly Op Sig TrxId Result World Global Plugin × SignedTransaction Op Sig) :=
  Assembly.turns skip.toSkipFlags (Engine.maximumBlockSize Op Sig n.head.world.global) timestamp
    n.pendingTx (n.opened siming (adjustHardforkVersionVote n.head.world siming))

/-- The state in which the transactions of the block are applied. -/
def started : State Op Sig TrxId Result (Content World Global Plugin) :=
  { n.head with
    world := Content.processHeaderExtensions { n.head.world with currentSiming := siming } siming
      (adjustHardforkVersionVote n.head.world siming) }

/-- The content on which the rest of block application runs. -/
def closing : Content World Global Plugin :=
  { (n.started siming).world with
    world := (n.applyPendingTransactions timestamp siming skip.toSkipFlags).session.world.world }

/-- The block has the considered transactions that applied, in their order, and a size that is
allowed; assembling leaves the head state and no flag; the block is pushed on the same node,
and at every turn of the assembly its transactions so far have the effect that they had there. -/
structure Accepted : Prop where
  transactions : (n.pendingBlock skip timestamp siming key).transactions =
    ((n.turns skip timestamp siming).filter fun r ↦
      r.1.Considers (Engine.maximumBlockSize Op Sig n.head.world.global) timestamp r.2 ∧
        r.1.Applies skip.toSkipFlags r.2).map Prod.snd
  size : packBlock (n.pendingBlock skip timestamp siming key) ≤
    Engine.maximumBlockSize Op Sig n.head.world.global
  assembled : (n.assembled skip timestamp siming).head = n.head ∧
    (n.assembled skip timestamp siming).session = none ∧
    (n.assembled skip timestamp siming).producing = false
  pushed : ∃ s p, n.generateBlock skip timestamp siming key =
      (.ok (n.pendingBlock skip timestamp siming key),
        { n.assembled skip timestamp siming with head := s, pendingTx := [], process := p }) ∧
    p.overrun = false
  effect : ∃ start, startBlock skip.toSkipFlags (n.pendingBlock skip timestamp siming key) n.head =
      .ok start ∧
    ∀ ts, ts <+: n.pendingTx →
      let a : Assembly Op Sig TrxId Result World Global Plugin :=
        Node.applyPendingTransactions { n with pendingTx := ts } timestamp siming skip.toSkipFlags
      ∃ s p, applyTransactions false skip.toSkipFlags a.included start
        (n.assembled skip timestamp siming).process = (.ok s, p) ∧ Same a.session s

/-- When the node accepts what it produces. -/
structure Producible : Prop where
  /-- No pending transaction changes the key of the siming. -/
  keeps : skip.simingSignature = true ∨ Engine.signingKey Op Sig n.head.world.world siming = some key
  /-- No contract takes an element off the empty path of invocations. -/
  sound : ∀ r ∈ n.turns skip timestamp siming,
    r.1.Considers (Engine.maximumBlockSize Op Sig n.head.world.global) timestamp r.2 →
      (applyTransaction true skip.toSkipFlags r.2 r.1.session r.1.process).2.overrun = false
  fits : skip.blockSizeCheck = true ∨
    packBlock (n.pendingBlock skip timestamp siming key) ≤ taiyiMaxBlockSize
  /-- The routines that follow the transactions do not throw. -/
  closes : ∃ c, Engine.closeBlock skip.toSkipFlags
    ⟨(n.pendingBlock skip timestamp siming key).blockNum, timestamp⟩
    (n.pendingBlock skip timestamp siming key) (n.closing skip timestamp siming) = .ok c

variable {n skip timestamp siming key}

section AtRest

omit [DecidableEq TrxId] [TransactionId Op TrxId] [DecidableEq Key] [DecidableEq Digest] in
theorem current_eq (h : n.AtRest) : n.current.head = n.head.head ∧
    n.current.world.global = n.head.world.global ∧
      n.current.world.hardfork = n.head.world.hardfork ∧
        n.current.world.report = n.head.world.report := by
  unfold current
  cases hs : n.session with
  | none => exact ⟨rfl, rfl, rfl, rfl⟩
  | some s => exact h.session s hs

/-- A node stays at rest when a transaction is pushed, unless a contract overruns the process. -/
theorem AtRest.pushTransaction {t : SignedTransaction Op Sig} {skip : SkipFlags} (h : n.AtRest)
    (hover : (n.pushTransaction skip t).2.process.overrun = false) :
    (n.pushTransaction skip t).2.AtRest := by
  have hfollows : n.process.Follows (applyTransaction n.producing skip t n.current n.process).2 :=
    applyTransaction_follows n.process
  have hpath := hfollows.path h.path
  unfold Node.pushTransaction at hover ⊢
  revert hover hpath
  cases hx : applyTransaction n.producing skip t n.current n.process with
  | mk r p =>
    cases r with
    | error e =>
      intro hover hpath
      refine ⟨hpath, hover, h.producing, ?_, h.version, h.size⟩
      rintro s ⟨⟩
      exact current_eq h
    | ok s' =>
      intro hover hpath
      refine ⟨hpath, hover, h.producing, ?_, h.version, h.size⟩
      rintro s ⟨⟩
      obtain ⟨hhead, hworld⟩ := applyTransaction_keeps hx
      obtain ⟨h₁, h₂, h₃, h₄⟩ := current_eq h
      rw [hhead, hworld]
      exact ⟨h₁, h₂, h₃, h₄⟩

omit [DecidableEq TrxId] [TransactionId Op TrxId] [DecidableEq Key] [DecidableEq Digest] in
theorem adjust_current (h : n.AtRest) :
    adjustHardforkVersionVote n.current.world siming =
      adjustHardforkVersionVote n.head.world siming := by
  obtain ⟨-, -, hh, hr⟩ := current_eq h
  unfold adjustHardforkVersionVote
  rw [hh, hr]

/-- The assembly does not depend on the session that it throws away. -/
theorem applyPendingTransactions_eq (h : n.AtRest) :
    n.applyPendingTransactions timestamp siming skip.toSkipFlags =
      Assembly.applyPending skip.toSkipFlags (Engine.maximumBlockSize Op Sig n.head.world.global)
        timestamp n.pendingTx
        (n.opened siming (adjustHardforkVersionVote n.head.world siming)) := by
  unfold applyPendingTransactions
  rw [adjust_current h, (current_eq h).2.1]

theorem included_eq (h : n.AtRest) : (n.pendingBlock skip timestamp siming key).transactions =
    ((n.turns skip timestamp siming).filter fun r ↦
      r.1.Considers (Engine.maximumBlockSize Op Sig n.head.world.global) timestamp r.2 ∧
        r.1.Applies skip.toSkipFlags r.2).map Prod.snd := by
  change (n.applyPendingTransactions timestamp siming skip.toSkipFlags).included = _
  rw [applyPendingTransactions_eq h, Assembly.included_applyPending]
  rfl

end AtRest

section Size

theorem packLength_le (n : ℕ) : packLength n ≤ 5 := by
  unfold packLength
  split_ifs <;> decide

omit [DecidableEq TrxId] [TransactionId Op TrxId] [DecidableEq Key] [DecidableEq Digest] in
theorem packHeader_le (e : Extensions) : packHeader Op Sig siming e ≤ 141 := by
  have hname : Engine.packName Op Sig siming ≤ 17 := Engine.packName_le siming
  have hext : e.packSize ≤ 15 := by
    unfold Extensions.packSize
    split_ifs <;> omega
  unfold packHeader
  omega

/-- The four bytes that are set aside are enough for the length of the transactions. -/
theorem packBlock_le (h : n.AtRest) : packBlock (n.pendingBlock skip timestamp siming key) ≤
    Engine.maximumBlockSize Op Sig n.head.world.global := by
  obtain ⟨hsize, hlt⟩ := Assembly.totalBlockSize_applyPending
    (a := n.opened siming (adjustHardforkVersionVote n.head.world siming)) rfl n.pendingTx
  rw [← applyPendingTransactions_eq h] at hsize hlt
  have hmin := h.size
  have hheader : packHeader Op Sig siming (adjustHardforkVersionVote n.head.world siming) ≤ 141 :=
    packHeader_le _
  have hpack : packBlock (n.pendingBlock skip timestamp siming key) =
      packHeader Op Sig siming (adjustHardforkVersionVote n.current.world siming) +
        packLength (n.applyPendingTransactions timestamp siming skip.toSkipFlags).included.length +
        ((n.applyPendingTransactions timestamp siming skip.toSkipFlags).included.map
          Engine.packSize).sum := rfl
  rw [hpack, adjust_current h]
  have hopened : (n.opened siming (adjustHardforkVersionVote n.head.world siming)).totalBlockSize =
      packHeader Op Sig siming (adjustHardforkVersionVote n.head.world siming) + 1 + 4 := rfl
  rw [hopened] at hsize
  rcases hlt with hempty | hlt
  · rw [hempty]
    change _ + 1 + 0 ≤ _
    unfold taiyiMinBlockSizeLimit at hmin
    omega
  · have := packLength_le
      (n.applyPendingTransactions timestamp siming skip.toSkipFlags).included.length
    omega

end Size

section Start

omit [DecidableEq TrxId] [TransactionId Op TrxId] in
/-- A block in the slot of its siming that has its Merkle root and a size that is allowed. -/
theorem openBlock_eq {b : SignedBlock Op Sig (Header Key Digest)} {head : Head}
    {c : Content World Global Plugin} {k : Key} {skip : SkipFlags}
    (hm : b.header.transactionMerkleRoot = Engine.merkleRoot b.transactions)
    (hk : Engine.signingKey Op Sig c.world b.header.siming = some k)
    (hslot : getSlotAtTime head b.timestamp ≠ 0)
    (hturn : Engine.getScheduledSiming Op Sig head c.global (getSlotAtTime head b.timestamp) =
      b.header.siming)
    (hsize : packBlock b ≤ Engine.maximumBlockSize Op Sig c.global) :
    openBlock skip head b c =
      if skip.simingSignature = false ∧ b.header.signee ≠ some k then .error "validate_signee"
      else
        let c' := Content.processHeaderExtensions { c with currentSiming := b.header.siming }
          b.header.siming b.header.extensions
        if (c'.report b.header.siming).runningVersion < c'.hardfork.currentHardforkVersion then
          .error "Block produced by siming that is not running current hardfork"
        else .ok c' := by
  unfold openBlock
  rw [if_neg (by simp [hm])]
  simp only [hk, hslot, hturn, Nat.not_lt.mpr hsize, if_false, decide_false, ne_eq,
    not_true_eq_false, Bool.or_self, Bool.and_false, Bool.false_eq_true]
  congr 1
  simp

omit [DecidableEq TrxId] [TransactionId Op TrxId] [DecidableEq Key] [DecidableEq Digest] in
/-- The siming reports the version of its binary before its block needs it. -/
theorem runningVersion_started (h : n.AtRest) :
    ¬ ((n.started siming).world.report siming).runningVersion <
      (n.started siming).world.hardfork.currentHardforkVersion := by
  have hv : (n.started siming).world.hardfork = n.head.world.hardfork := rfl
  have hr : ((n.started siming).world.report siming).runningVersion = taiyiBlockchainVersion := by
    unfold started Content.processHeaderExtensions adjustHardforkVersionVote
    by_cases hrun : (n.head.world.report siming).runningVersion = taiyiBlockchainVersion
    · simp only [hrun, ne_eq, not_true_eq_false, if_false, if_true]
      split
      · rfl
      · exact hrun
    · simp only [hrun, ne_eq, not_false_eq_true, if_true]
      split <;> rfl
  rw [hv, hr]
  exact Nat.not_lt.mpr h.version

/-- The header passes on the head state exactly when the signature is that of the key there. -/
theorem startBlock_pendingBlock (h : n.AtRest) (hs : n.Scheduled timestamp siming key) :
    startBlock skip.toSkipFlags (n.pendingBlock skip timestamp siming key) n.head =
      if skip.simingSignature = true ∨
          Engine.signingKey Op Sig n.head.world.world siming = some key then
        .ok (n.started siming)
      else .error (.block "validate_signee") := by
  obtain ⟨k, hk⟩ := hs.known
  have hnum : (n.pendingBlock skip timestamp siming key).blockNum = n.head.head.blockNumber + 1 :=
    congrArg (·.blockNumber + 1) (current_eq h).1
  have hext : (n.pendingBlock skip timestamp siming key).header.extensions =
      adjustHardforkVersionVote n.head.world siming := adjust_current h
  have hopen : Protocol.openBlock skip.toSkipFlags n.head.head
      (n.pendingBlock skip timestamp siming key) n.head.world =
        if skip.simingSignature = false ∧ (if skip.simingSignature then none else some key) ≠ some k
        then .error "validate_signee" else .ok (n.started siming).world := by
    refine (openBlock_eq rfl hk (Nat.pos_iff_ne_zero.mp hs.slot) hs.turn (packBlock_le h)).trans ?_
    rw [hext]
    exact ite_congr rfl (fun _ ↦ rfl) fun _ ↦ if_neg (runningVersion_started h)
  have htime : ¬ (n.pendingBlock skip timestamp siming key).timestamp ≤ n.head.head.time :=
    Nat.not_le.mpr (lt_of_slot hs.slot)
  unfold startBlock
  rw [if_neg (not_not.mpr hnum), if_neg htime, hopen, hk]
  cases hflag : skip.simingSignature with
  | true => rfl
  | false =>
    by_cases hkey : key = k
    · simp only [hkey, Bool.false_eq_true, if_false, ne_eq, not_true_eq_false, and_false, or_true,
        if_true]
      rfl
    · simp [hkey, Ne.symm hkey]

end Start

section Push

omit [DecidableEq TrxId] [TransactionId Op TrxId] in
theorem finishBlock_isOk {b : SignedBlock Op Sig (Header Key Digest)} {skip : SkipFlags}
    {s : State Op Sig TrxId Result (Content World Global Plugin)} :
    (∃ s', finishBlock skip b s = .ok s') ↔
      ∃ c, Engine.closeBlock skip ⟨b.blockNum, b.timestamp⟩ b s.world = .ok c := by
  have hclose : Protocol.closeBlock skip ⟨b.blockNum, b.timestamp⟩ b s.world =
      Engine.closeBlock skip ⟨b.blockNum, b.timestamp⟩ b s.world := rfl
  unfold finishBlock
  rw [hclose]
  cases Engine.closeBlock skip ⟨b.blockNum, b.timestamp⟩ b s.world with
  | error e => simp
  | ok c => simp

theorem pushBlock_follows (m : Node Op Sig TrxId Result World Global Plugin) (skip : SkipFlags)
    (b : SignedBlock Op Sig (Header Key Digest)) :
    m.process.Follows (m.pushBlock skip b).2.process := by
  have h : m.process.Follows (applyBlock m.producing skip b m.head m.process).2 :=
    applyBlock_follows m.process
  unfold pushBlock
  dsimp only
  revert h
  generalize applyBlock m.producing skip b m.head m.process = x
  obtain ⟨_ | s, p⟩ := x <;> exact id

theorem generateBlock_eq (h : n.AtRest) (hs : n.Scheduled timestamp siming key) :
    n.generateBlock skip timestamp siming key =
      if !skip.blockSizeCheck &&
          taiyiMaxBlockSize < packBlock (n.pendingBlock skip timestamp siming key) then
        (.error (.block "pack_size(pending_block) <= TAIYI_MAX_BLOCK_SIZE"),
          n.assembled skip timestamp siming)
      else
        match (n.assembled skip timestamp siming).pushBlock skip.toSkipFlags
          (n.pendingBlock skip timestamp siming key) with
        | (.error e, n) => (.error e, n)
        | (.ok _, m) => (.ok (n.pendingBlock skip timestamp siming key), m) := by
  obtain ⟨hhead, hglobal, -, -⟩ := current_eq h
  unfold generateBlock
  simp only [hhead, hglobal, hs.turn, hs.signs, Nat.pos_iff_ne_zero.mp hs.slot, if_false, ne_eq,
    not_true_eq_false, decide_false, Bool.and_false, Bool.false_eq_true] <;> rfl

theorem producing_assembled (h : n.AtRest) :
    (n.assembled skip timestamp siming).producing = false := by
  change (n.applyPendingTransactions timestamp siming skip.toSkipFlags).producing = false
  rw [applyPendingTransactions_eq h]
  exact Assembly.producing_applyPending h.producing n.pendingTx

theorem replays (h : n.AtRest)
    (hsound : Assembly.Sound skip.toSkipFlags (Engine.maximumBlockSize Op Sig n.head.world.global)
      timestamp n.pendingTx (n.opened siming (adjustHardforkVersionVote n.head.world siming))) :
    Assembly.Replays skip.toSkipFlags (n.started siming)
      (n.applyPendingTransactions timestamp siming skip.toSkipFlags) := by
  rw [applyPendingTransactions_eq h]
  exact Assembly.replays_applyPending rfl h.path h.overrun ⟨rfl, rfl, rfl, rfl, rfl, rfl⟩ hsound

/-- With the header passed and no overrun, the block is pushed exactly when the rest of block
application does not throw. -/
theorem pushBlock_eq (h : n.AtRest)
    (hstart : startBlock skip.toSkipFlags (n.pendingBlock skip timestamp siming key) n.head =
      .ok (n.started siming))
    (hsound : Assembly.Sound skip.toSkipFlags (Engine.maximumBlockSize Op Sig n.head.world.global)
      timestamp n.pendingTx (n.opened siming (adjustHardforkVersionVote n.head.world siming))) :
    ∃ s p, p.overrun = false ∧ s.world = n.closing skip timestamp siming ∧
      (n.assembled skip timestamp siming).pushBlock skip.toSkipFlags
          (n.pendingBlock skip timestamp siming key) =
        match finishBlock skip.toSkipFlags (n.pendingBlock skip timestamp siming key) s with
        | .error e => (.error e, { n.assembled skip timestamp siming with
            pendingTx := [], process := p })
        | .ok s => (.ok (), { n.assembled skip timestamp siming with
            head := s, pendingTx := [], process := p }) := by
  have hr := replays h hsound
  obtain ⟨s, p, hs, halike, -, hw⟩ := hr.replay _ hr.idle hr.sound
  refine ⟨s, p, halike.overrun ▸ hr.sound, hw, ?_⟩
  have hblock : applyBlock (n.assembled skip timestamp siming).producing skip.toSkipFlags
      (n.pendingBlock skip timestamp siming key) n.head (n.assembled skip timestamp siming).process =
        (finishBlock skip.toSkipFlags (n.pendingBlock skip timestamp siming key) s, p) := by
    unfold applyBlock
    rw [producing_assembled h, hstart]
    exact andThen_ok_eq hs
  unfold pushBlock
  dsimp only
  rw [show ({ n.assembled skip timestamp siming with session := none, pendingTx := [] } :
    Node Op Sig TrxId Result World Global Plugin).head = n.head from rfl]
  rw [hblock]
  cases finishBlock skip.toSkipFlags (n.pendingBlock skip timestamp siming key) s <;> rfl

theorem effect_of_sound (h : n.AtRest)
    (hsound : Assembly.Sound skip.toSkipFlags (Engine.maximumBlockSize Op Sig n.head.world.global)
      timestamp n.pendingTx (n.opened siming (adjustHardforkVersionVote n.head.world siming)))
    {ts : List (SignedTransaction Op Sig)} (hts : ts <+: n.pendingTx) :
    let a : Assembly Op Sig TrxId Result World Global Plugin :=
      Node.applyPendingTransactions { n with pendingTx := ts } timestamp siming skip.toSkipFlags
    ∃ s p, applyTransactions false skip.toSkipFlags a.included (n.started siming)
      (n.assembled skip timestamp siming).process = (.ok s, p) ∧ Same a.session s := by
  obtain ⟨us, hus⟩ := hts
  have hn : Node.AtRest { n with pendingTx := ts } :=
    ⟨h.path, h.overrun, h.producing, h.session, h.version, h.size⟩
  have hr : Assembly.Replays skip.toSkipFlags (n.started siming)
      (Node.applyPendingTransactions { n with pendingTx := ts } timestamp siming
        skip.toSkipFlags) := by
    refine replays hn fun r hr ↦ hsound r ?_
    rw [← hus, Assembly.turns_append]
    exact List.mem_append_left _ hr
  have hend := replays h hsound
  obtain ⟨s, p, hs, -, hsame, -⟩ := hr.replay _ hend.idle hend.sound
  exact ⟨s, p, hs, hsame⟩

theorem accepted_of_producible (h : n.AtRest) (hs : n.Scheduled timestamp siming key)
    (hp : n.Producible skip timestamp siming key) : n.Accepted skip timestamp siming key := by
  have hstart : startBlock skip.toSkipFlags (n.pendingBlock skip timestamp siming key) n.head =
      .ok (n.started siming) := (startBlock_pendingBlock h hs).trans (if_pos hp.keeps)
  refine ⟨included_eq h, packBlock_le h, ⟨rfl, rfl, producing_assembled h⟩, ?_,
    n.started siming, hstart, fun ts hts ↦ effect_of_sound h hp.sound hts⟩
  obtain ⟨s, p, hover, hw, hpush⟩ := pushBlock_eq h hstart hp.sound
  have hfits : ¬ (!skip.blockSizeCheck &&
      taiyiMaxBlockSize < packBlock (n.pendingBlock skip timestamp siming key)) = true := by
    rcases hp.fits with hf | hf
    · simp [hf]
    · simp [Nat.not_lt.mpr hf]
  obtain ⟨s', hs'⟩ := finishBlock_isOk.mpr (hw.symm ▸ hp.closes)
  rw [hs'] at hpush
  refine ⟨s', p, ?_, hover⟩
  rw [generateBlock_eq h hs, if_neg hfits, hpush]

theorem producible_of_accepted (h : n.AtRest) (hs : n.Scheduled timestamp siming key)
    (ha : n.Accepted skip timestamp siming key) : n.Producible skip timestamp siming key := by
  obtain ⟨-, -, -, ⟨s', p', hgen, hover⟩, start, hstart, -⟩ := ha
  have hheader : startBlock skip.toSkipFlags (n.pendingBlock skip timestamp siming key) n.head = _ :=
    startBlock_pendingBlock h hs
  have hkeeps : skip.simingSignature = true ∨
      Engine.signingKey Op Sig n.head.world.world siming = some key := by
    by_contra hno
    rw [if_neg hno, hstart] at hheader
    cases hheader
  have hstarted := hheader.trans (if_pos hkeeps)
  rw [generateBlock_eq h hs] at hgen
  split at hgen
  · cases hgen
  next hfits =>
  have hfollows : (n.assembled skip timestamp siming).process.Follows p' := by
    have hpush := pushBlock_follows (n.assembled skip timestamp siming) skip.toSkipFlags
      (n.pendingBlock skip timestamp siming key)
    revert hpush hgen
    generalize (n.assembled skip timestamp siming).pushBlock skip.toSkipFlags
      (n.pendingBlock skip timestamp siming key) = x
    obtain ⟨_ | ⟨⟩, m⟩ := x <;> intro hgen hpush <;> cases hgen
    exact hpush
  have hsound : Assembly.Sound skip.toSkipFlags (Engine.maximumBlockSize Op Sig n.head.world.global)
      timestamp n.pendingTx (n.opened siming (adjustHardforkVersionVote n.head.world siming)) := by
    refine Assembly.sound_of_applyPending ?_
    rw [← applyPendingTransactions_eq h]
    refine Bool.eq_false_iff.mpr fun hno ↦ ?_
    rw [hfollows.overrun hno] at hover
    cases hover
  obtain ⟨s, p, -, hw, hpush⟩ := pushBlock_eq h hstarted hsound
  refine ⟨hkeeps, hsound, ?_, ?_⟩
  · simpa [or_iff_not_imp_left] using hfits
  · rw [← hw]
    refine finishBlock_isOk.mp ?_
    cases hf : finishBlock skip.toSkipFlags (n.pendingBlock skip timestamp siming key) s with
    | ok s₁ => exact ⟨s₁, rfl⟩
    | error e =>
      rw [hf] at hpush
      rw [hpush] at hgen
      cases hgen

end Push

end Node

section Simings

open Schedule (Siming SimingSchedule updateSimingSchedule checkedDivide)

/-- Updates of simings, and calls of a contract that writes to its log. -/
inductive SimingOp
  | simingUpdate (owner : ℕ) (blockSigningKey : Option ℕ)
  | callContract (fails : Bool)
  deriving DecidableEq

structure Globals where
  wso : SimingSchedule
  hardfork : Schedule.HardforkProperty
  maximumBlockSize : ℕ

instance : TransactionId SimingOp (Transaction SimingOp) where
  id t := t
  expiration_eq h := congrArg Transaction.expiration h

/-- Of the routines after the transactions, the update of the schedule. -/
instance : Engine SimingOp Unit Unit (List Siming) Globals Unit (Option ℕ)
    (List (SignedTransaction SimingOp Unit)) where
  validateOperation _ := true
  verifyAuthority _ _ := true
  evaluator op _ _ _ :=
    match op with
    | .simingUpdate owner key => .plain fun simings ↦
      if simings.any (·.owner = owner) then
        .ok ((), simings.map fun x ↦ if x.owner = owner then { x with signingKey := key } else x)
      else .error "owner account is not exist"
    | .callContract fails =>
      .contract true ⟨fun _ ↦ none, fun _ _ w ↦ (none, w)⟩ fun _ ↦
        .helper (fun _ ↦ 1) id fun _ ↦ if fails then .failed "assertion failed!" else .done 20 ()
  onApplyOperation _ _ t := .ok t
  packSize _ := 100
  packName _ := 17
  packName_le _ := le_refl _
  merkleRoot ts := ts
  idPrefix _ _ _ := 0
  maximumBlockSize := Globals.maximumBlockSize
  getScheduledSiming head g slot :=
    ((g.wso.currentShuffledSimings.toList.getD
      ((head.blockNumber + slot) % g.wso.numScheduledSimings) none)).getD 0
  signingKey simings siming := (simings.find? (·.owner = siming)).map Schedule.Siming.signingKey
  closeBlock _ head _ c :=
    match updateSimingSchedule checkedDivide head.time head.blockNumber
        ⟨c.world, c.global.wso, c.global.hardfork, c.global.maximumBlockSize⟩ with
    | none => .error "update_siming_schedule"
    | some s => .ok { c with world := s.simings, global := ⟨s.wso, s.hardfork, s.maximumBlockSize⟩ }

/-- The node of the first siming, whose key is 1, after block 1. -/
def firstNode : Node SimingOp Unit (Transaction SimingOp) Unit (List Siming) Globals Unit where
  head :=
    { head := ⟨1, 1762840803⟩
      blockSummary := fun _ ↦ 0
      transactions := []
      world :=
        { world := (Schedule.genesis 1).simings
          currentSiming := 0
          global := ⟨(Schedule.genesis 1).wso, (Schedule.genesis 1).hardfork,
            (Schedule.genesis 1).maximumBlockSize⟩
          hardfork := {}
          report := fun _ ↦ {}
          customOps := () } }
  session := none
  pendingTx := []
  producing := false
  process := {}

def simingTransaction (expiration : ℕ) (op : SimingOp) : SignedTransaction SimingOp Unit :=
  ⟨⟨0, 0, expiration, [op]⟩, []⟩

/-- The siming has asked for a new key, which the node has too. -/
def rotating : Node SimingOp Unit (Transaction SimingOp) Unit (List Siming) Globals Unit :=
  (firstNode.pushTransaction {} (simingTransaction 1762840863 (.simingUpdate 0 (some 2)))).2

theorem atRest_firstNode : firstNode.AtRest :=
  ⟨rfl, rfl, rfl, nofun, Nat.zero_le _, by decide⟩

/-- A contract that fails and leaves a point behind, one that returns, an expired transaction and
an update that keeps the key. -/
def busy : Node SimingOp Unit (Transaction SimingOp) Unit (List Siming) Globals Unit :=
  { firstNode with
    pendingTx := [simingTransaction 1762840863 (.callContract true),
      simingTransaction 1762840863 (.callContract false),
      simingTransaction 1762840803 (.callContract false),
      simingTransaction 1762840863 (.simingUpdate 0 (some 1))] }

end Simings

end Taiyi.Producer
