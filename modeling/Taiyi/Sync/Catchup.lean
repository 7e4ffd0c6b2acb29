import Taiyi.Sync.Exchange

set_option autoImplicit false

namespace Taiyi.Sync

open Chain Transactions Library Lineage

variable {Block Id Op Sig TrxId Result World Header : Type} [HashId Id]
  [BlockContent Block Id Op Sig Header] [DecidableEq Id] [DecidableEq TrxId]
  [TransactionId Op TrxId] [Protocol Op Sig Result World Header] [Irreversibility World]

/-- A node that gets blocks from one peer, and the messages under way between them. -/
structure Syncing (Block Op Sig TrxId Result World Id : Type) [HashId Id] where
  node : Database Block Op Sig TrxId Result World Id
  peer : PeerConnection Id
  request : Option (List Id)
  reply : Option (ItemIds Id)

/-- What can happen next: the peer answers a request, the node handles the answer, the next block
arrives and is handed to the chain, or the node asks for more ids while blocks arrive. -/
inductive Action
  | answer
  | receive
  | process
  | more
  deriving DecidableEq

namespace Syncing

/-- A request with the synopsis is sent. -/
def asking (s : Syncing Block Op Sig TrxId Result World Id) (synopsis : List Id) :
    Syncing Block Op Sig TrxId Result World Id :=
  { s with
    peer := { s.peer with itemIdsRequestedFromPeer := some synopsis }
    request := some synopsis }

def fetchNextBatchOfItemIdsFromPeer (s : Syncing Block Op Sig TrxId Result World Id) :
    Except NetException (Syncing Block Op Sig TrxId Result World Id) :=
  (s.node.createBlockchainSynopsisForPeer s.peer).map s.asking

def startSynchronizingWithPeer (node : Database Block Op Sig TrxId Result World Id) :
    Except NetException (Syncing Block Op Sig TrxId Result World Id) :=
  fetchNextBatchOfItemIdsFromPeer
    ⟨node, ⟨zero, node.getBlockTime zero, [], 0, true, none⟩, none, none⟩

def answer (t : Database Block Op Sig TrxId Result World Id)
    (s : Syncing Block Op Sig TrxId Result World Id) :
    Except NetException (Syncing Block Op Sig TrxId Result World Id) := do
  match s.request with
  | none => .ok s
  | some synopsis =>
    let message ← t.onFetchBlockchainItemIdsMessage synopsis
    .ok { s with request := none, reply := some message }

/-- The node handles an answer; it has no other peers. -/
def receive (now : ℕ) (s : Syncing Block Op Sig TrxId Result World Id) :
    Except NetException (Syncing Block Op Sig TrxId Result World Id) :=
  match s.reply with
  | none => .ok s
  | some message =>
    let (peer, reaction) := s.node.onBlockchainItemIdsInventoryMessage [] now s.peer message
    let s := { s with peer := peer, reply := none }
    match reaction with
    | .disconnect reason => .error (.other reason)
    | .fetchIds => s.fetchNextBatchOfItemIdsFromPeer
    | _ => .ok s

/-- The first of the blocks to get arrives from the peer: `send_sync_block_to_node_delegate`. -/
def process (t : Database Block Op Sig TrxId Result World Id)
    (s : Syncing Block Op Sig TrxId Result World Id) :
    Except NetException (Syncing Block Op Sig TrxId Result World Id) :=
  match s.peer.idsOfItemsToGet with
  | [] => .ok s
  | i :: rest =>
    match t.fetchBlockById i with
    | none => .error (.other "opt_block.valid()")
    | some b =>
      match (Node.pushBlock b).run s.node with
      | .error e _ => .error (.other e)
      | .ok _ node =>
        let s :=
          { s with
            node := node
            peer := { s.peer with
              lastBlockDelegateHasSeen := BlockHeader.id b
              lastBlockTimeDelegateHasSeen := BlockContent.timestamp b
              idsOfItemsToGet := rest } }
        if rest = [] ∧ s.peer.numberOfUnfetchedItemIds = 0 then s.fetchNextBatchOfItemIdsFromPeer
        else .ok s

def Ready (s : Syncing Block Op Sig TrxId Result World Id) : Action → Prop
  | .answer => s.request.isSome
  | .receive => s.reply.isSome
  | .process => s.peer.idsOfItemsToGet ≠ []
  | .more => s.peer.itemIdsRequestedFromPeer = none ∧ 0 < s.peer.numberOfUnfetchedItemIds ∧
      s.peer.idsOfItemsToGet.length < minBlockIdsToPrefetch

def act (t : Database Block Op Sig TrxId Result World Id) (now : ℕ)
    (s : Syncing Block Op Sig TrxId Result World Id) :
    Action → Except NetException (Syncing Block Op Sig TrxId Result World Id)
  | .answer => s.answer t
  | .receive => s.receive now
  | .process => s.process t
  | .more => s.fetchNextBatchOfItemIdsFromPeer

/-- Every action is ready when its turn comes. -/
def AllReady (t : Database Block Op Sig TrxId Result World Id) (now : ℕ) :
    Syncing Block Op Sig TrxId Result World Id → List Action → Prop
  | _, [] => True
  | s, a :: actions => s.Ready a ∧ ∀ s', s.act t now a = .ok s' → AllReady t now s' actions

def run (t : Database Block Op Sig TrxId Result World Id) (now : ℕ)
    (s : Syncing Block Op Sig TrxId Result World Id) (actions : List Action) :
    Except NetException (Syncing Block Op Sig TrxId Result World Id) :=
  actions.foldlM (fun s a ↦ s.act t now a) s

end Syncing

variable {g base c : ChainState Id (Content Op Sig TrxId Result World Id)}
  {pre bs theirs : List Block} {s : Database Block Op Sig TrxId Result World Id} {blk : Block}
  {m n : ℕ}

omit [DecidableEq TrxId] [TransactionId Op TrxId] [Protocol Op Sig Result World Header]
  [Irreversibility World] in
theorem intact_takes {Rest : Type} [Evaluation Block Id Rest] {base c : ChainState Id Rest}
    {s : Node Block Id Rest} {hd : ForkItem Block} (h : Intact base s hd)
    (he : previous blk = s.chain.headId) (hc : s.chain.apply blk = some c) :
    ∃ s', (Node.pushBlock blk).run s = .ok false s' ∧ s'.chain = c := by
  have hnum := num_previous blk
  rw [he] at hnum
  change num (BlockHeader.id blk) = s.chain.headNum + 1 at hnum
  have hhead := h.num_eq
  have hfetch : s.fork.fetchBlock s.chain.headId = some hd :=
    h.id_eq ▸ h.standing.tree.fetchBlock_eq h.mem
  obtain ⟨⟨newHead, fork⟩, hp⟩ : ∃ p, s.fork.pushBlock blk = .ok p := by
    have hlink : ∃ trail, s.fork.linkTo blk = .ok trail := by
      rw [ForkDatabase.linkTo, he, hfetch]
      split <;> exact ⟨_, rfl⟩
    obtain ⟨trail, htrail⟩ := hlink
    have hold : ¬ ∃ x ∈ s.fork.head, num (BlockHeader.id blk) ≤ x.num - s.fork.maxSize := by
      rw [h.head]
      rintro ⟨x, hx, hle⟩
      cases hx
      omega
    rw [ForkDatabase.pushBlock, if_neg hold, htrail]
    exact ⟨_, rfl⟩
  obtain ⟨s', hr, -, ha⟩ := h.push_next hp he hc
  exact ⟨s', hr, ha.chain⟩

/-- The next block of a longer chain is taken over. -/
theorem OnChain.next (h : OnChain base pre bs s) (hg : Fresh g) (hpre : g.replay pre = some base)
    (ht : g.replay theirs = some c) (hm : pre ++ bs = theirs.take m) (hb : theirs[m]? = some blk) :
    ∃ s', (Node.pushBlock blk).run s = .ok false s' ∧ OnChain base pre (bs ++ [blk]) s' := by
  have hrep : g.replay (theirs.take m) = some s.chain := by
    rw [← hm, ChainState.replay_append, hpre, Option.bind_some, h.replays]
  have hlt := (List.getElem?_eq_some_iff.mp hb).1
  have htake : theirs.take (m + 1) = theirs.take m ++ [blk] := by
    rw [List.take_add_one, hb]
    rfl
  obtain ⟨c', hc'⟩ : ∃ c', g.replay (theirs.take (m + 1)) = some c' := by
    rw [← List.take_append_drop (m + 1) theirs, ChainState.replay_append] at ht
    obtain ⟨c', hc', -⟩ := Option.bind_eq_some_iff.mp ht
    exact ⟨c', hc'⟩
  have happ : s.chain.apply blk = some c' := by
    rw [htake, ChainState.replay_concat, hrep, Option.bind_some] at hc'
    exact hc'
  have hprev := (ChainState.apply_eq_some happ).1
  have hok : StepOk s blk :=
    ⟨fun _ ↦ by rw [happ]; rfl, fun hl ↦ absurd hprev hl.2.1⟩
  obtain ⟨s', hr, hchain⟩ : ∃ s', (Node.pushBlock blk).run s = .ok false s' ∧ s'.chain = c' := by
    rcases h.settled.node with hs | ⟨hd, hi⟩
    · cases hs with
      | genesis hi hl =>
        obtain ⟨d, s', hd, hr, -, ha⟩ := push_first hi hl hok
        exact ⟨s', hr, ha.chain.trans (Option.some.inj (hd.symm.trans happ))⟩
      | opened hi hl hlog => exact intact_takes (Intact.opened hi hl hlog) hprev happ
    · exact intact_takes hi hprev happ
  have hpush : s.push blk = s' := by rw [Node.push, hr]; rfl
  have hrep' : base.replay (bs ++ [blk]) = some s'.chain := by
    rw [ChainState.replay_concat, h.replays, Option.bind_some, happ, hchain]
  have hfull : g.replay (pre ++ (bs ++ [blk])) = some s'.chain := by
    rw [ChainState.replay_append, hpre, Option.bind_some, hrep']
  have hlog : Logged base pre (s.push blk) :=
    h.settled.logged h.logged (show StepsOk s [blk] from ⟨hok, trivial⟩)
  exact ⟨s', hr, hpush ▸ (h.settled.step hok).1, hpush ▸ hlog, hrep', hg.tabled hfull,
    chains_of_replay hg.headId hfull⟩

/-- The messages under way when the node knows of the first `q` blocks of the peer. -/
inductive Stage (b : List Id) (q : ℕ) :
    Option (List Id) → Option (List Id) → Option (ItemIds Id) → Prop
  | quiet : Stage b q none none none
  | asked {synopsis : List Id} : Asks b q synopsis → Stage b q (some synopsis) (some synopsis) none
  | answered {synopsis : List Id} {message : ItemIds Id} : Asks b q synopsis →
      message = batch b q → Stage b q (some synopsis) none (some message)

omit [DecidableEq Id] in
theorem stage_quiet {b : List Id} {q : ℕ} {request : Option (List Id)} {reply : Option (ItemIds Id)}
    (h : Stage b q none request reply) : request = none ∧ reply = none := by
  cases h
  exact ⟨rfl, rfl⟩

omit [DecidableEq Id] in
theorem stage_asked {b synopsis : List Id} {q : ℕ} {request : Option (List Id)}
    {reply : Option (ItemIds Id)} (h : Stage b q request (some synopsis) reply) :
    request = some synopsis ∧ Asks b q synopsis := by
  cases h with
  | asked ha => exact ⟨rfl, ha⟩

omit [DecidableEq Id] in
theorem stage_answered {b : List Id} {q : ℕ} {requested request : Option (List Id)}
    {message : ItemIds Id} (h : Stage b q requested request (some message)) :
    ∃ synopsis, requested = some synopsis ∧ request = none ∧ Asks b q synopsis ∧
      message = batch b q := by
  cases h with
  | answered ha hm => exact ⟨_, rfl, rfl, ha, hm⟩

/-- What is under way, as a number of steps: a request, an answer, or a request to be made. -/
def Syncing.pending (s : Syncing Block Op Sig TrxId Result World Id) : ℕ :=
  if s.peer.weNeedSyncItemsFromPeer then
    if s.request.isSome then 2 else if s.reply.isSome then 1 else 3
  else 0

omit [DecidableEq Id] [DecidableEq TrxId] [TransactionId Op TrxId] [Irreversibility World]
  [BlockContent Block Id Op Sig Header] [Protocol Op Sig Result World Header] in
theorem Syncing.pending_le (y : Syncing Block Op Sig TrxId Result World Id) : y.pending ≤ 3 := by
  unfold Syncing.pending
  split
  · split
    · decide
    · split <;> decide
  · decide

/-- What is left to do with `m` blocks taken and `q` known, out of `len`. -/
def Syncing.work (s : Syncing Block Op Sig TrxId Result World Id) (len m q : ℕ) : ℕ :=
  (len - m) + 3 * (len - q) + s.pending

/-- The node has the first `m` blocks of the chain of its peer and knows the next `n` to get. -/
structure Catching (base : ChainState Id (Content Op Sig TrxId Result World Id))
    (pre theirs : List Block) (now m n : ℕ)
    (s : Syncing Block Op Sig TrxId Result World Id) : Prop where
  node : ∃ bs : List Block, pre ++ bs = theirs.take m ∧ OnChain base pre bs s.node
  le : m + n ≤ theirs.length
  ids : s.peer.idsOfItemsToGet = ((theirs.map BlockHeader.id).drop m).take n
  seen : s.peer.lastBlockDelegateHasSeen = idAt (theirs.map BlockHeader.id) m ∨
    s.peer.lastBlockDelegateHasSeen = zero ∧ n = 0
  clock : s.peer.lastBlockTimeDelegateHasSeen + (theirs.length - m - 1) * syncBlockInterval ≤
    now + futureSyncBlocksGracePeriodSec
  stage : Stage (theirs.map BlockHeader.id) (m + n) s.peer.itemIdsRequestedFromPeer s.request
    s.reply
  waits : s.peer.itemIdsRequestedFromPeer ≠ none → n = 0 ∨ m + n < theirs.length
  unfetched : s.peer.numberOfUnfetchedItemIds = theirs.length - (m + n) ∨
    n = 0 ∧ s.peer.numberOfUnfetchedItemIds = 0
  need : s.peer.weNeedSyncItemsFromPeer = true ∨
    s.peer.itemIdsRequestedFromPeer = none ∧ m = theirs.length

/-- No request is under way only where the node knows how many blocks are left, and it does not
rest before it has asked whether there are more. -/
structure Going (base : ChainState Id (Content Op Sig TrxId Result World Id))
    (pre theirs : List Block) (now m n : ℕ) (x : Syncing Block Op Sig TrxId Result World Id) :
    Prop where
  catching : Catching base pre theirs now m n x
  knows : x.peer.itemIdsRequestedFromPeer = none →
    x.peer.numberOfUnfetchedItemIds = theirs.length - (m + n)
  rests : x.peer.itemIdsRequestedFromPeer = none → m = theirs.length →
    x.peer.weNeedSyncItemsFromPeer = false

/-- The blocks above each block of the chain have had the time to be made. -/
def InTime (now : ℕ) (theirs : List Block) : Prop :=
  ∀ (k : ℕ) (b : Block), theirs[k]? = some b → BlockContent.timestamp b +
    (theirs.length - (k + 1)) * syncBlockInterval ≤ now + futureSyncBlocksGracePeriodSec

section Steps

variable {now : ℕ} {x : Syncing Block Op Sig TrxId Result World Id}
  {t : Database Block Op Sig TrxId Result World Id}

omit [DecidableEq Id] in
theorem take_ids {k : ℕ} (hk : k ≤ theirs.length) :
    ((theirs.map BlockHeader.id).take k).length = k := by
  rw [List.length_take_of_le]
  rwa [List.length_map]

omit [DecidableEq TrxId] [TransactionId Op TrxId] [Protocol Op Sig Result World Header]
  [Irreversibility World] in
theorem fetched_id {i : Id} {b : Block} (h : s.fetchBlockById i = some b) :
    BlockHeader.id b = i := by
  unfold Node.fetchBlockById at h
  split at h
  · next it hit =>
    cases h
    exact (Tree.mem_of_fetchBlock hit).2
  · split at h
    · cases h
    · exact of_decide_eq_true (Option.filter_eq_some_iff.mp h).2

section Merge

variable {peer : PeerConnection Id} {others ids items : List Id} {front : Id}

omit [DecidableEq TrxId] [TransactionId Op TrxId] [Protocol Op Sig Result World Header]
  [Irreversibility World]

theorem mergeItems_nil (h : peer.idsOfItemsToGet = []) (items : List Id) :
    s.mergeItems [] peer items = s.flushSeen items peer := by
  cases items with
  | nil => rfl
  | cons i items => simp [Database.mergeItems, h]

/-- Nothing is passed over where the first item is not known. -/
theorem flushSeen_of_unknown {b : List Id} (hm : m < b.length)
    (h : s.isKnownBlock (idAt b (m + 1)) = false) (p : PeerConnection Id) (k : ℕ) :
    s.flushSeen ((b.drop m).take k) p = ((b.drop m).take k, p) := by
  cases k with
  | zero => rfl
  | succ k =>
    rw [drop_eq_cons (r := zero) hm, List.take_succ_cons, Database.flushSeen]
    change (if s.isKnownBlock (idAt b (m + 1)) = true then _ else _) = _
    rw [if_neg (Bool.eq_false_iff.mp h)]

/-- The common case: the new list extends the old one. -/
theorem mergeItems_append (h : peer.idsOfItemsToGet = ids ++ [front]) :
    s.mergeItems others peer (front :: items) =
      (front :: items, { peer with idsOfItemsToGet := ids }) := by
  have hne : peer.idsOfItemsToGet ≠ [] := by simp [h]
  have hkeep : peer.idsOfItemsToGet.rdropWhile (fun i ↦ i ≠ front) = ids ++ [front] := by
    rw [h, List.rdropWhile_concat_neg _ _ _ (by simp)]
  rw [Database.mergeItems, if_neg hne, hkeep]
  cases hids : ids ++ [front] with
  | nil => simp at hids
  | cons i kept =>
    have hdrop := congrArg List.dropLast hids
    rw [List.dropLast_concat] at hdrop
    simp only [hdrop]

/-- An answer that is checked and has something new. -/
theorem inventory_eq {synopsis : List Id} {merged peer' : PeerConnection Id} {message : ItemIds Id}
    (hreq : peer.itemIdsRequestedFromPeer = some synopsis)
    (hvalid : Database.invalidResponse synopsis message.itemHashesAvailable = none)
    (hnew : s.nothingNew { peer with itemIdsRequestedFromPeer := none } message = false)
    (hmerge : s.mergeItems others { peer with itemIdsRequestedFromPeer := none }
      message.itemHashesAvailable = (items, merged))
    (hpeer : peer' = { merged with
      idsOfItemsToGet := merged.idsOfItemsToGet ++ items
      numberOfUnfetchedItemIds := message.totalRemainingItemCount })
    (htime : ¬ now + futureSyncBlocksGracePeriodSec < peer'.lastBlockTimeDelegateHasSeen +
      peer'.numberOfUnfetchedItemIds * syncBlockInterval) :
    s.onBlockchainItemIdsInventoryMessage others now peer message =
      (peer', if message.totalRemainingItemCount ≠ 0 then
        if minBlockIdsToPrefetch < peer'.idsOfItemsToGet.length then .fetchBlocks else .fetchIds
      else if peer'.idsOfItemsToGet ≠ [] then .fetchBlocks else .fetchIds) := by
  subst hpeer
  unfold Database.onBlockchainItemIdsInventoryMessage
  simp only [hreq, hvalid, hnew, hmerge, if_neg htime, Bool.false_eq_true, if_false]
  by_cases hr : message.totalRemainingItemCount ≠ 0
  · rw [if_pos hr, if_pos hr]
  · rw [if_neg hr, if_neg hr]

end Merge

namespace Catching

/-- What the node sees of the chain. -/
theorem answers (h : Catching base pre theirs now m n x) :
    Answers ((theirs.map BlockHeader.id).take m) x.node := by
  obtain ⟨bs, hbs, hon⟩ := h.node
  have := hon.answers
  rwa [hbs, List.map_take] at this

theorem sees (h : Catching base pre theirs now m n x) :
    Sees ((theirs.map BlockHeader.id).take m) x.node x.peer.lastBlockDelegateHasSeen
      ((theirs.map BlockHeader.id).take m) := by
  have hm : m ≤ theirs.length := (Nat.le_add_right m n).trans h.le
  have hlen := take_ids hm
  rcases Nat.eq_zero_or_pos m with rfl | hpos
  · have hz : x.peer.lastBlockDelegateHasSeen = zero := h.seen.elim (fun h ↦ h) fun h ↦ h.1
    rw [hz]
    exact .none rfl
  · refine .block ?_
    rcases h.seen with hs | ⟨hs, -⟩
    · have hr : Reference ((theirs.map BlockHeader.id).take m) x.node
          (idAt ((theirs.map BlockHeader.id).take m) m)
          (((theirs.map BlockHeader.id).take m).take m) := .main hpos hlen.ge
      rw [List.take_take, Nat.min_self, idAt, nodeAt_take (Nat.le_refl m)] at hr
      rwa [hs]
    · rw [hs]
      refine .whole fun he ↦ ?_
      rw [he, List.length_nil] at hlen
      omega

theorem going_of_request (h : Catching base pre theirs now m n x) (hr : x.request.isSome = true) :
    Going base pre theirs now m n x := by
  have hq : x.peer.itemIdsRequestedFromPeer ≠ none := fun hq ↦ by
    have hstage := h.stage
    rw [hq] at hstage
    rw [(stage_quiet hstage).1] at hr
    cases hr
  exact ⟨h, fun he ↦ absurd he hq, fun he ↦ absurd he hq⟩

/-- A request asks for what follows the blocks that the node knows of. -/
theorem fetch (h : Catching base pre theirs now m n x)
    (hc : Chains Block (theirs.map BlockHeader.id)) (hq : x.peer.itemIdsRequestedFromPeer = none)
    (hn : n = 0 ∨ m + n < theirs.length) (hw : x.peer.weNeedSyncItemsFromPeer = true) :
    ∃ x', x.fetchNextBatchOfItemIdsFromPeer = .ok x' ∧ Catching base pre theirs now m n x' ∧
      x'.request.isSome = true ∧ x'.peer.weNeedSyncItemsFromPeer = true := by
  have hids : (theirs.map BlockHeader.id).take m ++ x.peer.idsOfItemsToGet =
      (theirs.map BlockHeader.id).take (m + n) := by
    rw [h.ids, List.take_add]
  have hlen : ((theirs.map BlockHeader.id).take (m + n)).length = m + n := take_ids h.le
  obtain ⟨synopsis, hs, hsum⟩ := synopsis_seamless h.answers h.sees (hids ▸ hc.take (m + n))
  rw [hids] at hsum
  have hasks : Asks (theirs.map BlockHeader.id) (m + n) synopsis := by
    rcases hsum with ⟨hnil, rfl⟩ | hsum
    · rw [hnil, List.length_nil] at hlen
      exact hlen ▸ .all
    · have hlast := hsum.last
      rw [hlen, idAt, nodeAt_take (Nat.le_refl _)] at hlast
      refine .after ?_ (by rw [List.length_map]; exact h.le) hlast
      have hmem := hsum.named _ (List.mem_of_getLast? hlast)
      have hpos := List.length_pos_of_mem hmem
      omega
  have hstage := h.stage
  rw [hq] at hstage
  obtain ⟨hreq, hrep⟩ := stage_quiet hstage
  refine ⟨x.asking synopsis, by rw [Syncing.fetchNextBatchOfItemIdsFromPeer, hs]; rfl,
    ⟨h.node, h.le, h.ids, h.seen, h.clock, ?_, fun _ ↦ hn, ?_, .inl hw⟩, rfl, hw⟩
  · change Stage _ _ (some synopsis) (some synopsis) x.reply
    rw [hrep]
    exact .asked hasks
  · exact h.unfetched

/-- The node has no more blocks of the chain than the first `m`. -/
theorem isKnownBlock_iff (h : Catching base pre theirs now m n x)
    (hc : Chains Block (theirs.map BlockHeader.id)) {k : ℕ} (hpos : 0 < k)
    (hk : k ≤ theirs.length) :
    x.node.isKnownBlock (idAt (theirs.map BlockHeader.id) k) = true ↔ k ≤ m := by
  have hm : m ≤ theirs.length := (Nat.le_add_right m n).trans h.le
  have hlen := take_ids hm
  constructor
  · intro hkn
    obtain ⟨-, hle⟩ := h.answers.known _ hkn
    rwa [hc.depth_nodeAt graded BlockId.num_zero (by rwa [List.length_map]), hlen] at hle
  · intro hkm
    exact h.answers.holds _ (mem_iff_nodeAt.mpr ⟨k, hpos, by rwa [hlen],
      (nodeAt_take hkm : idAt _ k = _)⟩)

theorem getBlockTime_le (h : Catching base pre theirs now m n x)
    (hclock : InTime now theirs)
    (hpos : 0 < m) : x.node.getBlockTime (idAt (theirs.map BlockHeader.id) m) +
      (theirs.length - m) * syncBlockInterval ≤ now + futureSyncBlocksGracePeriodSec := by
  have hm : m ≤ theirs.length := (Nat.le_add_right m n).trans h.le
  have hlt : m - 1 < theirs.length := by omega
  have hid : idAt (theirs.map BlockHeader.id) m = BlockHeader.id theirs[m - 1] :=
    nodeAt_eq hpos (by rw [List.getElem?_map, List.getElem?_eq_getElem hlt, Option.map_some])
  have hle := hclock (m - 1) theirs[m - 1] (List.getElem?_eq_getElem hlt)
  rw [Nat.sub_add_cancel hpos] at hle
  unfold Database.getBlockTime
  cases hf : x.node.fetchBlockById (idAt (theirs.map BlockHeader.id) m) with
  | none => exact (Nat.add_le_add_right (Nat.zero_le _) _).trans hle
  | some b =>
    have hb : b = theirs[m - 1] := BlockHeader.id_injective ((fetched_id hf).trans hid)
    rwa [hb]

/-- What the node makes of an answer that has something new: it knows of all the blocks up to the
end of the answer, and starts above those that it has. -/
structure Merges (theirs : List Block) (now m q : ℕ) (peer : PeerConnection Id)
    (merged : List Id × PeerConnection Id) : Prop where
  ids : merged.2.idsOfItemsToGet ++ merged.1 =
    ((theirs.map BlockHeader.id).drop m).take (q - 1 + blockIdsLimit - m)
  seen : merged.2.lastBlockDelegateHasSeen = idAt (theirs.map BlockHeader.id) m
  clock : merged.2.lastBlockTimeDelegateHasSeen + (theirs.length - m - 1) * syncBlockInterval ≤
    now + futureSyncBlocksGracePeriodSec
  need : merged.2.weNeedSyncItemsFromPeer = peer.weNeedSyncItemsFromPeer
  requested : merged.2.itemIdsRequestedFromPeer = none

section Merges

variable {peer : PeerConnection Id} (hp : peer = { x.peer with itemIdsRequestedFromPeer := none })

include hp

/-- A node that waits for no blocks starts above its own. -/
theorem merges_of_nil (h : Catching base pre theirs now m 0 x)
    (hc : Chains Block (theirs.map BlockHeader.id)) (hclock : InTime now theirs)
    (hm : m < theirs.length) : Merges theirs now m m x.peer
      (x.node.mergeItems [] peer (batch (theirs.map BlockHeader.id) m).itemHashesAvailable) := by
  have hlen : m < (theirs.map BlockHeader.id).length := by rwa [List.length_map]
  have hids : peer.idsOfItemsToGet = [] := by rw [hp, h.ids, List.take_zero]
  have hnext : x.node.isKnownBlock (idAt (theirs.map BlockHeader.id) (m + 1)) = false := by
    rw [Bool.eq_false_iff, Ne, h.isKnownBlock_iff hc (Nat.succ_pos m) hm]
    omega
  have hlim : blockIdsLimit = blockIdsLimit - 1 + 1 := rfl
  rw [mergeItems_nil hids]
  rcases Nat.eq_zero_or_pos m with rfl | hpos
  · have hseen : x.peer.lastBlockDelegateHasSeen = zero := h.seen.elim (fun h ↦ h) fun h ↦ h.1
    have hstop := flushSeen_of_unknown hlen hnext peer blockIdsLimit
    rw [batch, hstop]
    refine ⟨?_, ?_, ?_, by rw [hp], by rw [hp]⟩
    · simp [hids]
    · rw [hp, hseen]
      rfl
    · rw [hp]
      exact h.clock
  · have hknown := (h.isKnownBlock_iff hc hpos hm.le).mpr (Nat.le_refl m)
    rw [batch_items hpos hlen.le, Database.flushSeen, if_pos hknown,
      flushSeen_of_unknown hlen hnext]
    refine ⟨?_, rfl, ?_, by rw [hp], by rw [hp]⟩
    · change peer.idsOfItemsToGet ++ ((theirs.map BlockHeader.id).drop m).take _ = _
      rw [hids, List.nil_append]
      congr 1
      omega
    · refine Nat.le_trans (Nat.add_le_add_left (Nat.mul_le_mul_right _ ?_) _)
        (h.getBlockTime_le hclock hpos)
      omega

/-- A node that waits for blocks goes on from the last of them. -/
theorem merges_of_cons (h : Catching base pre theirs now m (n + 1) x) :
    Merges theirs now m (m + (n + 1)) x.peer (x.node.mergeItems [] peer
      (batch (theirs.map BlockHeader.id) (m + (n + 1))).itemHashesAvailable) := by
  have hle := h.le
  have hlen : (theirs.map BlockHeader.id).length = theirs.length := List.length_map _
  have hids : peer.idsOfItemsToGet = ((theirs.map BlockHeader.id).drop m).take (n + 1) := by
    rw [hp, h.ids]
  have hlast : ((theirs.map BlockHeader.id).drop m)[n]? =
      some (idAt (theirs.map BlockHeader.id) (m + (n + 1))) := by
    rw [List.getElem?_drop, getElem?_eq_nodeAt (r := zero) (by omega)]
    rfl
  have hitems := batch_items (b := theirs.map BlockHeader.id) (Nat.succ_pos (m + n)) (by omega)
  rw [List.take_add_one, hlast] at hids
  rw [← Nat.add_assoc] at hids ⊢
  rw [hitems, mergeItems_append hids]
  refine ⟨?_, ?_, ?_, by rw [hp], by rw [hp]⟩
  · change ((theirs.map BlockHeader.id).drop m).take n ++ _ = _
    rw [← hitems]
    change _ ++ ((theirs.map BlockHeader.id).drop (m + n)).take blockIdsLimit = _
    rw [← List.drop_drop, ← List.take_add]
    congr 1
    omega
  · rw [hp]
    exact h.seen.resolve_right fun hs ↦ absurd hs.2 (Nat.succ_ne_zero n)
  · rw [hp]
    exact h.clock

/-- What an answer brings extends what the node knows. -/
theorem merges (h : Catching base pre theirs now m n x)
    (hc : Chains Block (theirs.map BlockHeader.id)) (hclock : InTime now theirs)
    (hmore : m + n < theirs.length) : Merges theirs now m (m + n) x.peer (x.node.mergeItems [] peer
      (batch (theirs.map BlockHeader.id) (m + n)).itemHashesAvailable) := by
  cases n with
  | zero => exact h.merges_of_nil hp hc hclock hmore
  | succ n => exact h.merges_of_cons hp

/-- An answer with something new does not end the exchange. -/
theorem nothingNew_eq (h : Catching base pre theirs now m n x)
    (hc : Chains Block (theirs.map BlockHeader.id)) (hmore : m + n < theirs.length) :
    x.node.nothingNew peer (batch (theirs.map BlockHeader.id) (m + n)) = false := by
  have hlen : (theirs.map BlockHeader.id).length = theirs.length := List.length_map _
  have hids : peer.idsOfItemsToGet = ((theirs.map BlockHeader.id).drop m).take n := by
    rw [hp, h.ids]
  have hlim : blockIdsLimit - 1 = blockIdsLimit - 2 + 1 := rfl
  unfold Database.nothingNew
  cases n with
  | zero =>
    have hfirst : x.node.isKnownBlock (idAt (theirs.map BlockHeader.id) (m + 1)) = false := by
      rw [Bool.eq_false_iff, Ne, h.isKnownBlock_iff hc (Nat.succ_pos m) hmore]
      omega
    have hnext : (theirs.map BlockHeader.id).drop m = idAt (theirs.map BlockHeader.id) (m + 1) ::
        (theirs.map BlockHeader.id).drop (m + 1) := drop_eq_cons (by omega)
    rcases Nat.eq_zero_or_pos m with rfl | hpos
    · have hitems : (batch (theirs.map BlockHeader.id) (0 + 0)).itemHashesAvailable =
          idAt (theirs.map BlockHeader.id) 1 ::
            ((theirs.map BlockHeader.id).drop 1).take (blockIdsLimit - 1) := by
        change ((theirs.map BlockHeader.id).drop 0).take (blockIdsLimit - 1 + 1) = _
        rw [hnext, List.take_succ_cons]
      rw [hitems]
      cases ((theirs.map BlockHeader.id).drop 1).take (blockIdsLimit - 1) with
      | nil => simp [hfirst]
      | cons i rest => simp
    · rw [Nat.add_zero, batch_items hpos (by omega), hnext, hlim, List.take_succ_cons]
      simp
  | succ n =>
    have hne : peer.idsOfItemsToGet ≠ [] := by
      rw [hids, ← List.length_pos_iff, List.length_take, List.length_drop]
      omega
    simp [hne]

end Merges

/-- What the node knows after an answer that has something new, and what it does then. -/
theorem inventory_more (h : Catching base pre theirs now m n x)
    (hc : Chains Block (theirs.map BlockHeader.id)) (hclock : InTime now theirs)
    (hmore : m + n < theirs.length) {synopsis : List Id}
    (hreq : x.peer.itemIdsRequestedFromPeer = some synopsis)
    (hasks : Asks (theirs.map BlockHeader.id) (m + n) synopsis) (hrequest : x.request = none) :
    ∃ n' peer, n < n' ∧ x.node.onBlockchainItemIdsInventoryMessage [] now x.peer
        (batch (theirs.map BlockHeader.id) (m + n)) =
          (peer, if theirs.length - (m + n') ≠ 0 then
            if minBlockIdsToPrefetch < peer.idsOfItemsToGet.length then .fetchBlocks else .fetchIds
          else .fetchBlocks) ∧
      Catching base pre theirs now m n' { x with peer := peer, reply := none } ∧
      peer.itemIdsRequestedFromPeer = none ∧
      peer.numberOfUnfetchedItemIds = theirs.length - (m + n') ∧
      peer.weNeedSyncItemsFromPeer = true := by
  have hlim : 2 ≤ blockIdsLimit := by decide
  have hw : x.peer.weNeedSyncItemsFromPeer = true := h.need.resolve_right fun hn ↦ by
    rw [hreq] at hn
    cases hn.1
  have hlen : (theirs.map BlockHeader.id).length = theirs.length := List.length_map _
  have hnew := h.nothingNew_eq rfl hc hmore
  have hmerged := h.merges rfl hc hclock hmore
  generalize hmerge : x.node.mergeItems [] _ _ = merged at hmerged
  obtain ⟨items, peer'⟩ := merged
  obtain ⟨n', hn'⟩ : ∃ n', n' = min (m + n - 1 + blockIdsLimit - m) (theirs.length - m) := ⟨_, rfl⟩
  have hrem : (batch (theirs.map BlockHeader.id) (m + n)).totalRemainingItemCount =
      theirs.length - (m + n') := by
    change (theirs.map BlockHeader.id).length - _ = _
    omega
  have hids : peer'.idsOfItemsToGet ++ items = ((theirs.map BlockHeader.id).drop m).take n' := by
    rw [hmerged.ids, hn', List.take_eq_take_iff, List.length_drop]
    omega
  have hne : peer'.idsOfItemsToGet ++ items ≠ [] := by
    rw [hids, ← List.length_pos_iff, List.length_take, List.length_drop]
    omega
  have hneed : peer'.weNeedSyncItemsFromPeer = true := hmerged.need.trans hw
  have htime : ¬ now + futureSyncBlocksGracePeriodSec < peer'.lastBlockTimeDelegateHasSeen +
      (theirs.length - (m + n')) * syncBlockInterval := by
    have hle : theirs.length - (m + n') ≤ theirs.length - m - 1 := by omega
    have := Nat.mul_le_mul_right syncBlockInterval hle
    have hck : peer'.lastBlockTimeDelegateHasSeen + _ ≤ _ := hmerged.clock
    omega
  have hhandle := inventory_eq hreq (batch_valid hc hasks) hnew hmerge rfl (hrem ▸ htime)
  rw [hrem, if_pos hne] at hhandle
  refine ⟨n', _, by omega, hhandle, ⟨h.node, by omega, hids, .inl hmerged.seen, hmerged.clock, ?_,
    fun hnot ↦ absurd hmerged.requested hnot, .inl rfl, .inl hneed⟩, hmerged.requested, rfl, hneed⟩
  change Stage _ _ peer'.itemIdsRequestedFromPeer x.request none
  rw [show peer'.itemIdsRequestedFromPeer = none from hmerged.requested, hrequest]
  exact .quiet

/-- Handling an answer that has something new. -/
theorem receive_more (h : Catching base pre theirs now m n x)
    (hc : Chains Block (theirs.map BlockHeader.id))
    (hclock : InTime now theirs)
    (hmore : m + n < theirs.length) {synopsis : List Id}
    (hreq : x.peer.itemIdsRequestedFromPeer = some synopsis)
    (hasks : Asks (theirs.map BlockHeader.id) (m + n) synopsis) (hrequest : x.request = none)
    (hreply : x.reply = some (batch (theirs.map BlockHeader.id) (m + n))) :
    ∃ n' x', x.receive now = .ok x' ∧ Going base pre theirs now m n' x' ∧ n < n' := by
  obtain ⟨n', peer, hlt, hhandle, hcatch, hnone, hun, hneed⟩ :=
    h.inventory_more hc hclock hmore hreq hasks hrequest
  have hgoing : Going base pre theirs now m n' { x with peer := peer, reply := none } :=
    ⟨hcatch, fun _ ↦ hun, fun _ he ↦ absurd he (Nat.ne_of_lt (by omega))⟩
  refine ⟨n', ?_⟩
  rw [Syncing.receive, hreply]
  simp only [hhandle]
  by_cases hr : theirs.length - (m + n') ≠ 0
  · rw [if_pos hr]
    by_cases hp : minBlockIdsToPrefetch < peer.idsOfItemsToGet.length
    · rw [if_pos hp]
      exact ⟨_, rfl, hgoing, hlt⟩
    · rw [if_neg hp]
      obtain ⟨y, hy, hcy, hry, -⟩ := hcatch.fetch hc hnone (.inr (by omega)) hneed
      exact ⟨y, hy, hcy.going_of_request hry, hlt⟩
  · rw [if_neg hr]
    exact ⟨_, rfl, hgoing, hlt⟩

/-- A node that has the chain of its peer learns nothing new. -/
theorem nothingNew_last (h : Catching base pre theirs now m 0 x)
    (hc : Chains Block (theirs.map BlockHeader.id)) (hm : m = theirs.length)
    {peer : PeerConnection Id} (hids : peer.idsOfItemsToGet = [])
    (hun : peer.numberOfUnfetchedItemIds = 0) :
    x.node.nothingNew peer (batch (theirs.map BlockHeader.id) m) = true := by
  have hlen : (theirs.map BlockHeader.id).length = theirs.length := List.length_map _
  have hlim : 0 < blockIdsLimit := by decide
  have hrem : (batch (theirs.map BlockHeader.id) m).totalRemainingItemCount = 0 := by
    change (theirs.map BlockHeader.id).length - _ = _
    omega
  unfold Database.nothingNew
  rw [hrem]
  rcases Nat.eq_zero_or_pos m with hz | hpos
  · have hitems : (batch (theirs.map BlockHeader.id) m).itemHashesAvailable = [] := by
      change ((theirs.map BlockHeader.id).drop (m - 1)).take blockIdsLimit = []
      rw [List.drop_of_length_le (by omega), List.take_nil]
    rw [hitems]
    simp [hids, hun]
  · have hknown := (h.isKnownBlock_iff hc hpos hm.le).mpr (Nat.le_refl m)
    rw [batch_items hpos (by omega), List.drop_of_length_le (by omega), List.take_nil]
    simp [hknown, hids, hun]

/-- Handling an answer with nothing new: the node has the chain of its peer. -/
theorem receive_last (h : Catching base pre theirs now m n x)
    (hmore : ¬ m + n < theirs.length) {synopsis : List Id}
    (hc : Chains Block (theirs.map BlockHeader.id))
    (hreq : x.peer.itemIdsRequestedFromPeer = some synopsis)
    (hasks : Asks (theirs.map BlockHeader.id) (m + n) synopsis) (hrequest : x.request = none)
    (hreply : x.reply = some (batch (theirs.map BlockHeader.id) (m + n))) :
    ∃ x', x.receive now = .ok x' ∧ n = 0 ∧ Going base pre theirs now m 0 x' ∧
      x'.peer.weNeedSyncItemsFromPeer = false := by
  have hn : n = 0 := (h.waits (by simp [hreq])).resolve_right hmore
  subst hn
  have hle := h.le
  have hm : m = theirs.length := by omega
  have hids : x.peer.idsOfItemsToGet = [] := by rw [h.ids, List.take_zero]
  have hun : x.peer.numberOfUnfetchedItemIds = 0 := by
    rcases h.unfetched with hu | hu
    · rw [hu]
      omega
    · exact hu.2
  have hvalid := batch_valid hc hasks
  have hnew : x.node.nothingNew { x.peer with itemIdsRequestedFromPeer := none }
      (batch (theirs.map BlockHeader.id) (m + 0)) = true := h.nothingNew_last hc hm hids hun
  have hhandle : x.node.onBlockchainItemIdsInventoryMessage [] now x.peer
      (batch (theirs.map BlockHeader.id) (m + 0)) = ({ x.peer with
        itemIdsRequestedFromPeer := none
        weNeedSyncItemsFromPeer := false }, .inSync) := by
    unfold Database.onBlockchainItemIdsInventoryMessage
    simp only [hreq, hvalid, hnew, if_true]
  have hleft : x.peer.numberOfUnfetchedItemIds = theirs.length - (m + 0) := by omega
  obtain ⟨x', hx'⟩ : ∃ x' : Syncing Block Op Sig TrxId Result World Id, x' = { x with
      peer := { x.peer with
        itemIdsRequestedFromPeer := none
        weNeedSyncItemsFromPeer := false }
      reply := none } := ⟨_, rfl⟩
  have hreceive : x.receive now = .ok x' := by
    rw [Syncing.receive, hreply]
    simp only [hhandle, hx']
  refine ⟨x', hreceive, rfl, ?_⟩
  rw [hx']
  refine ⟨⟨⟨h.node, hle, h.ids, h.seen, h.clock, ?_, fun hne ↦ absurd rfl hne, .inl hleft,
    .inr ⟨rfl, hm⟩⟩, fun _ ↦ hleft, fun _ _ ↦ rfl⟩, rfl⟩
  change Stage _ _ none x.request none
  rw [hrequest]
  exact .quiet

/-- The next block that the node is to get is one of the peer's, and the node takes it. -/
theorem takes (h : Catching base pre theirs now m (n + 1) x) (hg : Fresh g)
    (hpre : g.replay pre = some base) (ht : g.replay theirs = some c)
    (hb : Answers (theirs.map BlockHeader.id) t) (hclock : InTime now theirs) :
    ∃ y, x.process t = (if y.peer.idsOfItemsToGet = [] ∧ y.peer.numberOfUnfetchedItemIds = 0 then
        y.fetchNextBatchOfItemIdsFromPeer else .ok y) ∧
      Catching base pre theirs now (m + 1) n y ∧ y.pending = x.pending ∧
      y.peer.itemIdsRequestedFromPeer = x.peer.itemIdsRequestedFromPeer ∧
      y.peer.numberOfUnfetchedItemIds = theirs.length - (m + 1 + n) ∧
      y.peer.weNeedSyncItemsFromPeer = true := by
  have hle := h.le
  have hlen : (theirs.map BlockHeader.id).length = theirs.length := List.length_map _
  have hm : m < theirs.length := by omega
  have hids := h.ids
  rw [drop_eq_cons (r := zero) (by omega), List.take_succ_cons] at hids
  have hget : theirs[m]? = some theirs[m] := List.getElem?_eq_getElem hm
  have hid : idAt (theirs.map BlockHeader.id) (m + 1) = BlockHeader.id theirs[m] :=
    nodeAt_eq (Nat.succ_pos m) (by rw [Nat.add_sub_cancel, List.getElem?_map, hget,
      Option.map_some])
  obtain ⟨b, hfetch⟩ : ∃ b, t.fetchBlockById (idAt (theirs.map BlockHeader.id) (m + 1)) =
      some b :=
    Option.isSome_iff_exists.mp (hb.holds _ (mem_iff_nodeAt.mpr ⟨m + 1, Nat.succ_pos m,
      by omega, rfl⟩))
  have hbe : b = theirs[m] := BlockHeader.id_injective ((fetched_id hfetch).trans hid)
  obtain ⟨bs, hbs, hon⟩ := h.node
  obtain ⟨s', hpush, hon'⟩ := hon.next hg hpre ht hbs hget
  have hneed : x.peer.weNeedSyncItemsFromPeer = true := h.need.resolve_right fun hn ↦ by omega
  have hun : x.peer.numberOfUnfetchedItemIds = theirs.length - (m + (n + 1)) :=
    h.unfetched.resolve_right fun hu ↦ absurd hu.1 (Nat.succ_ne_zero n)
  have hleft : x.peer.numberOfUnfetchedItemIds = theirs.length - (m + 1 + n) := by omega
  refine ⟨{ x with
    node := s'
    peer := { x.peer with
      lastBlockDelegateHasSeen := BlockHeader.id theirs[m]
      lastBlockTimeDelegateHasSeen := BlockContent.timestamp theirs[m]
      idsOfItemsToGet := ((theirs.map BlockHeader.id).drop (m + 1)).take n } }, ?_,
    ⟨⟨bs ++ [theirs[m]], ?_, hon'⟩, by omega, rfl, .inl hid.symm, ?_, ?_, fun hne ↦ ?_,
      .inl hleft, .inl hneed⟩, rfl, rfl, hleft, hneed⟩
  · rw [Syncing.process, hids]
    simp only [hfetch, hbe, hpush]
  · rw [← List.append_assoc, hbs, List.take_add_one, hget]
    rfl
  · refine Nat.le_trans (Nat.add_le_add_left (Nat.mul_le_mul_right _ ?_) _) (hclock m _ hget)
    omega
  · rw [Nat.add_right_comm]
    exact h.stage
  · have := h.waits hne
    omega

end Catching

namespace Going

/-- The next block arrives. -/
theorem process (h : Going base pre theirs now m n x) (hg : Fresh g)
    (hpre : g.replay pre = some base) (ht : g.replay theirs = some c)
    (hb : Answers (theirs.map BlockHeader.id) t)
    (hclock : InTime now theirs)
    (hready : x.peer.idsOfItemsToGet ≠ []) :
    ∃ n' x', x.process t = .ok x' ∧ n = n' + 1 ∧ Going base pre theirs now (m + 1) n' x' ∧
      x'.pending ≤ x.pending := by
  obtain ⟨h, hknows, hrests⟩ := h
  have hle := h.le
  obtain ⟨n, rfl⟩ : ∃ n', n = n' + 1 := by
    refine Nat.exists_eq_succ_of_ne_zero fun hn ↦ hready ?_
    rw [h.ids, hn, List.take_zero]
  obtain ⟨y, hprocess, hcatch, hpend, hrequested, hun, hneed⟩ := h.takes hg hpre ht hb hclock
  refine ⟨n, ?_⟩
  rw [hprocess, hcatch.ids, hun]
  by_cases hend : ((theirs.map BlockHeader.id).drop (m + 1)).take n = [] ∧
      theirs.length - (m + 1 + n) = 0
  · have hlast : n = 0 ∧ m + 1 = theirs.length := by
      have hz := congrArg List.length hend.1
      rw [List.length_take, List.length_drop, List.length_nil, List.length_map] at hz
      omega
    obtain ⟨rfl, hm1⟩ := hlast
    have hnone : y.peer.itemIdsRequestedFromPeer = none := by
      by_contra hne
      have := h.waits (hrequested ▸ hne)
      omega
    obtain ⟨x', hx', hcx, hxr, hxn⟩ := hcatch.fetch hb.chains hnone (.inl rfl) hneed
    rw [if_pos hend]
    refine ⟨x', hx', rfl, hcx.going_of_request hxr, ?_⟩
    have hstage := hcatch.stage
    rw [hnone] at hstage
    obtain ⟨hyr, hyp⟩ := stage_quiet hstage
    have htwo : x'.pending = 2 := by simp [Syncing.pending, hxn, hxr]
    have hthree : y.pending = 3 := by simp [Syncing.pending, hneed, hyr, hyp]
    omega
  · rw [if_neg hend]
    refine ⟨y, rfl, rfl, ⟨hcatch, fun _ ↦ hun, fun _ hm1 ↦ absurd ⟨?_, ?_⟩ hend⟩, hpend.le⟩
    · rw [List.drop_of_length_le (by rw [List.length_map]; omega), List.take_nil]
    · omega

theorem answer (h : Going base pre theirs now m n x) (hb : Answers (theirs.map BlockHeader.id) t)
    (hready : x.request.isSome = true) :
    ∃ x', x.answer t = .ok x' ∧ Going base pre theirs now m n x' ∧ x'.pending < x.pending := by
  obtain ⟨synopsis, hs⟩ := Option.isSome_iff_exists.mp hready
  obtain ⟨h, hknows, hrests⟩ := h
  have hstage := h.stage
  rw [hs] at hstage
  obtain ⟨hq, hasks⟩ := stage_asked hstage
  have hneed := h.need.resolve_right fun hn ↦ by
    rw [hq] at hn
    cases hn.1
  refine ⟨{ x with request := none, reply := some (batch (theirs.map BlockHeader.id) (m + n)) }, ?_,
    ⟨⟨h.node, h.le, h.ids, h.seen, h.clock, ?_, h.waits, h.unfetched, h.need⟩, hknows, hrests⟩, ?_⟩
  · rw [Syncing.answer, hs]
    simp only [answer_eq hb hasks]
    rfl
  · change Stage _ _ x.peer.itemIdsRequestedFromPeer none (some _)
    rw [hq]
    exact .answered hasks rfl
  · simp [Syncing.pending, hneed, hs]

/-- More ids are asked for while blocks arrive. -/
theorem more (h : Going base pre theirs now m n x) (hc : Chains Block (theirs.map BlockHeader.id))
    (hready : x.Ready .more) :
    ∃ x', x.fetchNextBatchOfItemIdsFromPeer = .ok x' ∧ Going base pre theirs now m n x' ∧
      x'.pending < x.pending := by
  obtain ⟨h, hknows, hrests⟩ := h
  obtain ⟨hq, hpos, -⟩ := hready
  have hun := hknows hq
  have hneed := h.need.resolve_right fun hn ↦ by omega
  obtain ⟨x', hx', hcx, hxr, hxn⟩ := h.fetch hc hq (.inr (by omega)) hneed
  refine ⟨x', hx', hcx.going_of_request hxr, ?_⟩
  have hstage := h.stage
  rw [hq] at hstage
  obtain ⟨hr, hp⟩ := stage_quiet hstage
  simp [Syncing.pending, hxn, hxr, hneed, hr, hp]

/-- Every action brings the node closer to the chain of its peer. -/
theorem act (h : Going base pre theirs now m n x) (hg : Fresh g) (hpre : g.replay pre = some base)
    (ht : g.replay theirs = some c) (hb : Answers (theirs.map BlockHeader.id) t)
    (hclock : InTime now theirs)
    {a : Action} (hready : x.Ready a) :
    ∃ m' n' x', x.act t now a = .ok x' ∧ Going base pre theirs now m' n' x' ∧ m ≤ m' ∧
      x'.work theirs.length m' (m' + n') < x.work theirs.length m (m + n) := by
  have hle := h.catching.le
  have hpend := x.pending_le
  cases a with
  | answer =>
    obtain ⟨x', hx', hgo, hlt⟩ := answer h hb hready
    refine ⟨m, n, x', hx', hgo, Nat.le_refl m, ?_⟩
    unfold Syncing.work
    omega
  | receive =>
    have hstage := h.catching.stage
    obtain ⟨message, hmsg⟩ := Option.isSome_iff_exists.mp hready
    rw [hmsg] at hstage
    obtain ⟨synopsis, hreq, hrequest, hasks, rfl⟩ := stage_answered hstage
    have hneed : x.peer.weNeedSyncItemsFromPeer = true := h.catching.need.resolve_right fun hn ↦ by
      rw [hreq] at hn
      cases hn.1
    have hone : x.pending = 1 := by simp [Syncing.pending, hneed, hrequest, hmsg]
    by_cases hmore : m + n < theirs.length
    · obtain ⟨n', x', hx', hgo, hlt⟩ :=
        h.catching.receive_more hb.chains hclock hmore hreq hasks hrequest hmsg
      refine ⟨m, n', x', hx', hgo, Nat.le_refl m, ?_⟩
      have hle' := hgo.catching.le
      have hpend' := x'.pending_le
      unfold Syncing.work
      omega
    · obtain ⟨x', hx', hn, hgo, hdone⟩ :=
        h.catching.receive_last hmore hb.chains hreq hasks hrequest hmsg
      refine ⟨m, 0, x', hx', hgo, Nat.le_refl m, ?_⟩
      have hzero : x'.pending = 0 := by simp [Syncing.pending, hdone]
      unfold Syncing.work
      omega
  | process =>
    obtain ⟨n', x', hx', hn, hgo, hle'⟩ := process h hg hpre ht hb hclock hready
    refine ⟨m + 1, n', x', hx', hgo, Nat.le_succ m, ?_⟩
    unfold Syncing.work
    omega
  | more =>
    obtain ⟨x', hx', hgo, hlt⟩ := more h hb.chains hready
    refine ⟨m, n, x', hx', hgo, Nat.le_refl m, ?_⟩
    unfold Syncing.work
    omega

theorem run (h : Going base pre theirs now m n x) (hg : Fresh g) (hpre : g.replay pre = some base)
    (ht : g.replay theirs = some c) (hb : Answers (theirs.map BlockHeader.id) t)
    (hclock : InTime now theirs)
    {actions : List Action} (hready : x.AllReady t now actions) :
    ∃ m' n' x', x.run t now actions = .ok x' ∧ Going base pre theirs now m' n' x' ∧ m ≤ m' ∧
      actions.length + x'.work theirs.length m' (m' + n') ≤
        x.work theirs.length m (m + n) := by
  induction actions generalizing m n x with
  | nil => exact ⟨m, n, x, rfl, h, Nat.le_refl m, by simp⟩
  | cons a actions ih =>
    obtain ⟨m₁, n₁, x₁, hx₁, h₁, hm₁, hlt⟩ := act h hg hpre ht hb hclock hready.1
    obtain ⟨m', n', x', hx', h', hm', hle⟩ := ih h₁ (hready.2 x₁ hx₁)
    refine ⟨m', n', x', ?_, h', hm₁.trans hm', ?_⟩
    · rw [Syncing.run, List.foldlM_cons, hx₁]
      exact hx'
    · rw [List.length_cons]
      omega

/-- When nothing is to be done, the node has the whole chain. -/
theorem done (h : Going base pre theirs now m n x) (hnone : ∀ a, ¬ x.Ready a) :
    m = theirs.length ∧ x.peer.weNeedSyncItemsFromPeer = false := by
  obtain ⟨h, hknows, hrests⟩ := h
  have hle := h.le
  have hids : x.peer.idsOfItemsToGet = [] := by simpa [Syncing.Ready] using hnone .process
  have hrequest : x.request = none := by simpa [Syncing.Ready] using hnone .answer
  have hreply : x.reply = none := by simpa [Syncing.Ready] using hnone .receive
  have hn : n = 0 := by
    have hz := congrArg List.length (h.ids.symm.trans hids)
    rw [List.length_take, List.length_drop, List.length_map, List.length_nil] at hz
    omega
  have hq : x.peer.itemIdsRequestedFromPeer = none := by
    have hstage := h.stage
    rw [hrequest, hreply] at hstage
    generalize x.peer.itemIdsRequestedFromPeer = q at hstage ⊢
    cases hstage
    rfl
  have hun := hknows hq
  have hzero : ¬ 0 < x.peer.numberOfUnfetchedItemIds := fun hpos ↦
    hnone .more ⟨hq, hpos, hids ▸ (by decide : 0 < minBlockIdsToPrefetch)⟩
  have hm : m = theirs.length := by omega
  exact ⟨hm, hrests hq hm⟩

end Going

/-- The first request of a node whose chain the peer has. -/
theorem start_asks (h : OnChain base pre bs s) (hm : pre ++ bs = theirs.take m)
    (hle : m ≤ theirs.length) (hc : Chains Block (theirs.map BlockHeader.id))
    (hclock : InTime now theirs) :
    ∃ x, Syncing.startSynchronizingWithPeer s = .ok x ∧ Going base pre theirs now m 0 x ∧
      x.pending = 2 := by
  have hunknown : s.fetchBlockById zero = none := by
    by_contra hne
    have hk : s.isKnownBlock zero = true := Option.isSome_iff_ne_none.mpr hne
    have hpos := (h.answers.known _ hk).1
    rw [BlockId.num_zero] at hpos
    exact Nat.lt_irrefl 0 hpos
  have htime : s.getBlockTime zero = 0 := by rw [Database.getBlockTime, hunknown]
  have hcatch : Catching base pre theirs now m 0
      ⟨s, ⟨zero, s.getBlockTime zero, [], 0, true, none⟩, none, none⟩ := by
    refine ⟨⟨bs, hm, h⟩, hle, (List.take_zero).symm, .inr ⟨rfl, rfl⟩, ?_, .quiet,
      fun hne ↦ absurd rfl hne, .inr ⟨rfl, rfl⟩, .inl rfl⟩
    rw [htime, Nat.zero_add]
    by_cases hlt : m < theirs.length
    · exact (Nat.le_add_left _ _).trans (hclock m _ (List.getElem?_eq_getElem hlt))
    · rw [show theirs.length - m - 1 = 0 by omega, Nat.zero_mul]
      exact Nat.zero_le _
  obtain ⟨x, hx, hcx, hr, hn⟩ := hcatch.fetch hc rfl (.inl rfl) rfl
  exact ⟨x, hx, hcx.going_of_request hr, by simp [Syncing.pending, hn, hr]⟩

end Steps

section Spacing

variable {now : ℕ}

omit [DecidableEq Id] in
/-- Blocks come at least an interval apart and none from the future. -/
theorem inTime_of_spaced
    (hspaced : theirs.IsChain fun b b' : Block ↦
      BlockContent.timestamp b + syncBlockInterval ≤ BlockContent.timestamp b')
    (hnow : ∀ b ∈ theirs.getLast?,
      BlockContent.timestamp b ≤ now + futureSyncBlocksGracePeriodSec) :
    InTime now theirs := by
  intro k b hk
  obtain ⟨hlt, rfl⟩ := List.getElem?_eq_some_iff.mp hk
  have hstep : ∀ d (hd : k + d < theirs.length), BlockContent.timestamp theirs[k] +
      d * syncBlockInterval ≤ BlockContent.timestamp theirs[k + d] := by
    intro d
    induction d with
    | zero => simp
    | succ d ih =>
      intro hd
      have hnext := hspaced.getElem (k + d) hd
      have hd' := ih (by omega)
      rw [Nat.succ_mul]
      exact (Nat.add_assoc _ _ _).symm.le.trans ((Nat.add_le_add_right hd' _).trans hnext)
  have hlast := hstep (theirs.length - (k + 1)) (by omega)
  refine hlast.trans (hnow _ ?_)
  rw [List.getLast?_eq_getElem?, show theirs.length - 1 = k + (theirs.length - (k + 1)) by omega]
  exact List.getElem?_eq_getElem _

end Spacing

section Words

end Words

end Taiyi.Sync
