import Taiyi.Sync.Synopsis

set_option autoImplicit false

namespace Taiyi.Sync

open Chain Transactions Library Lineage

variable {Block Id Op Sig TrxId Result World Header : Type} [HashId Id]
  [BlockContent Block Id Op Sig Header] [DecidableEq Id]

/-- `TAIYI_NET_MIN_BLOCK_IDS_TO_PREFETCH`. -/
def minBlockIdsToPrefetch : ℕ := 10000

/-- `TAIYI_NET_FUTURE_SYNC_BLOCKS_GRACE_PERIOD_SEC`. -/
def futureSyncBlocksGracePeriodSec : ℕ := 60 * 60

/-- `TAIYI_BLOCK_INTERVAL`. -/
def syncBlockInterval : ℕ := 3

/-- The default of the `limit` of `get_block_ids`. -/
def blockIdsLimit : ℕ := 2000

/-- What a node keeps of a peer that it gets blocks from: the last block of the peer's chain that it
has itself, the ids that follow it, how many the peer has not told it yet, and the synopsis of a
request that was not answered yet. -/
structure PeerConnection (Id : Type) where
  lastBlockDelegateHasSeen : Id
  lastBlockTimeDelegateHasSeen : ℕ
  idsOfItemsToGet : List Id
  numberOfUnfetchedItemIds : ℕ
  weNeedSyncItemsFromPeer : Bool
  itemIdsRequestedFromPeer : Option (List Id)

/-- A `blockchain_item_ids_inventory_message`. -/
structure ItemIds (Id : Type) where
  totalRemainingItemCount : ℕ
  itemHashesAvailable : List Id

/-- What the node does after it handled a message with ids. -/
inductive Reaction
  | notAsked
  | disconnect (reason : String)
  | inSync
  | fetchBlocks
  | fetchIds
  deriving DecidableEq

namespace Database

def getBlockTime (s : Database Block Op Sig TrxId Result World Id) (i : Id) : ℕ :=
  match s.fetchBlockById i with
  | some b => BlockContent.timestamp b
  | none => 0

/-- The id with a number, from where the ids that are still to get begin. -/
def restAt (ids : List Id) (firstBlockNum blockNum : ℕ) : Except NetException (List Id) :=
  if firstBlockNum ≤ blockNum then
    match ids[blockNum - firstBlockNum]? with
    | some i => .ok [i]
    | none => .error (.other "idx < original_ids_of_items_to_get.size()")
  else .ok []

/-- The loop that continues a synopsis with the ids that are still to get. -/
def synopsisRest (ids : List Id) (firstBlockNum trueHighBlockNum : ℕ) :
    ℕ → ℕ → Except NetException (List Id)
  | 0, _ => .ok []
  | rounds + 1, lowBlockNum => do
    let here ← restAt ids firstBlockNum lowBlockNum
    let next := lowBlockNum + (trueHighBlockNum - lowBlockNum + 2) / 2
    if next ≤ trueHighBlockNum then
      let rest ← synopsisRest ids firstBlockNum trueHighBlockNum rounds next
      .ok (here ++ rest)
    else .ok here

def createBlockchainSynopsisForPeer (s : Database Block Op Sig TrxId Result World Id)
    (peer : PeerConnection Id) : Except NetException (List Id) := do
  let synopsis ← s.getBlockchainSynopsis peer.lastBlockDelegateHasSeen peer.idsOfItemsToGet.length
  match peer.idsOfItemsToGet with
  | [] => .ok synopsis
  | front :: rest =>
    let trueHighBlockNum := num front + rest.length
    let more ← synopsisRest (front :: rest) (num front) trueHighBlockNum (trueHighBlockNum + 1)
      (match synopsis with
      | [] => 1
      | i :: _ => num i)
    .ok (synopsis ++ more)

/-- The answer to a `fetch_blockchain_item_ids_message`; a peer that no blocks can be given to gets
the answer of a node without blocks. -/
def onFetchBlockchainItemIdsMessage (s : Database Block Op Sig TrxId Result World Id)
    (blockchainSynopsis : List Id) : Except NetException (ItemIds Id) :=
  match s.getBlockIds blockchainSynopsis blockIdsLimit with
  | .ok (ids, remaining) => .ok ⟨remaining, ids⟩
  | .error .peerIsOnAnUnreachableFork => .ok ⟨0, []⟩
  | .error e => .error e

/-- What is wrong with an answer to a synopsis, if anything. -/
def invalidResponse (synopsisSentInRequest : List Id) : List Id → Option String
  | [] => none
  | first :: rest =>
    if (first :: rest).map num ≠ List.range' (num first) (rest.length + 1) then
      some "The list of blocks you provided is not sequential"
    else if synopsisSentInRequest = [] then
      if num first ≠ 1 then
        some "I asked for blocks starting from the beginning of the chain"
      else none
    else if first ∉ synopsisSentInRequest then some "which wasn't one of your choices"
    else none

/-- The items that the node has are passed over, up to the first that it does not have. -/
def flushSeen (s : Database Block Op Sig TrxId Result World Id) :
    List Id → PeerConnection Id → List Id × PeerConnection Id
  | [], peer => ([], peer)
  | i :: items, peer =>
    if s.isKnownBlock i then
      s.flushSeen items
        { peer with
          lastBlockDelegateHasSeen := i
          lastBlockTimeDelegateHasSeen := s.getBlockTime i }
    else (i :: items, peer)

/-- What of the items received is new, and the peer without the ids that they replace; `others` are
the next items to get from other peers. -/
def mergeItems (s : Database Block Op Sig TrxId Result World Id) (others : List Id)
    (peer : PeerConnection Id) : List Id → List Id × PeerConnection Id
  | [] => ([], peer)
  | front :: rest =>
    if peer.idsOfItemsToGet = [] then
      if front ∈ others then (front :: rest, peer) else s.flushSeen (front :: rest) peer
    else
      match peer.idsOfItemsToGet.rdropWhile fun i ↦ i ≠ front with
      | [] => (rest,
        { peer with
          idsOfItemsToGet := []
          lastBlockDelegateHasSeen := front
          lastBlockTimeDelegateHasSeen := s.getBlockTime front })
      | i :: kept => (front :: rest, { peer with idsOfItemsToGet := (i :: kept).dropLast })

/-- The peer has no more items than one that the node has, too. -/
def nothingNew (s : Database Block Op Sig TrxId Result World Id) (peer : PeerConnection Id)
    (message : ItemIds Id) : Bool :=
  message.totalRemainingItemCount = 0 &&
    (match message.itemHashesAvailable with
    | [] => true
    | [i] => s.isKnownBlock i
    | _ => false) &&
    peer.idsOfItemsToGet = [] && peer.numberOfUnfetchedItemIds = 0

def onBlockchainItemIdsInventoryMessage (s : Database Block Op Sig TrxId Result World Id)
    (others : List Id) (now : ℕ) (peer : PeerConnection Id) (message : ItemIds Id) :
    PeerConnection Id × Reaction :=
  match peer.itemIdsRequestedFromPeer with
  | none => (peer, .notAsked)
  | some synopsis =>
    match invalidResponse synopsis message.itemHashesAvailable with
    | some reason => (peer, .disconnect reason)
    | none =>
      let peer := { peer with itemIdsRequestedFromPeer := none }
      if s.nothingNew peer message then ({ peer with weNeedSyncItemsFromPeer := false }, .inSync)
      else
        let (items, peer) := s.mergeItems others peer message.itemHashesAvailable
        let peer := { peer with
          idsOfItemsToGet := peer.idsOfItemsToGet ++ items
          numberOfUnfetchedItemIds := message.totalRemainingItemCount }
        if now + futureSyncBlocksGracePeriodSec < peer.lastBlockTimeDelegateHasSeen +
            peer.numberOfUnfetchedItemIds * syncBlockInterval then
          (peer, .disconnect "You offered me a list of more sync blocks than could possibly exist")
        else if message.totalRemainingItemCount ≠ 0 then
          (peer, if minBlockIdsToPrefetch < peer.idsOfItemsToGet.length then .fetchBlocks
            else .fetchIds)
        else (peer, if peer.idsOfItemsToGet ≠ [] then .fetchBlocks else .fetchIds)

end Database

section Seamless

variable {ids cs l : List Id} {s : Database Block Op Sig TrxId Result World Id} {r : Id}
  {low c rounds : ℕ} {peer : PeerConnection Id}

omit [DecidableEq Id] in
/-- The loop takes the steps above a block from what follows that in the chain. -/
theorem synopsisRest_eq (hpos : 0 < low) (hlow : low ≤ l.length) :
    Database.synopsisRest (l.drop c) (c + 1) l.length rounds low =
      .ok (((Halving.steps l.length l.length rounds low).filter (c < ·)).map (idAt l)) := by
  induction rounds generalizing low with
  | zero => rfl
  | succ rounds ih =>
    have hlt : low < Halving.next l.length low := Halving.lt_next
    have hhere : Database.restAt (l.drop c) (c + 1) low =
        .ok (([low].filter (c < ·)).map (idAt l)) := by
      unfold Database.restAt
      by_cases hc : c < low
      · have hget : (l.drop c)[low - (c + 1)]? = some (idAt l low) := by
          rw [List.getElem?_drop, show c + (low - (c + 1)) = low - 1 by omega,
            getElem?_eq_nodeAt (r := zero) (by omega), Nat.sub_add_cancel hpos]
        rw [if_pos (Nat.succ_le_of_lt hc), hget, List.filter_cons_of_pos (by simpa using hc)]
        rfl
      · rw [if_neg (by omega), List.filter_cons_of_neg (by simpa using hc)]
        rfl
    have hcons : ∀ r : List ℕ, (low :: r).filter (c < ·) =
        [low].filter (c < ·) ++ r.filter (c < ·) := fun r ↦ by
      rw [← List.filter_append, List.singleton_append]
    rw [Database.synopsisRest, Halving.steps,
      hcons (if Halving.next l.length low ≤ l.length then _ else []), hhere, List.map_append]
    change (if Halving.next l.length low ≤ l.length then
      (Database.synopsisRest (l.drop c) (c + 1) l.length rounds (Halving.next l.length low)).bind
        fun rest ↦ .ok ((([low].filter (c < ·)).map (idAt l)) ++ rest)
      else Except.ok (([low].filter (c < ·)).map (idAt l))) = _
    split
    · next hle =>
      rw [ih (by omega) hle]
      rfl
    · simp

/-- The node that is asked for its synopsis has the block, or no blocks at all. -/
inductive Sees (ids : List Id) (s : Database Block Op Sig TrxId Result World Id) :
    Id → List Id → Prop
  | none : ids = [] → Sees ids s zero []
  | block {r : Id} {cs : List Id} : Reference ids s r cs → Sees ids s r cs

theorem Sees.low_le (h : Sees ids s r cs) (hne : cs ++ l ≠ []) :
    lowBlockNum s cs ≤ (cs ++ l).length := by
  have hpos := List.length_pos_of_ne_nil hne
  cases h with
  | none =>
    simp only [lowBlockNum, List.length_nil, Nat.min_zero]
    exact hpos
  | block h =>
    have := h.low_le
    rw [List.length_append]
    omega

/-- The first loop makes the steps up to the reference. -/
theorem Sees.first_loop (h : Sees ids s r cs) (ha : Answers ids s) (more : List Id) :
    s.getBlockchainSynopsis r more.length = .ok (((Halving.steps (cs ++ more).length
      (cs ++ more).length ((cs ++ more).length + 1) (lowBlockNum s cs)).filter
        (· ≤ cs.length)).map (idAt (cs ++ more))) := by
  have hpos := lowBlockNum_pos s cs
  cases h with
  | none hnil =>
    have hn : s.chain.headNum = 0 := by rw [ha.headNum, hnil, List.length_nil]
    have hempty : (Halving.steps more.length more.length (more.length + 1)
        (lowBlockNum s [])).filter (· ≤ 0) = [] := by
      rw [List.filter_eq_nil_iff]
      intro n hn
      have := Halving.le_of_mem hn
      simp only [decide_eq_true_eq]
      omega
    rw [List.nil_append, List.length_nil, hempty]
    simp [Database.getBlockchainSynopsis, Database.synopsisRange, hn, bind, Except.bind]
  | block h =>
    have hle := h.low_le
    have hsame : ∀ n ∈ (Halving.steps (cs ++ more).length cs.length (cs.length + 1)
        (lowBlockNum s cs)), idAt cs n = idAt (cs ++ more) n := fun n hn ↦
      (nodeAt_append (Halving.le_high_of_mem hle hn)).symm
    rw [h.synopsis_eq ha, ← List.length_append, List.map_congr_left hsame,
      Halving.steps_rounds (by omega)
        (show cs.length < lowBlockNum s cs + ((cs ++ more).length + 1) by
          rw [List.length_append]
          omega) hle,
      Halving.steps_eq_filter hle (by simp) (by omega)]

/-- The second loop starts where the first one did. -/
theorem Sees.start (h : Sees ids s r cs) (hl : Chains Block (cs ++ l)) (n rounds : ℕ) :
    (match ((Halving.steps n n (rounds + 1) (lowBlockNum s cs)).filter
        (· ≤ cs.length)).map (idAt (cs ++ l)) with
      | [] => 1
      | i :: _ => num i) = lowBlockNum s cs := by
  have hpos := lowBlockNum_pos s cs
  cases h with
  | none =>
    have hone : lowBlockNum s [] = 1 := by simp [lowBlockNum]
    have hempty : (Halving.steps n n (rounds + 1) (lowBlockNum s [])).filter (· ≤ 0) = [] := by
      rw [List.filter_eq_nil_iff]
      intro m hm
      have := Halving.le_of_mem hm
      simp only [decide_eq_true_eq]
      omega
    rw [List.length_nil, hempty, hone]
    rfl
  | block h =>
    have hle := h.low_le
    rw [Halving.steps, List.filter_cons_of_pos (by simpa using hle)]
    refine hl.depth_nodeAt graded BlockId.num_zero ?_
    rw [List.length_append]
    omega

/-- The synopsis that a node sends to a peer is as if the node had the blocks that it is still to
get from the peer: the two loops that make it take the same steps. -/
theorem synopsis_seamless (ha : Answers ids s) (hr : Sees ids s peer.lastBlockDelegateHasSeen cs)
    (hl : Chains Block (cs ++ peer.idsOfItemsToGet)) :
    ∃ synopsis, s.createBlockchainSynopsisForPeer peer = .ok synopsis ∧
      (cs ++ peer.idsOfItemsToGet = [] ∧ synopsis = [] ∨
        Summarizes (cs ++ peer.idsOfItemsToGet) (lowBlockNum s cs) synopsis) := by
  have hpos := lowBlockNum_pos s cs
  have hlow := hr.low_le (l := peer.idsOfItemsToGet)
  have hfirst := hr.first_loop ha peer.idsOfItemsToGet
  rw [Database.createBlockchainSynopsisForPeer, hfirst]
  generalize hlb : lowBlockNum s cs = low at hpos hlow
  cases hids : peer.idsOfItemsToGet with
  | nil =>
    rw [hids, List.append_nil] at hl hlow
    rw [List.append_nil]
    refine ⟨_, rfl, ?_⟩
    rcases List.eq_nil_or_concat' cs with rfl | ⟨_, _, hcs⟩
    · refine .inl ⟨rfl, ?_⟩
      rw [List.length_nil, List.map_eq_nil_iff, List.filter_eq_nil_iff]
      intro n hn
      have := Halving.le_of_mem hn
      simp only [decide_eq_true_eq]
      omega
    · have hle := hlow (by simp [hcs])
      have hall : (Halving.steps cs.length cs.length (cs.length + 1) low).filter
          (· ≤ cs.length) = Halving.steps cs.length cs.length (cs.length + 1) low := by
        rw [List.filter_eq_self]
        intro n hn
        exact decide_eq_true (Halving.le_high_of_mem hle hn)
      rw [hall]
      exact .inr (summarizes_steps hl hpos hle (by omega))
  | cons front rest =>
    rw [hids] at hl hlow
    have hle := hlow (by simp)
    have hfront : num front = cs.length + 1 := by
      have hnum := hl.depth_nodeAt graded BlockId.num_zero
        (show cs.length + 1 ≤ (cs ++ front :: rest).length by simp)
      rwa [nodeAt_eq (a := front) (Nat.succ_pos _) (by simp)] at hnum
    have htrue : cs.length + 1 + rest.length = (cs ++ front :: rest).length := by
      rw [List.length_append, List.length_cons]
      omega
    have hstart := hr.start hl (cs ++ front :: rest).length (cs ++ front :: rest).length
    rw [hlb] at hstart
    have hdrop : (cs ++ front :: rest).drop cs.length = front :: rest := List.drop_left
    have hrest : Database.synopsisRest ((cs ++ front :: rest).drop cs.length) (cs.length + 1)
        (cs ++ front :: rest).length ((cs ++ front :: rest).length + 1) low = _ :=
      synopsisRest_eq hpos hle
    rw [hdrop] at hrest
    simp only [bind, Except.bind, hstart, hfront, htrue, hrest]
    refine ⟨_, rfl, .inr ?_⟩
    rw [← List.map_append, Halving.filter_append_filter Halving.sorted_steps]
    exact summarizes_steps hl hpos hle (by omega)

end Seamless

section Answer

variable {b synopsis : List Id} {t : Database Block Op Sig TrxId Result World Id} {q : ℕ}

/-- A synopsis asks a node with the chain `b` for what follows its first `q` blocks. -/
inductive Asks (b : List Id) : ℕ → List Id → Prop
  | all : Asks b 0 []
  | after {q : ℕ} {synopsis : List Id} : 0 < q → q ≤ b.length →
      synopsis.getLast? = some (idAt b q) → Asks b q synopsis

/-- What a node with the chain `b` tells of it from the block `q` on. -/
def batch (b : List Id) (q : ℕ) : ItemIds Id where
  totalRemainingItemCount := b.length - (q - 1 + blockIdsLimit)
  itemHashesAvailable := (b.drop (q - 1)).take blockIdsLimit

omit [DecidableEq Id] in
/-- It starts with the block `q` itself. -/
theorem batch_items (hpos : 0 < q) (hq : q ≤ b.length) :
    (batch b q).itemHashesAvailable = idAt b q :: (b.drop q).take (blockIdsLimit - 1) := by
  have hlim : blockIdsLimit = blockIdsLimit - 1 + 1 := rfl
  change (b.drop (q - 1)).take blockIdsLimit = _
  rw [drop_eq_cons (r := zero) (by omega), Nat.sub_add_cancel hpos, hlim, List.take_succ_cons]
  rfl

theorem answer_eq (ht : Answers b t) (h : Asks b q synopsis) :
    t.onFetchBlockchainItemIdsMessage synopsis = .ok (batch b q) := by
  have hz : num (zero : Id) = 0 := BlockId.num_zero
  by_cases hne : b = []
  · have hn : t.chain.headNum = 0 := by rw [ht.headNum, hne, List.length_nil]
    simp [Database.onFetchBlockchainItemIdsMessage, Database.getBlockIds, hn, batch, hne]
  obtain ⟨i, hlast, hnum⟩ : ∃ i, t.lastKnownInSynopsis synopsis = .ok i ∧ num i = q := by
    cases h with
    | all => exact ⟨zero, if_pos (.inl rfl), hz⟩
    | after hpos hq hl =>
      have hmem : idAt b q ∈ b := mem_iff_nodeAt.mpr ⟨q, hpos, hq, rfl⟩
      have hnz := ht.idAt_ne_zero hpos hq
      have hrev : synopsis.reverse.find? (fun i ↦ i = zero ∨ i ∈ b) = some (idAt b q) := by
        obtain ⟨rest, rfl⟩ : ∃ rest, synopsis = rest ++ [idAt b q] :=
          ⟨_, (List.dropLast_append_getLast? _ hl).symm⟩
        rw [List.reverse_append, List.reverse_singleton, List.singleton_append,
          List.find?_cons_of_pos (by simpa using .inr hmem)]
      refine ⟨idAt b q, ?_, ht.num_idAt hq⟩
      rw [Database.lastKnownInSynopsis, if_neg, lastKnownBlockId_eq ht, hrev]
      rintro (rfl | rfl)
      · cases hl
      · exact hnz (Option.some.inj hl).symm
  have hq : q ≤ b.length := by
    cases h with
    | all => exact Nat.zero_le _
    | after _ hq _ => exact hq
  have hids := getBlockIds_of_last ht hne (show 0 < blockIdsLimit by decide) (hnum ▸ hq) hlast
  rw [Database.onFetchBlockchainItemIdsMessage, hids, hnum]
  rfl

/-- Ids of a chain from one of the synopsis on pass all checks. -/
theorem valid_from (hb : Chains Block b) {limit : ℕ}
    (h : synopsis = [] ∧ q ≤ 1 ∨ 0 < q ∧ idAt b q ∈ synopsis) :
    Database.invalidResponse synopsis ((b.drop (q - 1)).take limit) = none := by
  have hnum : ∀ n, n ≤ b.length → num (idAt b n) = n := fun n hn ↦
    hb.depth_nodeAt graded BlockId.num_zero hn
  cases hitems : (b.drop (q - 1)).take limit with
  | nil => rfl
  | cons first rest =>
    have hlen := congrArg List.length hitems
    rw [List.length_take, List.length_drop, List.length_cons] at hlen
    have hget : ∀ k, k < rest.length + 1 → (first :: rest)[k]? = some (idAt b (q - 1 + k + 1)) :=
      fun k hk ↦ by
        rw [← hitems, List.getElem?_take, if_pos (by omega), List.getElem?_drop,
          getElem?_eq_nodeAt (r := zero) (by omega)]
    have hfirst : first = idAt b (q - 1 + 1) := Option.some.inj (hget 0 (Nat.succ_pos _))
    have hseq : (first :: rest).map num = List.range' (num first) (rest.length + 1) := by
      refine List.ext_getElem (by simp) fun k hk hk' ↦ ?_
      rw [List.length_map, List.length_cons] at hk
      have hkk := hget k hk
      rw [List.getElem?_eq_getElem (by simpa using hk)] at hkk
      rw [List.getElem_map, Option.some.inj hkk, List.getElem_range', hfirst, hnum _ (by omega),
        hnum _ (by omega)]
      omega
    rcases h with ⟨hnil, hq⟩ | ⟨hpos, hmem⟩
    · have hone : num first = 1 := by
        rw [hfirst, hnum _ (by omega)]
        omega
      simp [Database.invalidResponse, hseq, hnil, hone]
    · rw [Nat.sub_add_cancel hpos] at hfirst
      rw [← hfirst] at hmem
      have hne : synopsis ≠ [] := List.ne_nil_of_mem hmem
      simp [Database.invalidResponse, hseq, hne, hmem]

/-- An answer from the chain of a node passes all checks. -/
theorem batch_valid (hb : Chains Block b) (h : Asks b q synopsis) :
    Database.invalidResponse synopsis (batch b q).itemHashesAvailable = none := by
  refine valid_from hb ?_
  cases h with
  | all => exact .inl ⟨rfl, Nat.zero_le 1⟩
  | after hpos hq hl => exact .inr ⟨hpos, List.mem_of_getLast? hl⟩

end Answer

variable [DecidableEq TrxId] [TransactionId Op TrxId] [Protocol Op Sig Result World Header]
  [Irreversibility World] {g base c : ChainState Id (Content Op Sig TrxId Result World Id)}
  {pre bs blocks ours theirs : List Block} {s t : Database Block Op Sig TrxId Result World Id}
  {peer : PeerConnection Id} {n j limit : ℕ}

section Known

/-- The blocks of the chain are those that lead to its state. -/
theorem OnChain.eq_of_replay (h : OnChain base pre bs s) (hpre : g.replay pre = some base)
    (hours : g.replay ours = some s.chain) : pre ++ bs = ours := by
  refine ChainState.replay_unique ?_ hours rfl
  rw [ChainState.replay_append, hpre, Option.bind_some, h.replays]

/-- A block of a peer's chain that the node knows is a reference. -/
theorem OnChain.reference (h : OnChain base pre bs s) {made : List (ForkItem Block)}
    (hgrown : Grown made s.fork) (hg : g.headId = zero) (hpre : g.replay pre = some base)
    (ht : g.replay theirs = some c) (hagree : (pre ++ bs).take s.floor = theirs.take s.floor)
    (hpos : 0 < n) (hn : n ≤ theirs.length)
    (hk : s.isKnownBlock (idAt (theirs.map BlockHeader.id) n) = true) :
    Reference ((pre ++ bs).map BlockHeader.id) s (idAt (theirs.map BlockHeader.id) n)
      ((theirs.map BlockHeader.id).take n) := by
  have hz : num (zero : Id) = 0 := BlockId.num_zero
  have hn' : n ≤ (theirs.map BlockHeader.id).length := by rwa [List.length_map]
  have htheirs := (chains_of_replay hg ht).1
  have hnum : num (idAt (theirs.map BlockHeader.id) n) = n := htheirs.depth_nodeAt graded hz hn'
  rcases h.known_of_shared hgrown hg hpre ht hagree hn hk with hmem | ⟨k, hfk, hf⟩
  · obtain ⟨-, hle, he⟩ := (h.chains.1.mem_iff graded hz).mp hmem
    rw [hnum] at hle he
    rw [htheirs.take_eq graded h.chains.1 hn' hle he.symm, ← he]
    exact .main hpos hle
  · have hlen : ((theirs.map BlockHeader.id).take n).length = n := List.length_take_of_le hn'
    have href := Reference.fork hf (h.settled.lib.trans hfk)
    rwa [hlen, idAt, nodeAt_take (Nat.le_refl n)] at href

/-- In every run whose blocks on the head apply and whose switches have what they need, a node can
tell a peer, whose chain is like its own up to the irreversible floor, what it has of that chain,
also where that is on a fork: from a block of the peer that it knows and the ids that it is to get
next it makes a synopsis of the peer's chain up to the last of them. -/
theorem synopsis_of_known (hg : Fresh g) (hpre : g.replay pre = some base) (hs : Start base s)
    (hlog : s.log = pre) (hok : StepsOk s blocks)
    (hours : g.replay ours = some (s.deliver blocks).chain) (ht : g.replay theirs = some c)
    (hagree : ours.take (s.deliver blocks).floor = theirs.take (s.deliver blocks).floor)
    (hpos : 0 < n) (hn : n ≤ theirs.length)
    (hseen : peer.lastBlockDelegateHasSeen = idAt (theirs.map BlockHeader.id) n)
    (hk : Database.isKnownBlock (s.deliver blocks) peer.lastBlockDelegateHasSeen = true)
    (hids : peer.idsOfItemsToGet = ((theirs.map BlockHeader.id).drop n).take j) :
    ∃ synopsis, Database.createBlockchainSynopsisForPeer (s.deliver blocks) peer = .ok synopsis ∧
      Summarizes ((theirs.map BlockHeader.id).take (n + j))
        (lowBlockNum (s.deliver blocks) ((theirs.map BlockHeader.id).take n)) synopsis := by
  obtain ⟨bs, h⟩ := onChain_of_run hg hpre hs hlog hok
  obtain ⟨made, hgrown⟩ := grown_of_deliver hs blocks
  obtain rfl := h.eq_of_replay hpre hours
  rw [hseen] at hk
  have href := h.reference hgrown hg.headId hpre ht hagree hpos hn hk
  have hall : (theirs.map BlockHeader.id).take n ++ peer.idsOfItemsToGet =
      (theirs.map BlockHeader.id).take (n + j) := by rw [hids, List.take_add]
  have hchain := (chains_of_replay hg.headId ht).1
  obtain ⟨synopsis, hmade, hsum⟩ := synopsis_seamless h.answers (hseen ▸ .block href)
    (hall ▸ hchain.take (n + j))
  rw [hall] at hsum
  refine ⟨synopsis, hmade, hsum.resolve_left fun hnil ↦ ?_⟩
  have hlen := congrArg List.length hnil.1
  rw [List.length_take, List.length_map, List.length_nil] at hlen
  omega

end Known

section Common

variable {a b synopsis : List Id} {low k m : ℕ}

omit [DecidableEq TrxId] [TransactionId Op TrxId] [Protocol Op Sig Result World Header]
  [Irreversibility World]

omit [DecidableEq Id] in
theorem Summarizes.low_le_num {i : Id} (h : Summarizes a low synopsis)
    (hnum : num (idAt a low) = low) (hi : i ∈ synopsis) : low ≤ num i := by
  cases synopsis with
  | nil => cases hi
  | cons x rest =>
    obtain rfl : x = idAt a low := Option.some.inj h.first
    rcases List.mem_cons.mp hi with rfl | hi
    · exact hnum.ge
    · have hasc := List.pairwise_cons.mp (List.map_cons ▸ h.ascending)
      exact hnum.symm.le.trans (hasc.1 _ (List.mem_map_of_mem hi)).le

/-- The highest block of a synopsis of `a` that is on `b`: it is the highest of all that they have
in common, or it is no farther below that than the head of `a` is above. -/
theorem highest_common (ha : Chains Block a) (hb : Chains Block b) (h : Summarizes a low synopsis)
    (hpos : 0 < low) (hlow : low ≤ a.length) :
    (synopsis.reverse.find? (fun i ↦ i = zero ∨ i ∈ b) = none ∧ a.take low ≠ b.take low) ∨
    ∃ k, synopsis.reverse.find? (fun i ↦ i = zero ∨ i ∈ b) = some (idAt b k) ∧ low ≤ k ∧
      k ≤ b.length ∧ idAt b k ∈ synopsis ∧ a.take k = b.take k ∧
      ∀ m, low ≤ m → m ≤ a.length → a.take m = b.take m → m - k ≤ a.length - m := by
  have hz : num (zero : Id) = 0 := BlockId.num_zero
  -- blocks of both chains are those below which the chains are the same
  have hcommon : ∀ n, 0 < n → n ≤ a.length → a.take n = b.take n →
      idAt a n = idAt b n ∧ idAt a n ∈ b := fun n hn hle htake ↦ by
    have hlen := congrArg List.length htake
    rw [List.length_take_of_le hle, List.length_take] at hlen
    have he : idAt a n = idAt b n := by
      rw [idAt, idAt, ← nodeAt_take (l := a) (Nat.le_refl n), htake, nodeAt_take (Nat.le_refl n)]
    exact ⟨he, mem_iff_nodeAt.mpr ⟨n, hn, by omega, he.symm⟩⟩
  have hmem : ∀ i ∈ synopsis, i = zero ∨ i ∈ b → 0 < num i ∧ num i ≤ b.length ∧
      i = idAt b (num i) ∧ a.take (num i) = b.take (num i) := fun i hi hib ↦ by
    obtain ⟨hni, hla, hia⟩ := (ha.mem_iff graded hz).mp (h.named i hi)
    have hib : i ∈ b := hib.resolve_left fun hzero ↦ by
      rw [hzero, hz] at hni
      exact Nat.lt_irrefl 0 hni
    obtain ⟨-, hlb, hbi⟩ := (hb.mem_iff graded hz).mp hib
    exact ⟨hni, hlb, hbi.symm, ha.take_eq graded hb hla hlb (hia.trans hbi.symm)⟩
  cases hf : synopsis.reverse.find? (fun i ↦ i = zero ∨ i ∈ b) with
  | none =>
    refine .inl ⟨rfl, fun htake ↦ ?_⟩
    have hnone := List.find?_eq_none.mp hf (idAt a low)
      (List.mem_reverse.mpr (List.mem_of_mem_head? h.first))
    simp [(hcommon low hpos hlow htake).2] at hnone
  | some i =>
    refine .inr ⟨num i, ?_⟩
    have hi : i ∈ synopsis := List.mem_reverse.mp (List.mem_of_find?_eq_some hf)
    have hp := List.find?_some hf
    obtain ⟨hni, hlb, hib, htake⟩ := hmem i hi (by simpa using hp)
    refine ⟨hib ▸ rfl, h.low_le_num (ha.depth_nodeAt graded hz hlow) hi, hlb, hib ▸ hi, htake,
      fun m hm hle hsame ↦ ?_⟩
    obtain ⟨k, hk, hkl, hkm, hnear⟩ := h.near m hm hle
    have hkb : a.take k = b.take k := by
      have := congrArg (List.take k) hsame
      rwa [List.take_take, List.take_take, Nat.min_eq_left hkm] at this
    have hki : k ≤ num i := by
      obtain ⟨-, before, after, hrev, hbefore⟩ := List.find?_eq_some_iff_append.mp hf
      have hnk : num (idAt a k) = k := ha.depth_nodeAt graded hz (hkm.trans hle)
      rcases List.mem_append.mp (hrev ▸ List.mem_reverse.mpr hk) with hbf | haft
      · have := hbefore _ hbf
        simp [(hcommon k (by omega) (hkm.trans hle) hkb).2] at this
      · rcases List.mem_cons.mp haft with he | haft
        · rw [← he, hnk]
        · have hasc : (synopsis.reverse.map num).Pairwise (· > ·) := by
            rw [List.map_reverse]
            exact List.pairwise_reverse.mpr h.ascending
          rw [hrev, List.map_append, List.map_cons] at hasc
          have := (List.pairwise_cons.mp (List.pairwise_append.mp hasc).2.1).1 _
            (List.mem_map_of_mem haft)
          omega
    omega

/-- A node with the chain `b` answers a synopsis of `a` from the highest block of it on that it has,
too, or it refuses because even the lowest one is not on its chain. -/
theorem reply_eq (ha : Chains Block a) (ht : Answers b t) (h : Summarizes a low synopsis)
    (hpos : 0 < low) (hlow : low ≤ a.length) (hne : b ≠ []) (hlim : 0 < limit) :
    (a.take low ≠ b.take low ∧
      t.getBlockIds synopsis limit = .error .peerIsOnAnUnreachableFork) ∨
    ∃ k, low ≤ k ∧ a.take k = b.take k ∧
      (∀ m, low ≤ m → m ≤ a.length → a.take m = b.take m → m - k ≤ a.length - m) ∧
      t.getBlockIds synopsis limit =
        .ok ((b.drop (k - 1)).take limit, b.length - (k - 1 + limit)) ∧
      Database.invalidResponse synopsis ((b.drop (k - 1)).take limit) = none := by
  have hfirst : idAt a low ∈ synopsis := List.mem_of_mem_head? h.first
  have hasked : t.lastKnownInSynopsis synopsis = t.lastKnownBlockId synopsis.reverse := by
    have hnum : num (idAt a low) = low := ha.depth_nodeAt graded BlockId.num_zero hlow
    refine if_neg ?_
    rintro (rfl | rfl)
    · cases hfirst
    · rw [List.mem_singleton.mp hfirst, BlockId.num_zero] at hnum
      omega
  rcases highest_common ha ht.chains h hpos hlow with ⟨hf, hdiff⟩ |
    ⟨k, hf, hk, hkb, hmem, htake, hnear⟩
  · refine .inl ⟨hdiff, ?_⟩
    have hlast : t.lastKnownInSynopsis synopsis = .error .peerIsOnAnUnreachableFork := by
      rw [hasked, lastKnownBlockId_eq ht, hf]
    have hn : t.chain.headNum ≠ 0 := by
      rw [ht.headNum]
      exact (List.length_pos_of_ne_nil hne).ne'
    rw [Database.getBlockIds, if_neg hn, hlast]
    rfl
  · refine .inr ⟨k, hk, htake, hnear, ?_, valid_from ht.chains (.inr ⟨by omega, hmem⟩)⟩
    have hlast : t.lastKnownInSynopsis synopsis = .ok (idAt b k) := by
      rw [hasked, lastKnownBlockId_eq ht, hf]
    have hnum := ht.num_idAt hkb
    rw [getBlockIds_of_last ht hne hlim (hnum.symm ▸ hkb) hlast, hnum]

end Common

section Meeting

variable {base' : ChainState Id (Content Op Sig TrxId Result World Id)} {pre' blocks' : List Block}

/-- Two nodes from one genesis, after any runs whose blocks on the head apply and whose switches
have what they need: to the synopsis of the one's chain the other answers with its own chain from a
block on that both have, which is the highest that they have in common, or no farther below it than
that is below the head, and the answer passes all checks; only where they parted below the last
irreversible block there is no answer. -/
theorem reply_to_synopsis (hg : Fresh g) (hpre : g.replay pre = some base) (hs : Start base s)
    (hlog : s.log = pre) (hok : StepsOk s blocks) (hpre' : g.replay pre' = some base')
    (ht : Start base' t) (hlog' : t.log = pre') (hok' : StepsOk t blocks')
    (hours : g.replay ours = some (s.deliver blocks).chain)
    (htheirs : g.replay theirs = some (t.deliver blocks').chain) (hne : ours ≠ [])
    (hne' : theirs ≠ []) (hlim : 0 < limit) :
    ∃ synopsis low, low = max 1 (s.deliver blocks).chain.lib ∧
      Database.getBlockchainSynopsis (s.deliver blocks) zero 0 = .ok synopsis ∧
      ((ours.take low ≠ theirs.take low ∧ Database.getBlockIds (t.deliver blocks') synopsis limit =
          .error .peerIsOnAnUnreachableFork) ∨
        ∃ k, low ≤ k ∧ ours.take k = theirs.take k ∧
          (∀ m, low ≤ m → m ≤ ours.length → ours.take m = theirs.take m →
            m - k ≤ ours.length - m) ∧
          Database.getBlockIds (t.deliver blocks') synopsis limit =
            .ok (((theirs.map BlockHeader.id).drop (k - 1)).take limit,
              theirs.length - (k - 1 + limit)) ∧
          Database.invalidResponse synopsis
            (((theirs.map BlockHeader.id).drop (k - 1)).take limit) = none) := by
  obtain ⟨bs, h⟩ := onChain_of_run hg hpre hs hlog hok
  obtain ⟨bs', h'⟩ := onChain_of_run hg hpre' ht hlog' hok'
  obtain rfl := h.eq_of_replay hpre hours
  obtain rfl := h'.eq_of_replay hpre' htheirs
  have ha := h.answers
  have hids : (pre ++ bs).map BlockHeader.id ≠ [] := fun he ↦ hne (List.map_eq_nil_iff.mp he)
  have hids' : (pre' ++ bs').map BlockHeader.id ≠ [] := fun he ↦ hne' (List.map_eq_nil_iff.mp he)
  have href : Reference _ (s.deliver blocks) zero _ := .whole hids
  obtain ⟨synopsis, hsyn, hsum⟩ := href.summarizes ha
  have hlow : lowBlockNum (s.deliver blocks) ((pre ++ bs).map BlockHeader.id) =
      max 1 (s.deliver blocks).chain.lib := by
    rw [lowBlockNum, Nat.min_eq_left ha.lib]
  have hsame : ∀ m, ((pre ++ bs).map BlockHeader.id).take m =
      ((pre' ++ bs').map BlockHeader.id).take m ↔ (pre ++ bs).take m = (pre' ++ bs').take m :=
    fun m ↦ by
      rw [← List.map_take, ← List.map_take]
      exact (List.map_injective_iff.mpr BlockHeader.id_injective).eq_iff
  refine ⟨synopsis, _, rfl, hsyn, ?_⟩
  rw [← hlow]
  have hreply := reply_eq ha.chains h'.answers hsum (lowBlockNum_pos _ _) href.low_le hids' hlim
  simp only [ne_eq, hsame, List.length_map] at hreply
  exact hreply

end Meeting

section Words

/-- The first block of the longer chain. -/
def firstOnly : List WordBlock := [⟨6, ⟨[]⟩⟩]

theorem firstOnly_ok : StepsOk (Node.atGenesis wordGenesis) firstOnly :=
  ⟨⟨fun _ ↦ by decide +kernel, fun h ↦ absurd rfl h.2.1⟩, trivial⟩

/-- The fork that the node left is summarized for a peer that is on it. -/
theorem synopsis_of_known_left : ∃ synopsis : List WordPath,
    Database.createBlockchainSynopsisForPeer switched ⟨⟨[5]⟩, 3, [], 0, true, none⟩ =
      .ok synopsis ∧ synopsis.getLast? = some ⟨[5]⟩ := by
  have ht : wordGenesis.replay ([⟨5, ⟨[]⟩⟩] : List WordBlock) = some oneBlock.chain := rfl
  have hours : wordGenesis.replay (firstOnly ++ [⟨7, ⟨[6]⟩⟩]) = some switched.chain := rfl
  have hk : Database.isKnownBlock switched (⟨⟨[5]⟩, 3, [], 0, true, none⟩ :
      PeerConnection WordPath).lastBlockDelegateHasSeen = true := by decide +kernel
  obtain ⟨synopsis, hs, hsum⟩ := synopsis_of_known (n := 1) (j := 0)
    wordGenesis_fresh (ChainState.replay_nil _) (.genesis rfl rfl) rfl siblings_ok hours ht rfl
    Nat.one_pos (Nat.le_refl 1) rfl hk rfl
  exact ⟨synopsis, hs, hsum.last⟩

/-- The node with one block is told the blocks of the longer chain from there on. -/
theorem reply_to_synopsis_first : ∃ synopsis ids,
    Database.getBlockchainSynopsis ((Node.atGenesis wordGenesis).deliver firstOnly) zero 0 =
      .ok synopsis ∧ Database.getBlockIds switched synopsis 10 = .ok (ids, 0) ∧
      Database.invalidResponse synopsis ids = none := by
  have hours : wordGenesis.replay firstOnly =
      some ((Node.atGenesis wordGenesis).deliver firstOnly).chain := rfl
  have htheirs : wordGenesis.replay (firstOnly ++ [⟨7, ⟨[6]⟩⟩]) = some switched.chain := rfl
  obtain ⟨synopsis, low, hlow, hs, ⟨hdiff, -⟩ | ⟨k, -, -, -, hids, hvalid⟩⟩ :=
    reply_to_synopsis wordGenesis_fresh
      (ChainState.replay_nil _) (.genesis rfl rfl) rfl firstOnly_ok (ChainState.replay_nil _)
      (.genesis rfl rfl) rfl siblings_ok hours htheirs (by decide) (by decide)
      (show 0 < 10 by decide)
  · rw [hlow] at hdiff
    exact absurd rfl hdiff
  · refine ⟨synopsis, _, hs, ?_, hvalid⟩
    have hall : 2 - (k - 1 + 10) = 0 := by omega
    exact hids.trans (congrArg (fun r ↦ Except.ok (_, r)) hall)

end Words

end Taiyi.Sync
