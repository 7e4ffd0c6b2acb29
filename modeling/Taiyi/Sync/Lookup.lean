import Taiyi.Chain.BranchQueries
import Taiyi.Chain.Logged
import Taiyi.Chain.NodeGrowth
import Taiyi.Transactions.Tapos

set_option autoImplicit false

namespace Taiyi.Sync

open Chain Transactions Library Lineage

variable {Block Id Op Sig TrxId Result World Header : Type} [HashId Id]
  [BlockContent Block Id Op Sig Header]

section Chains

/-- The id of the block with a number in a chain of blocks with these ids. -/
abbrev idAt (ids : List Id) (n : ℕ) : Id := nodeAt zero ids n

/-- The ids are those of blocks that build on one another from the first one on. -/
abbrev Chains (Block : Type) {Op Sig Header : Type} [BlockContent Block Id Op Sig Header]
    (ids : List Id) : Prop := Chained (BuildsOn Block) zero ids

variable {ids cs : List Id} {c : Id} {k m n : ℕ}

/-- A chain goes on along the items of a branch that ends above its last block. -/
theorem chains_of_spine {it : ForkItem Block} {items : List (ForkItem Block)}
    {q : List (Link Block)} (hl : Linked it.path) (h : Spine items it.path q)
    (he : EndsAbove items (idAt ids ids.length))
    (hc : Chains Block ids) : Chains Block (ids ++ (items.map ForkItem.id).reverse) ∧
      idAt (ids ++ (items.map ForkItem.id).reverse) (ids.length + items.length) = it.id := by
  induction items generalizing it with
  | nil => cases he
  | cons x items ih =>
    obtain rfl := h.head_eq
    have hlast : ∀ l : List Id, l.length = ids.length + items.length →
        idAt (l ++ [x.id]) (ids.length + (items.length + 1)) = x.id := fun l hlen ↦
      nodeAt_eq (by omega) (by rw [← Nat.add_assoc, Nat.add_sub_cancel, ← hlen]; simp)
    rw [List.map_cons, List.reverse_cons, ← List.append_assoc, List.length_cons]
    cases items with
    | nil =>
      have hx : previous x.block = idAt ids ids.length := Option.some.inj he
      simp only [List.map_nil, List.reverse_nil, List.append_nil]
      exact ⟨hc.concat ⟨x.block, rfl, hx⟩, hlast ids rfl⟩
    | cons y items =>
      have htrail : x.trail = y.path := h.2.1
      rw [ForkItem.path, htrail] at hl
      obtain ⟨hprev, hly⟩ := linked_cons.mp hl
      obtain ⟨hch, hid⟩ := ih hly ⟨rfl, h.2.2⟩ (by rwa [EndsAbove, List.getLast?_cons_cons] at he)
      have hlen : (ids ++ ((y :: items).map ForkItem.id).reverse).length =
          ids.length + (y :: items).length := by simp
      refine ⟨hch.concat ⟨x.block, rfl, ?_⟩, hlast _ hlen⟩
      rw [hlen]
      exact (hprev.resolve_left (List.cons_ne_nil _ _)).trans hid.symm

/-- The branch of an item down to a height, if the index has what is above that. -/
theorem exists_above {db : ForkDatabase Block} {l : Link Block} {t : List (Link Block)}
    (hl : Linked (l :: t)) (hlo : k < num (BlockHeader.id l.block))
    (hin : ∀ m v, m :: v <:+ l :: t → k < num (BlockHeader.id m.block) →
      (⟨m, v⟩ : ForkItem Block) ∈ db.index)
    (hroot : ∀ m, [m] <:+ l :: t → num (previous m.block) ≤ k) :
    ∃ items c, Above db ⟨l, t⟩ items c ∧ num c = k := by
  have hnum := num_previous l.block
  have hself : db.Holds ⟨l, t⟩ := .inl (hin l t (List.suffix_refl _) hlo)
  induction t generalizing l with
  | nil =>
    have hle := hroot l (List.suffix_refl _)
    exact ⟨[⟨l, []⟩], previous l.block, ⟨⟨[], rfl, rfl⟩, rfl, by simpa using hself⟩, by omega⟩
  | cons m t ih =>
    obtain ⟨hprev, hlm⟩ := linked_cons.mp hl
    have hpm : previous l.block = BlockHeader.id m.block :=
      hprev.resolve_left (List.cons_ne_nil _ _)
    by_cases hlow : num (BlockHeader.id m.block) ≤ k
    · refine ⟨[⟨l, m :: t⟩], previous l.block, ⟨⟨m :: t, rfl, rfl⟩, rfl, by simpa using hself⟩, ?_⟩
      rw [hpm] at hnum ⊢
      omega
    · have hsuf := List.suffix_cons l (m :: t)
      obtain ⟨items, c, ha, hc⟩ := ih hlm (by omega) (fun m' v hs ↦ hin m' v (hs.trans hsuf))
        (fun m' hs ↦ hroot m' (hs.trans hsuf)) (num_previous m.block)
        (.inl (hin m t hsuf (by omega)))
      obtain ⟨q, hq⟩ := ha.chain
      refine ⟨⟨l, m :: t⟩ :: items, c, ⟨⟨q, rfl, hq⟩, ?_, ?_⟩, hc⟩
      · cases items with
        | nil => cases ha.ends
        | cons y items =>
          rw [EndsAbove, List.getLast?_cons_cons]
          exact ha.ends
      · intro y hy
        rcases List.mem_cons.mp hy with rfl | hy
        · exact hself
        · exact ha.held y hy

theorem Chains.eq_of_above {db : ForkDatabase Block} {it : ForkItem Block}
    {items : List (ForkItem Block)} (hc : Chains Block cs) (hid : idAt cs m = it.id)
    (hm : m ≤ cs.length) (hl : Linked it.path) (ha : Above db it items c) (hn : num c = k) :
    k ≤ m ∧ c = idAt cs k := by
  obtain ⟨y, hy, hyc, -⟩ := ha.exists_last
  have hanc : Lineage.Ancestor (BuildsOn Block) (idAt cs m) c :=
    hid ▸ (ha.ancestor hl y hy).trans (.of_parent ⟨y.block, rfl, hyc⟩)
  exact hn ▸ hc.eq_nodeAt graded BlockId.num_zero hm hanc

/-- A summary with the number asked for is that of the block of the chain. -/
theorem summary_eq {c : ChainState Id (Content Op Sig TrxId Result World Id)}
    {blocks : List Block} (h : Tabled blocks c) (hn : n ≠ 0)
    (hi : num (c.rest.blockId (n % 65536)) = n) :
    c.rest.blockId (n % 65536) = idAt (blocks.map BlockHeader.id) n := by
  rcases h.table.cell (Nat.mod_lt n (by decide)) with ⟨-, k, hk, -⟩ | ⟨-, hblank, -⟩
  · rw [List.getElem?_map] at hk
    obtain ⟨b, hb, hid⟩ := Option.map_eq_some_iff.mp hk
    obtain rfl : n = k + 1 := by rw [← hi, ← hid, h.numbers k b hb]
    refine (nodeAt_eq (Nat.succ_pos k) ?_).symm
    rw [Nat.succ_sub_one, List.getElem?_map, hb, Option.map_some, hid]
  · rw [hblank, BlockId.num_zero] at hi
    exact absurd hi.symm hn

end Chains

variable [DecidableEq Id]

/-- A node whose content has the block summaries. -/
abbrev Database (Block Op Sig TrxId Result World Id : Type) [HashId Id] :=
  Node Block Id (Content Op Sig TrxId Result World Id)

namespace Database

/-- The block summaries are asked first, then the block log, then `fork_db`. -/
def findBlockIdForNum (s : Database Block Op Sig TrxId Result World Id) (blockNum : ℕ) : Id :=
  if blockNum = 0 then zero
  else if num (s.chain.rest.blockId (blockNum % 65536)) = blockNum then
    s.chain.rest.blockId (blockNum % 65536)
  else
    match s.log[blockNum - 1]? with
    | some b => BlockHeader.id b
    | none =>
      match s.fork.fetchBlockOnMainBranchByNumber [] blockNum with
      | some it => it.id
      | none => zero

def getBlockIdForNum (s : Database Block Op Sig TrxId Result World Id) (blockNum : ℕ) :
    Except String Id :=
  if s.findBlockIdForNum blockNum = zero then .error "bid != block_id_type()"
  else .ok (s.findBlockIdForNum blockNum)

def isKnownBlock (s : Database Block Op Sig TrxId Result World Id) (i : Id) : Bool :=
  (s.fetchBlockById i).isSome

def isIncludedBlock (s : Database Block Op Sig TrxId Result World Id) (i : Id) :
    Except String Bool :=
  (s.getBlockIdForNum (num i)).map fun idInPreferredChain ↦ i = idInPreferredChain

/-- The blocks of a fork from its head down, and the last block that it has in common with the
chain. -/
def getBlockIdsOnFork (s : Database Block Op Sig TrxId Result World Id) (headOfFork : Id) :
    Except String (List Id) :=
  match s.fork.fetchBranchFrom s.chain.headId headOfFork with
  | .error e => .error e
  | .ok (first, second) =>
    match first.getLast? with
    | none => .error "empty branch"
    | some it => .ok (second.map ForkItem.id ++ [previous it.block])

end Database

/-- What a node with a chain of these ids answers. -/
structure Answers (ids : List Id) (s : Database Block Op Sig TrxId Result World Id) : Prop where
  chains : Chains Block ids
  headId : s.chain.headId = idAt ids ids.length
  lib : s.chain.lib ≤ ids.length
  found : ∀ n, s.findBlockIdForNum n = idAt ids n
  known : ∀ i, s.isKnownBlock i = true → 0 < num i ∧ num i ≤ ids.length
  holds : ∀ i ∈ ids, s.isKnownBlock i = true

namespace Answers

variable {ids : List Id} {s : Database Block Op Sig TrxId Result World Id} {n : ℕ} {i : Id}

theorem num_idAt (h : Answers ids s) (hn : n ≤ ids.length) : num (idAt ids n) = n :=
  h.chains.depth_nodeAt graded BlockId.num_zero hn

theorem headNum (h : Answers ids s) : s.chain.headNum = ids.length := by
  rw [ChainState.headNum, h.headId, h.num_idAt (Nat.le_refl _)]

theorem idAt_ne_zero (h : Answers ids s) (hpos : 0 < n) (hn : n ≤ ids.length) :
    idAt ids n ≠ zero := by
  intro he
  have hnum := h.num_idAt hn
  rw [he, BlockId.num_zero] at hnum
  omega

theorem getBlockIdForNum (h : Answers ids s) (hpos : 0 < n) (hn : n ≤ ids.length) :
    s.getBlockIdForNum n = .ok (idAt ids n) := by
  rw [Database.getBlockIdForNum, h.found, if_neg (h.idAt_ne_zero hpos hn)]

/-- A block is asked for only where the chain has one with its number. -/
theorem isIncludedBlock (h : Answers ids s) (hpos : 0 < num i) (hn : num i ≤ ids.length) :
    s.isIncludedBlock i = .ok (decide (i ∈ ids)) := by
  rw [Database.isIncludedBlock, h.getBlockIdForNum hpos hn]
  refine congrArg Except.ok (decide_eq_decide.mpr ?_)
  rw [h.chains.mem_iff graded BlockId.num_zero]
  exact ⟨fun he ↦ ⟨hpos, hn, he.symm⟩, fun hm ↦ hm.2.2.symm⟩

end Answers

variable [DecidableEq TrxId] [TransactionId Op TrxId] [Protocol Op Sig Result World Header]
  [Irreversibility World]

/-- A node with the blocks `bs` on top of those it was opened with. -/
structure OnChain (base : ChainState Id (Content Op Sig TrxId Result World Id))
    (pre bs : List Block) (s : Database Block Op Sig TrxId Result World Id) : Prop where
  settled : Settled base s
  logged : Logged base pre s
  replays : base.replay bs = some s.chain
  tabled : Tabled (pre ++ bs) s.chain
  chains : Chains Block ((pre ++ bs).map BlockHeader.id) ∧
    s.chain.headId = idAt ((pre ++ bs).map BlockHeader.id) (pre ++ bs).length

variable {g base : ChainState Id (Content Op Sig TrxId Result World Id)}
  {pre bs blocks : List Block} {s : Database Block Op Sig TrxId Result World Id}

theorem chains_of_replay {c : ChainState Id (Content Op Sig TrxId Result World Id)}
    (hg : g.headId = zero) (h : g.replay bs = some c) :
    Chains Block (bs.map BlockHeader.id) ∧ c.headId = idAt (bs.map BlockHeader.id) bs.length := by
  induction bs using List.reverseRecOn generalizing c with
  | nil =>
    cases h
    exact ⟨.nil, hg⟩
  | append_singleton bs b ih =>
    rw [ChainState.replay_concat] at h
    obtain ⟨d, hd, ha⟩ := Option.bind_eq_some_iff.mp h
    obtain ⟨hc, hi⟩ := ih hd
    obtain ⟨hp, hid⟩ := ChainState.apply_eq_some ha
    rw [List.map_append, List.map_singleton, hid]
    refine ⟨hc.concat ⟨b, rfl, ?_⟩, ?_⟩
    · rw [hp, hi, List.length_map]
    · rw [List.length_append, List.length_singleton]
      exact (nodeAt_eq (Nat.succ_pos _) (by simp)).symm

theorem onChain_of_run (hg : Fresh g) (hpre : g.replay pre = some base) (hs : Start base s)
    (hlog : s.log = pre) (hok : StepsOk s blocks) :
    ∃ bs : List Block, OnChain base pre bs (s.deliver blocks) := by
  have hlen : s.log.length = base.headNum := by
    rw [(hg.tabled hpre).headNum, hlog]
  have hrun := (hs.settled.run hok).1
  obtain ⟨bs, hbs⟩ := hrun.replays
  have hrep : g.replay (pre ++ bs) = some (s.deliver blocks).chain := by
    rw [ChainState.replay_append, hpre, Option.bind_some, hbs]
  exact ⟨bs, hrun, hlog ▸ hs.settled.logged (hs.logged hlen) hok, hbs, hg.tabled hrep,
    chains_of_replay hg.headId hrep⟩

namespace OnChain

variable {hd : ForkItem Block} {n : ℕ}

theorem headNum (h : OnChain base pre bs s) : s.chain.headNum = pre.length + bs.length := by
  rw [h.tabled.headNum, List.length_append]

theorem log_eq (h : OnChain base pre bs s) : s.log = (pre ++ bs).take s.floor :=
  h.settled.log_eq h.logged h.replays

/-- From genesis on, before the first block, there is nothing to find. -/
theorem node_cases (h : OnChain base pre bs s) :
    (pre ++ bs = [] ∧ s.fork.index = [] ∧ s.log = []) ∨ ∃ hd, Intact base s hd := by
  rcases h.settled.node with hs | hi
  · cases hs with
    | genesis hi hl =>
      have hn := h.headNum
      have hz : (Node.atGenesis base : Node Block _ _).chain.headNum = 0 := by
        rw [ChainState.headNum, Node.atGenesis, hi, BlockId.num_zero]
      rw [hz] at hn
      refine .inl ⟨List.append_eq_nil_iff.mpr ⟨?_, ?_⟩, rfl, rfl⟩
      · exact List.length_eq_zero_iff.mp (by omega)
      · exact List.length_eq_zero_iff.mp (by omega)
    | opened hi hl hlog => exact .inr ⟨_, Intact.opened hi hl hlog⟩
  · exact .inr hi

/-- `fork_db` has the blocks of the chain above the floor. -/
theorem mem_index (h : OnChain base pre bs s) (hi : Intact base s hd) (hlo : s.floor < n)
    (hn : n ≤ s.chain.headNum) : ∃ l t, l :: t <:+ hd.path ∧ num (BlockHeader.id l.block) = n ∧
      (⟨l, t⟩ : ForkItem Block) ∈ s.fork.index ∧ (pre ++ bs)[n - 1]? = some l.block := by
  obtain ⟨l, t, hs, hnum⟩ := hi.standing.backed.exists_suffix hlo hn
  obtain ⟨hlt, hk⟩ := hi.standing.backed.block_eq hi.standing.linked h.replays hs (hnum ▸ hlo)
  refine ⟨l, t, hs, hnum, hi.standing.main l t hs (by omega), ?_⟩
  have hpre := h.logged.base_length
  rw [List.getElem?_append_right (by omega), ← hk]
  congr 1
  omega

theorem fetchOnMain (h : OnChain base pre bs s) (hi : Intact base s hd) (hlo : s.floor < n)
    (hn : n ≤ s.chain.headNum) : ∃ it, s.fork.fetchBlockOnMainBranchByNumber [] n = some it ∧
      (pre ++ bs)[n - 1]? = some it.block := by
  obtain ⟨l, t, hs, hnum, hin, hk⟩ := h.mem_index hi hlo hn
  refine ⟨⟨l, t⟩, ?_, hk⟩
  rw [← hnum]
  refine fetchOnMain_eq [] hi.head hi.standing.linked hs hin fun m hm hle ↦ ?_
  obtain ⟨u, v, huv⟩ := List.append_of_mem hm
  have hs' : m :: v <:+ hd.path := ⟨hd.self :: u, by rw [ForkItem.path, huv]; rfl⟩
  have hmem : (⟨m, v⟩ : ForkItem Block) ∈ s.fork.index := hi.standing.main m v hs' (by omega)
  exact alive_of_mem hmem

theorem findBlockIdForNum_eq (h : OnChain base pre bs s) (n : ℕ) :
    s.findBlockIdForNum n = idAt ((pre ++ bs).map BlockHeader.id) n := by
  unfold Database.findBlockIdForNum
  have hlog := h.log_eq
  by_cases hn : n = 0
  · rw [if_pos hn, hn]
    rfl
  rw [if_neg hn]
  have hpos : 0 < n := Nat.pos_of_ne_zero hn
  by_cases hi : num (s.chain.rest.blockId (n % 65536)) = n
  · rw [if_pos hi, summary_eq h.tabled hn hi]
  rw [if_neg hi]
  cases hb : s.log[n - 1]? with
  | some b =>
    rw [hlog, List.getElem?_take] at hb
    split at hb
    · exact (nodeAt_eq hpos (by rw [List.getElem?_map, hb, Option.map_some])).symm
    · cases hb
  | none =>
    rcases h.node_cases with ⟨hnil, hidx, -⟩ | ⟨hd, hint⟩
    · have hf : s.fork.fetchBlockOnMainBranchByNumber [] n = none := by
        simp [ForkDatabase.fetchBlockOnMainBranchByNumber, ForkDatabase.fetchBlockByNumber, hidx]
      rw [hf, hnil]
      exact (nodeAt_eq_root (by simpa using hpos)).symm
    · by_cases hle : n ≤ s.chain.headNum
      · have hlo : s.floor < n := by
          rw [List.getElem?_eq_none_iff, hlog, List.length_take] at hb
          have := h.headNum
          rw [List.length_append] at hb
          omega
        obtain ⟨it, hit, hk⟩ := h.fetchOnMain hint hlo hle
        rw [hit]
        exact (nodeAt_eq hpos (by rw [List.getElem?_map, hk, Option.map_some]; rfl)).symm
      · have hf : s.fork.fetchBlockOnMainBranchByNumber [] n = none := by
          have hnone : s.fork.fetchBlockByNumber n = [] := by
            rw [ForkDatabase.fetchBlockByNumber, List.filter_eq_nil_iff]
            intro it hit
            have hhigh := hint.highest it hit
            have hhead := hint.num_eq
            simp only [decide_eq_true_eq]
            omega
          rw [ForkDatabase.fetchBlockOnMainBranchByNumber, hnone]
        rw [hf]
        refine (nodeAt_eq_root ?_).symm
        rw [List.length_map, List.length_append, ← h.headNum]
        omega

theorem floor_le (h : OnChain base pre bs s) : s.floor ≤ (pre ++ bs).length := by
  rw [List.length_append, ← h.headNum]
  exact Nat.sub_le _ _

theorem known_num (h : OnChain base pre bs s) {i : Id} (hi : s.isKnownBlock i = true) :
    0 < num i ∧ num i ≤ (pre ++ bs).length := by
  unfold Database.isKnownBlock Node.fetchBlockById at hi
  cases hf : s.fork.fetchBlock i with
  | some it =>
    obtain ⟨hit, rfl⟩ := Tree.mem_of_fetchBlock hf
    have hpos := num_previous it.block
    rcases h.node_cases with ⟨-, hidx, -⟩ | ⟨hd, hint⟩
    · rw [hidx] at hit
      cases hit
    · have hhigh := hint.highest it hit
      rw [hint.num_eq, h.headNum, ← List.length_append] at hhigh
      exact ⟨by rw [ForkItem.id, hpos]; exact Nat.succ_pos _, hhigh⟩
  | none =>
    rw [hf] at hi
    cases hn : num i with
    | zero => simp [hn] at hi
    | succ n =>
      have hlen : n < s.log.length := by
        by_contra hge
        simp [hn, List.getElem?_eq_none (Nat.le_of_not_lt hge)] at hi
      have hfl := h.floor_le
      rw [h.log_eq, List.length_take] at hlen
      exact ⟨Nat.succ_pos n, by omega⟩

theorem isKnownBlock_of_mem (h : OnChain base pre bs s) {b : Block} (hb : b ∈ pre ++ bs) :
    s.isKnownBlock (BlockHeader.id b) = true := by
  obtain ⟨k, hlt, rfl⟩ := List.getElem_of_mem hb
  have hk : (pre ++ bs)[k]? = some (pre ++ bs)[k] := List.getElem?_eq_getElem hlt
  have hnum := h.tabled.numbers k _ hk
  unfold Database.isKnownBlock Node.fetchBlockById
  cases hf : s.fork.fetchBlock (BlockHeader.id (pre ++ bs)[k]) with
  | some it => rfl
  | none =>
    have hlo : k < s.floor := by
      by_contra hge
      rcases h.node_cases with ⟨hnil, -⟩ | ⟨hd, hint⟩
      · simp [hnil] at hlt
      · obtain ⟨l, t, -, -, hin, hl⟩ := h.mem_index hint (n := k + 1) (by omega)
          (by rw [h.headNum, ← List.length_append]; omega)
        rw [Nat.add_sub_cancel, hk, Option.some_inj] at hl
        refine Tree.fetchBlock_eq_none hf _ hin ?_
        rw [hl]
        rfl
    have hlog : s.log[k]? = some (pre ++ bs)[k] := by
      rw [h.log_eq, List.getElem?_take, if_pos hlo, hk]
    simp [hnum, hlog]

theorem answers (h : OnChain base pre bs s) : Answers ((pre ++ bs).map BlockHeader.id) s where
  chains := h.chains.1
  headId := by rw [List.length_map, h.chains.2]
  lib := by
    rw [List.length_map, List.length_append, ← h.headNum]
    exact h.settled.lib.trans (Nat.sub_le _ _)
  found := h.findBlockIdForNum_eq
  known i hi := by
    rw [List.length_map]
    exact h.known_num hi
  holds i hi := by
    obtain ⟨b, hb, rfl⟩ := List.mem_map.mp hi
    exact h.isKnownBlock_of_mem hb

end OnChain

/-- In every run from genesis, or from a node opened with the log of its chain, whose blocks on the
head apply and whose switches have what they need, the block with a number is that of the chain and
nothing is found above it, all blocks of the chain are known, and of a known block it is told
whether it is one of them. -/
theorem blocks_by_number (hg : Fresh g) (hpre : g.replay pre = some base) (hs : Start base s)
    (hlog : s.log = pre) (hok : StepsOk s blocks) :
    ∃ bs : List Block, g.replay (pre ++ bs) = some (s.deliver blocks).chain ∧
      (∀ n, Database.findBlockIdForNum (s.deliver blocks) n =
        idAt ((pre ++ bs).map BlockHeader.id) n) ∧
      (∀ b ∈ pre ++ bs, Database.isKnownBlock (s.deliver blocks) (BlockHeader.id b) = true) ∧
      ∀ i, Database.isKnownBlock (s.deliver blocks) i = true →
        Database.isIncludedBlock (s.deliver blocks) i =
          .ok (decide (i ∈ (pre ++ bs).map BlockHeader.id)) := by
  obtain ⟨bs, h⟩ := onChain_of_run hg hpre hs hlog hok
  have ha := h.answers
  refine ⟨bs, ?_, ha.found, fun b hb ↦ h.isKnownBlock_of_mem hb, fun i hi ↦ ?_⟩
  · rw [ChainState.replay_append, hpre, Option.bind_some, h.replays]
  · obtain ⟨hpos, hn⟩ := ha.known i hi
    exact ha.isIncludedBlock hpos hn

section Forks

variable {ids cs : List Id} {k : ℕ}

/-- The chain `cs` leaves that of the node after its first `k` blocks, and the node tells the
blocks that follow. -/
structure OnFork (ids : List Id) (s : Database Block Op Sig TrxId Result World Id) (cs : List Id)
    (k : ℕ) : Prop where
  chains : Chains Block cs
  shared : cs.take k = ids.take k
  lt : k < cs.length
  le : cs.length ≤ ids.length
  differs : idAt cs cs.length ≠ idAt ids cs.length
  blockIds : s.getBlockIdsOnFork (idAt cs cs.length) = .ok ((cs.drop k).reverse ++ [idAt ids k])

namespace OnChain

variable {hd x : ForkItem Block}

/-- An item has a branch above each block from the floor on whose followers are in the index. -/
theorem branch_above (hi : Intact base s hd) (hx : x ∈ s.fork.index) (hlx : Linked x.path)
    (hk : k < x.num) (hfl : s.floor ≤ k)
    (hin : ∀ m v, m :: v <:+ x.path → k < num (BlockHeader.id m.block) →
      (⟨m, v⟩ : ForkItem Block) ∈ s.fork.index) :
    ∃ items c, Above s.fork x items c ∧ num c = k := by
  refine exists_above hlx hk hin fun m hm ↦ ?_
  have hnum := num_previous m.block
  have hbase := hi.standing.base_le_floor
  rcases hi.standing.tree.rooted x hx m hm with hp | hp
  · rw [hp, BlockId.num_zero]
    exact Nat.zero_le _
  · omega

omit [DecidableEq Id] [DecidableEq TrxId] [TransactionId Op TrxId]
  [Protocol Op Sig Result World Header] [Irreversibility World] in
/-- A chain is another one up to a block, and then what its last item has above that block. -/
theorem eq_take_append (hcs : Chains Block cs) (hids : Chains Block ids)
    (hid : idAt cs cs.length = x.id) (hlx : Linked x.path) {items : List (ForkItem Block)}
    (ha : Above s.fork x items (idAt ids k)) (hk : k ≤ ids.length) :
    cs = ids.take k ++ (items.map ForkItem.id).reverse := by
  obtain ⟨q, hq⟩ := ha.chain
  have hnum : num (idAt ids k) = k := hids.depth_nodeAt graded BlockId.num_zero hk
  have hxn : x.num = cs.length := by
    rw [ForkItem.num, ← hid, hcs.depth_nodeAt graded BlockId.num_zero (Nat.le_refl _)]
  have hprelen : (ids.take k).length = k := List.length_take_of_le hk
  have hprelast : idAt (ids.take k) (ids.take k).length = idAt ids k := by
    rw [hprelen, idAt, nodeAt_take (Nat.le_refl k)]
  obtain ⟨hch, hlast⟩ := chains_of_spine hlx hq (hprelast ▸ ha.ends) (hids.take k)
  have hlen : k + items.length = cs.length := by
    have := ha.num_eq hlx
    omega
  have hlen' : (ids.take k ++ (items.map ForkItem.id).reverse).length = cs.length := by
    rw [List.length_append, hprelen, List.length_reverse, List.length_map, hlen]
  rw [hprelen, hlen, ← hid] at hlast
  have htake := hch.take_eq graded hcs (Nat.le_of_eq hlen'.symm) (Nat.le_refl _) hlast
  rwa [List.take_length, List.take_of_length_le (Nat.le_of_eq hlen'), eq_comm] at htake

/-- The answer about the fork of an item, if the index has its blocks from where it leaves. -/
theorem onFork (h : OnChain base pre bs s) (hi : Intact base s hd) {made : List (ForkItem Block)}
    (hg : Grown made s.fork) (hx : x ∈ s.fork.index) (hcs : Chains Block cs)
    (hid : idAt cs cs.length = x.id) (hlt : k < cs.length)
    (hk : cs.take k = ((pre ++ bs).map BlockHeader.id).take k)
    (hne : idAt cs (k + 1) ≠ idAt ((pre ++ bs).map BlockHeader.id) (k + 1)) (hfl : s.floor ≤ k)
    (hin : ∀ m v, m :: v <:+ x.path → k < num (BlockHeader.id m.block) →
      (⟨m, v⟩ : ForkItem Block) ∈ s.fork.index) :
    OnFork ((pre ++ bs).map BlockHeader.id) s cs k := by
  generalize hids : (pre ++ bs).map BlockHeader.id = ids at hk hne ⊢
  have ⟨hchain, hhead⟩ := h.chains
  have hlen : (pre ++ bs).length = ids.length := by rw [← hids, List.length_map]
  rw [hids, hlen, ← hi.id_eq] at hhead
  rw [hids] at hchain
  have hz : num (zero : Id) = 0 := BlockId.num_zero
  have hxn : x.num = cs.length := by
    rw [ForkItem.num, ← hid, hcs.depth_nodeAt graded hz (Nat.le_refl _)]
  have hdn : hd.num = ids.length := by
    rw [ForkItem.num, hhead, hchain.depth_nodeAt graded hz (Nat.le_refl _)]
  have hle : cs.length ≤ ids.length := by
    rw [← hxn, ← hdn]
    exact hi.highest x hx
  have hf := hg.forest
  have hlx := hf.linked x (hf.index x hx)
  have hlh := hi.standing.linked
  -- two chains with one block at a height above the parting would not part there
  have happart : ∀ m, k < m → m ≤ cs.length → idAt cs m ≠ idAt ids m := fun m hkm hm he ↦ by
    have htake := hcs.take_eq graded hchain hm (hm.trans hle) he
    refine hne ?_
    rw [idAt, idAt, ← nodeAt_take (l := cs) hkm, htake, nodeAt_take hkm]
  obtain ⟨second, c, hsec, hc⟩ := branch_above hi hx hlx (by omega) hfl hin
  obtain ⟨first, c', hfst, hc'⟩ := branch_above hi hi.mem hlh (by omega) hfl
    fun m v hs hm ↦ hi.standing.main m v hs (by omega)
  have hcs' := (hcs.eq_of_above hid (Nat.le_refl _) hlx hsec hc).2
  have hci := (hchain.eq_of_above hhead.symm (Nat.le_refl _) hlh hfst hc').2
  have hshare : idAt cs k = idAt ids k := by
    rw [idAt, idAt, ← nodeAt_take (l := cs) (Nat.le_refl k), hk, nodeAt_take (Nat.le_refl k)]
  obtain ⟨⟨first', second'⟩, hfetch⟩ := hf.fetchBranchFrom_returns hi.mem hx hfst
    (show Above s.fork x second c' from hci ▸ hshare ▸ hcs' ▸ hsec)
  obtain ⟨d, hb⟩ := hf.fetchBranchFrom_ok hi.mem hx hfetch
  have hdcs := hcs.eq_of_above hid (Nat.le_refl _) hlx hb.right rfl
  have hdids := hchain.eq_of_above hhead.symm (Nat.le_refl _) hlh hb.left rfl
  have hnotx : ¬ Lineage.Ancestor (BuildsOn Block) hd.id x.id := fun ha ↦ by
    rw [hhead] at ha
    have he := (hchain.eq_nodeAt graded hz (Nat.le_refl _) ha).2
    change x.id = nodeAt zero ids x.num at he
    rw [hxn] at he
    exact happart cs.length hlt (Nat.le_refl _) (hid.trans he)
  have hnoth : ¬ Lineage.Ancestor (BuildsOn Block) x.id hd.id := fun ha ↦ by
    have he := graded.eq_of_depth_le ha (by change x.num ≤ hd.num; omega)
    exact hnotx (he ▸ .refl)
  have hnear := (hb.nearest hnotx hnoth).1
  have hdk : num d = k := by
    have hcd := graded.depth_le (hnear.nearest (idAt ids k)
      (hhead ▸ hchain.ancestor (Nat.le_refl _) (by omega))
      (by rw [← hid, ← hshare]; exact hcs.ancestor (Nat.le_refl _) (by omega)))
    rw [hchain.depth_nodeAt graded hz (by omega)] at hcd
    by_contra hnk
    exact happart (num d) (by omega) hdcs.1 (hdcs.2.symm.trans hdids.2)
  rw [hdk] at hdids
  refine ⟨hcs, hk, hlt, hle, happart _ hlt (Nat.le_refl _), ?_⟩
  obtain ⟨y, hy, hyc, hylast⟩ := hb.left.exists_last
  have hdrop : (cs.drop k).reverse = second'.map ForkItem.id := by
    have hprelen : (ids.take k).length = k := List.length_take_of_le (by omega)
    rw [eq_take_append hcs hchain hid hlx (hdids.2 ▸ hb.right) (by omega),
      List.drop_append_of_le_length (Nat.le_of_eq hprelen.symm),
      List.drop_of_length_le (Nat.le_of_eq hprelen), List.nil_append, List.reverse_reverse]
  rw [Database.getBlockIdsOnFork, ← hi.id_eq, hid, hfetch]
  simp only [hylast, hyc, hdrop, hdids.2]

end OnChain

end Forks

section Peer

variable {theirs : List Block} {c : ChainState Id (Content Op Sig TrxId Result World Id)} {n : ℕ}

namespace OnChain

theorem pre_le_floor (h : OnChain base pre bs s) : pre.length ≤ s.floor := by
  rw [h.logged.base_length]
  exact h.settled.base_le_floor

/-- The blocks of a chain that shares those up to the floor are valid for the node. -/
theorem valid_of_shared (h : OnChain base pre bs s) (hg : g.headId = zero)
    (hpre : g.replay pre = some base) (ht : g.replay theirs = some c)
    (hagree : (pre ++ bs).take s.floor = theirs.take s.floor) (hlo : s.floor < n) {b : Block}
    (hb : theirs[n - 1]? = some b) : base.Valid b := by
  have hle := h.pre_le_floor
  obtain ⟨hlt, hbe⟩ := List.getElem?_eq_some_iff.mp hb
  have hn : n ≤ theirs.length := by omega
  have hcut : pre = theirs.take pre.length := by
    have hmin : min pre.length s.floor = pre.length := Nat.min_eq_left hle
    rw [← hmin, ← List.take_take, ← hagree, List.take_take, hmin,
      List.take_append_of_le_length (Nat.le_refl _), List.take_length]
  obtain ⟨d, hd, -⟩ : ∃ d, g.replay (theirs.take n) = some d ∧
      d.replay (theirs.drop n) = some c := by
    rw [← List.take_append_drop n theirs, ChainState.replay_append] at ht
    exact Option.bind_eq_some_iff.mp ht
  have hhead := (chains_of_replay hg hd).2
  have hid : idAt ((theirs.take n).map BlockHeader.id) (theirs.take n).length =
      BlockHeader.id b := by
    have hlen : (theirs.take n).length = n := List.length_take_of_le hn
    rw [hlen]
    refine nodeAt_eq (by omega) ?_
    rw [List.getElem?_map, List.getElem?_take, if_pos (by omega), hb, Option.map_some]
  have hsplit : theirs.take n = pre ++ (theirs.take n).drop pre.length := by
    conv_lhs => rw [← List.take_append_drop pre.length (theirs.take n)]
    rw [List.take_take, Nat.min_eq_left (by omega), ← hcut]
  rw [hsplit, ChainState.replay_append, hpre, Option.bind_some] at hd
  exact ⟨_, d, hd, hhead.trans hid⟩

/-- A block that a node knows is on its chain or in `fork_db`: those of the log are on the chain. -/
theorem mem_of_known (h : OnChain base pre bs s) {i : Id} (hk : s.isKnownBlock i = true)
    (hin : i ∉ (pre ++ bs).map BlockHeader.id) : ∃ x ∈ s.fork.index, x.id = i := by
  have hpos := (h.known_num hk).1
  unfold Database.isKnownBlock Node.fetchBlockById at hk
  cases hf : s.fork.fetchBlock i with
  | some x =>
    obtain ⟨hx, hxid⟩ := Tree.mem_of_fetchBlock hf
    exact ⟨x, hx, hxid⟩
  | none =>
    obtain ⟨j, hj⟩ := Nat.exists_eq_succ_of_ne_zero (Nat.ne_of_gt hpos)
    rw [hf, hj] at hk
    obtain ⟨b, hb⟩ := Option.isSome_iff_exists.mp hk
    obtain ⟨hb, hid⟩ := Option.filter_eq_some_iff.mp hb
    rw [h.log_eq] at hb
    refine absurd (List.mem_map.mpr ⟨b, ?_, of_decide_eq_true hid⟩) hin
    exact List.mem_of_mem_take (List.mem_of_getElem? hb)

/-- A block that a node knows of a chain that shares its blocks up to the floor is on its own chain,
or the node can tell how to get there from it. -/
theorem known_of_shared (h : OnChain base pre bs s) {made : List (ForkItem Block)}
    (hgrown : Grown made s.fork) (hg : g.headId = zero) (hpre : g.replay pre = some base)
    (ht : g.replay theirs = some c) (hagree : (pre ++ bs).take s.floor = theirs.take s.floor)
    (hn : n ≤ theirs.length) (hk : s.isKnownBlock (idAt (theirs.map BlockHeader.id) n) = true) :
    idAt (theirs.map BlockHeader.id) n ∈ (pre ++ bs).map BlockHeader.id ∨
      ∃ k, s.floor ≤ k ∧ OnFork ((pre ++ bs).map BlockHeader.id) s
        ((theirs.map BlockHeader.id).take n) k := by
  have hz : num (zero : Id) = 0 := BlockId.num_zero
  have hchain := h.chains.1
  have htheirs := (chains_of_replay hg ht).1
  have hnum : num (idAt (theirs.map BlockHeader.id) n) = n :=
    htheirs.depth_nodeAt graded hz (by rwa [List.length_map])
  have hbound := h.known_num hk
  rw [hnum] at hbound
  by_cases hin : idAt (theirs.map BlockHeader.id) n ∈ (pre ++ bs).map BlockHeader.id
  · exact .inl hin
  refine .inr ?_
  have hne : idAt (theirs.map BlockHeader.id) n ≠ idAt ((pre ++ bs).map BlockHeader.id) n :=
    fun he ↦ hin (he ▸ mem_iff_nodeAt.mpr ⟨n, hbound.1, by simpa using hbound.2, rfl⟩)
  obtain ⟨k, hfk, hkn, hshare, hpart⟩ := htheirs.exists_parting graded hchain
    (k := s.floor) (by rw [← List.map_take, ← List.map_take, hagree]) (by rwa [List.length_map])
    (by rw [List.length_map]; exact hbound.2) hne
  obtain ⟨hd, hi⟩ : ∃ hd, Intact base s hd := by
    rcases h.node_cases with ⟨hnil, -⟩ | hi
    · rw [hnil, List.length_nil] at hbound
      omega
    · exact hi
  obtain ⟨x, hx, hxid⟩ := h.mem_of_known hk hin
  have hf := hgrown.forest
  have hlx := hf.linked x (hf.index x hx)
  have hlen : ((theirs.map BlockHeader.id).take n).length = n := by
    rw [List.length_take_of_le]
    rwa [List.length_map]
  refine ⟨k, hfk, h.onFork hi hgrown hx (htheirs.take n) ?_ (by rw [hlen]; exact hkn) ?_ ?_ hfk ?_⟩
  · rw [hlen, hxid]
    exact nodeAt_take (Nat.le_refl n)
  · rw [List.take_take, Nat.min_eq_left (by omega), hshare]
  · rw [idAt, nodeAt_take hkn]
    exact hpart
  · intro m v hs hkm
    by_contra hout
    refine hi.standing.tree.doomed x hx m v hs (by omega) hout ?_
    have hs' : (⟨m, v⟩ : ForkItem Block).path <:+ x.path := hs
    have hanc : Lineage.Ancestor (BuildsOn Block) x.id (BlockHeader.id m.block) :=
      ancestor_of_suffix hlx hs'
    rw [hxid] at hanc
    obtain ⟨hle, he⟩ := htheirs.eq_nodeAt graded hz (by rwa [List.length_map]) hanc
    have hlt : num (BlockHeader.id m.block) - 1 < theirs.length := by omega
    obtain ⟨b, hb⟩ : ∃ b, theirs[num (BlockHeader.id m.block) - 1]? = some b :=
      ⟨_, List.getElem?_eq_getElem hlt⟩
    have hbm : b = m.block := by
      refine BlockHeader.id_injective (he.trans (nodeAt_eq (by omega) ?_)).symm
      rw [List.getElem?_map, hb, Option.map_some]
    exact hbm ▸ h.valid_of_shared hg hpre ht hagree (by omega) hb

end OnChain

end Peer

section Words

theorem siblings_ok : StepsOk (Node.atGenesis wordGenesis) siblings :=
  ⟨⟨fun _ ↦ by decide +kernel, fun h ↦ absurd rfl h.2.1⟩,
    ⟨fun he ↦ absurd he (by decide +kernel), fun h ↦ absurd h.2.2 (by decide +kernel)⟩,
    ⟨fun he ↦ absurd he (by decide +kernel), fun _ ↦ ⟨_, _, _, _, _, rfl, rfl, rfl,
      by decide +kernel⟩⟩, trivial⟩

/-- The second block of the number one is on the chain after the switch. -/
theorem blocks_by_number_switched : ∃ bs : List WordBlock,
    wordGenesis.replay bs = some switched.chain ∧
      ∀ n, Database.findBlockIdForNum switched n = idAt (bs.map BlockHeader.id) n := by
  obtain ⟨bs, hbs, hfound, -⟩ := blocks_by_number wordGenesis_fresh (ChainState.replay_nil _)
    (.genesis rfl rfl) rfl siblings_ok
  exact ⟨bs, hbs, hfound⟩

end Words

end Taiyi.Sync
