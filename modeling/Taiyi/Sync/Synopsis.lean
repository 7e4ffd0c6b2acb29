import Taiyi.Library.Halving
import Taiyi.Sync.Lookup

set_option autoImplicit false

namespace Taiyi.Sync

open Chain Transactions Library Lineage

variable {Block Id Op Sig TrxId Result World Header : Type} [HashId Id]
  [BlockContent Block Id Op Sig Header] [DecidableEq Id]

/-- The exceptions that the network layer tells apart. -/
inductive NetException
  | blockOlderThanUndoHistory
  | peerIsOnAnUnreachableFork
  | other (what : String)
  deriving DecidableEq

/-- The numbers a synopsis is made between, the last number of the chain that it takes from the
chain, and the ids of the fork above that. -/
structure SynopsisRange (Id : Type) where
  lowBlockNum : ℕ
  nonForkHighBlockNum : ℕ
  highBlockNum : ℕ
  forkHistory : List Id

namespace Database

/-- The range for a reference point, or nothing when there are no blocks. -/
def synopsisRange (s : Database Block Op Sig TrxId Result World Id) (referencePoint : Id) :
    Except NetException (Option (SynopsisRange Id)) :=
  if referencePoint ≠ zero then
    match s.isIncludedBlock referencePoint with
    | .error e => .error (.other e)
    | .ok true =>
      .ok (some ⟨min s.chain.lib (num referencePoint), num referencePoint, num referencePoint, []⟩)
    | .ok false =>
      match s.getBlockIdsOnFork referencePoint with
      | .error e => .error (.other e)
      | .ok history =>
        let lastNonForkBlock := history.getLastD zero
        let forkHistory := history.dropLast.reverse
        let nonForkHighBlockNum := if lastNonForkBlock = zero then 0 else num lastNonForkBlock
        if nonForkHighBlockNum < s.chain.lib then .error .blockOlderThanUndoHistory
        else .ok (some ⟨s.chain.lib, nonForkHighBlockNum,
          nonForkHighBlockNum + forkHistory.length, forkHistory⟩)
  else if s.chain.headNum = 0 then .ok none
  else .ok (some ⟨s.chain.lib, s.chain.headNum, s.chain.headNum, []⟩)

/-- From the main chain up to where the fork leaves it, and from the fork above. -/
def synopsisId (s : Database Block Op Sig TrxId Result World Id) (r : SynopsisRange Id) (n : ℕ) :
    Except NetException Id :=
  if n ≤ r.nonForkHighBlockNum then (s.getBlockIdForNum n).mapError .other
  else
    match r.forkHistory[n - r.nonForkHighBlockNum - 1]? with
    | some i => .ok i
    | none => .error (.other "out of range")

/-- The loop of the synopsis; the number rises in every round. -/
def synopsisFrom (s : Database Block Op Sig TrxId Result World Id) (r : SynopsisRange Id)
    (trueHighBlockNum : ℕ) : ℕ → ℕ → Except NetException (List Id)
  | 0, _ => .ok []
  | rounds + 1, lowBlockNum => do
    let i ← s.synopsisId r lowBlockNum
    let next := lowBlockNum + (trueHighBlockNum - lowBlockNum + 2) / 2
    let rest ← if next ≤ r.highBlockNum then s.synopsisFrom r trueHighBlockNum rounds next
      else .ok []
    .ok (i :: rest)

def getBlockchainSynopsis (s : Database Block Op Sig TrxId Result World Id) (referencePoint : Id)
    (numberOfBlocksAfterReferencePoint : ℕ) : Except NetException (List Id) := do
  match ← s.synopsisRange referencePoint with
  | none => .ok []
  | some r =>
    s.synopsisFrom r (r.highBlockNum + numberOfBlocksAfterReferencePoint) (r.highBlockNum + 1)
      (if r.lowBlockNum = 0 then 1 else r.lowBlockNum)

/-- The first of the ids that is on the chain, or stands for no block. -/
def lastKnownBlockId (s : Database Block Op Sig TrxId Result World Id) :
    List Id → Except NetException Id
  | [] => .error .peerIsOnAnUnreachableFork
  | i :: rest =>
    if i = zero then .ok i
    else if s.isKnownBlock i then
      match s.isIncludedBlock i with
      | .error e => .error (.other e)
      | .ok true => .ok i
      | .ok false => s.lastKnownBlockId rest
    else s.lastKnownBlockId rest

/-- The last block of a synopsis, given in ascending order, that is on the chain; an empty synopsis
comes from a node without blocks. -/
def lastKnownInSynopsis (s : Database Block Op Sig TrxId Result World Id)
    (blockchainSynopsis : List Id) : Except NetException Id :=
  if blockchainSynopsis = [] ∨ blockchainSynopsis = [zero] then .ok zero
  else s.lastKnownBlockId blockchainSynopsis.reverse

/-- The ids from a number on. -/
def blockIdsFrom (s : Database Block Op Sig TrxId Result World Id) (limit : ℕ) :
    ℕ → ℕ → List Id → Except NetException (List Id)
  | 0, _, result => .ok result
  | rounds + 1, n, result =>
    if n ≤ s.chain.headNum ∧ result.length < limit then
      if 0 < n then
        match s.getBlockIdForNum n with
        | .error e => .error (.other e)
        | .ok i => s.blockIdsFrom limit rounds (n + 1) (result ++ [i])
      else s.blockIdsFrom limit rounds (n + 1) result
    else .ok result

/-- The ids from the highest block of the synopsis that is on the chain, and how many more there
are. -/
def getBlockIds (s : Database Block Op Sig TrxId Result World Id) (blockchainSynopsis : List Id)
    (limit : ℕ) : Except NetException (List Id × ℕ) := do
  if s.chain.headNum = 0 then .ok ([], 0)
  else
    let lastKnown ← s.lastKnownInSynopsis blockchainSynopsis
    let result ← s.blockIdsFrom limit (s.chain.headNum + 1) (num lastKnown) []
    .ok (result, match result.getLast? with
      | some i => s.chain.headNum - num i
      | none => 0)

end Database

/-- The lowest block of a synopsis of the chain: no fork leaves it below the last irreversible
block. -/
def lowBlockNum (s : Database Block Op Sig TrxId Result World Id) (cs : List Id) : ℕ :=
  max 1 (min s.chain.lib cs.length)

/-- The chain up to a reference point, which is on the chain of the node or on a fork that leaves
it at or above its last irreversible block; without a reference it is the whole chain. -/
inductive Reference (ids : List Id) (s : Database Block Op Sig TrxId Result World Id) :
    Id → List Id → Prop
  | whole : ids ≠ [] → Reference ids s zero ids
  | main {n : ℕ} : 0 < n → n ≤ ids.length → Reference ids s (idAt ids n) (ids.take n)
  | fork {cs : List Id} {k : ℕ} : OnFork ids s cs k → s.chain.lib ≤ k →
      Reference ids s (idAt cs cs.length) cs

/-- A synopsis of a chain names its blocks in order from the lowest one to the head; every block
above the lowest one has one of them at or below it that is no farther from it than the head. -/
structure Summarizes (cs : List Id) (low : ℕ) (synopsis : List Id) : Prop where
  first : synopsis.head? = some (idAt cs low)
  last : synopsis.getLast? = some (idAt cs cs.length)
  ascending : (synopsis.map num).Pairwise (· < ·)
  named : ∀ i ∈ synopsis, i ∈ cs
  near : ∀ m, low ≤ m → m ≤ cs.length →
    ∃ k, idAt cs k ∈ synopsis ∧ low ≤ k ∧ k ≤ m ∧ m - k ≤ cs.length - m
  length_le : synopsis.length ≤ Nat.log 2 (cs.length - low + 1) + 1

variable {ids cs : List Id} {s : Database Block Op Sig TrxId Result World Id} {r : Id}
  {range : SynopsisRange Id} {n low top extra rounds limit : ℕ}

section Synopsis

omit [DecidableEq Id] [HashId Id] in
theorem one_or_more (n : ℕ) : (if n = 0 then 1 else n) = max 1 n := by
  split <;> omega

theorem synopsisFrom_eq (hlow : low ≤ range.highBlockNum)
    (hid : ∀ n, low ≤ n → n ≤ range.highBlockNum → s.synopsisId range n = .ok (idAt cs n)) :
    s.synopsisFrom range top rounds low =
      .ok ((Halving.steps top range.highBlockNum rounds low).map (idAt cs)) := by
  induction rounds generalizing low with
  | zero => rfl
  | succ rounds ih =>
    have hlt : low < Halving.next top low := Halving.lt_next
    have hi := hid low (Nat.le_refl _) hlow
    rw [Database.synopsisFrom, hi, Halving.steps, List.map_cons]
    change (do
      let rest ← if Halving.next top low ≤ range.highBlockNum then
        s.synopsisFrom range top rounds (Halving.next top low) else .ok []
      Except.ok (idAt cs low :: rest)) = _
    split
    · next hle =>
      rw [ih hle fun n hn ↦ hid n (by omega)]
      rfl
    · rfl

omit [DecidableEq Id] in
/-- The halving steps up to the head of a chain give a synopsis of it. -/
theorem summarizes_steps (hcs : Chains Block cs) (hpos : 0 < low) (hle : low ≤ cs.length)
    (hr : cs.length < low + rounds) :
    Summarizes cs low ((Halving.steps cs.length cs.length rounds low).map (idAt cs)) := by
  have hnum : ∀ n, n ≤ cs.length → num (idAt cs n) = n := fun n hn ↦
    hcs.depth_nodeAt graded BlockId.num_zero hn
  obtain ⟨rounds, rfl⟩ := Nat.exists_eq_succ_of_ne_zero (show rounds ≠ 0 by omega)
  refine ⟨rfl, ?_, ?_, ?_, ?_, ?_⟩
  · rw [List.getLast?_map, Halving.getLast?_steps hle hr]
    rfl
  · rw [List.map_map]
    refine List.pairwise_map.mpr (Halving.sorted_steps.imp_of_mem fun {m n} hm hn hlt ↦ ?_)
    simpa [Function.comp_apply, hnum m (Halving.le_high_of_mem hle hm),
      hnum n (Halving.le_high_of_mem hle hn)] using hlt
  · intro i hi
    obtain ⟨n, hn, rfl⟩ := List.mem_map.mp hi
    have hlow := Halving.le_of_mem hn
    exact mem_iff_nodeAt.mpr ⟨n, by omega, Halving.le_high_of_mem hle hn, rfl⟩
  · intro m hm hmle
    obtain ⟨k, hk, hkm, hnear⟩ := Halving.exists_near hm hmle hr
    exact ⟨k, List.mem_map.mpr ⟨k, hk, rfl⟩, Halving.le_of_mem hk, hkm, hnear⟩
  · rw [List.length_map]
    exact Halving.length_steps hle (Nat.le_refl _)

theorem getBlockchainSynopsis_eq (range : SynopsisRange Id)
    (hr : s.synopsisRange r = .ok (some range))
    (hlow : (if range.lowBlockNum = 0 then 1 else range.lowBlockNum) = low)
    (hhigh : range.highBlockNum = cs.length) (hle : low ≤ cs.length)
    (hid : ∀ n, 0 < n → n ≤ cs.length → s.synopsisId range n = .ok (idAt cs n)) :
    s.getBlockchainSynopsis r extra =
      .ok ((Halving.steps (cs.length + extra) cs.length (cs.length + 1) low).map (idAt cs)) := by
  have hpos : 0 < low := by
    rw [← hlow]
    split <;> omega
  rw [← hhigh] at hle hid ⊢
  unfold Database.getBlockchainSynopsis
  rw [hr]
  change s.synopsisFrom range _ _ _ = _
  rw [hlow]
  exact synopsisFrom_eq hle fun n hn hn' ↦ hid n (by omega) hn'

theorem synopsisId_of_main (ha : Answers ids s) (hn : 0 < n) (hle : n ≤ range.nonForkHighBlockNum)
    (hlen : n ≤ ids.length) : s.synopsisId range n = .ok (idAt ids n) := by
  rw [Database.synopsisId, if_pos hle, ha.getBlockIdForNum hn hlen]
  rfl

omit [DecidableEq Id] in
theorem lowBlockNum_pos (s : Database Block Op Sig TrxId Result World Id) (cs : List Id) :
    0 < lowBlockNum s cs := Nat.lt_of_lt_of_le Nat.one_pos (Nat.le_max_left _ _)

namespace Reference

theorem pos (h : Reference ids s r cs) : 0 < cs.length := by
  cases h with
  | whole hne => exact List.length_pos_of_ne_nil hne
  | main hpos hn => rwa [List.length_take_of_le hn]
  | fork hf hl => exact Nat.zero_lt_of_lt hf.lt

theorem low_le (h : Reference ids s r cs) : lowBlockNum s cs ≤ cs.length := by
  have := h.pos
  unfold lowBlockNum
  omega

theorem chains (h : Reference ids s r cs) (ha : Answers ids s) : Chains Block cs := by
  cases h with
  | whole hne => exact ha.chains
  | main hpos hn => exact ha.chains.take _
  | fork hf hl => exact hf.chains

/-- The synopsis of a chain takes its blocks at the halving steps, as if its length had the further
blocks of the peer. -/
theorem synopsis_eq (h : Reference ids s r cs) (ha : Answers ids s) (extra : ℕ) :
    s.getBlockchainSynopsis r extra = .ok ((Halving.steps (cs.length + extra) cs.length
      (cs.length + 1) (lowBlockNum s cs)).map (idAt cs)) := by
  have hle := h.low_le
  have hz : num (zero : Id) = 0 := BlockId.num_zero
  cases h with
  | whole hne =>
    have hpos := List.length_pos_of_ne_nil hne
    have hlib := ha.lib
    refine getBlockchainSynopsis_eq ⟨s.chain.lib, ids.length, ids.length, []⟩ ?_ ?_ rfl
      hle fun n hn hle ↦ synopsisId_of_main ha hn hle hle
    · simp [Database.synopsisRange, ha.headNum, Nat.ne_of_gt hpos]
    · rw [lowBlockNum, Nat.min_eq_left hlib, one_or_more]
  | @main n hpos hn =>
    have hnum := ha.num_idAt hn
    have hlen : (ids.take n).length = n := List.length_take_of_le hn
    have hin : s.isIncludedBlock (idAt ids n) = .ok true := by
      rw [ha.isIncludedBlock (by omega) (by omega),
        decide_eq_true (mem_iff_nodeAt.mpr ⟨n, hpos, hn, rfl⟩)]
    refine getBlockchainSynopsis_eq ⟨min s.chain.lib n, n, n, []⟩ ?_ ?_ hlen.symm
      hle fun m hm hmn ↦ ?_
    · rw [Database.synopsisRange, if_pos (ha.idAt_ne_zero hpos hn), hin, hnum]
    · rw [lowBlockNum, hlen, one_or_more]
    · rw [hlen] at hmn
      rw [idAt, nodeAt_take hmn]
      exact synopsisId_of_main ha hm hmn (hmn.trans hn)
  | @fork cs k hf hl =>
    have hlt := hf.lt
    have hlen := hf.le
    have hnum : num (idAt cs cs.length) = cs.length :=
      hf.chains.depth_nodeAt graded hz (Nat.le_refl _)
    have hne : idAt cs cs.length ≠ zero := fun he ↦ by
      rw [he, hz] at hnum
      omega
    have hin : s.isIncludedBlock (idAt cs cs.length) = .ok false := by
      rw [ha.isIncludedBlock (by omega) (by omega), decide_eq_false]
      intro hmem
      obtain ⟨-, -, he⟩ := (ha.chains.mem_iff graded hz).mp hmem
      rw [hnum] at he
      exact hf.differs he.symm
    have hk : (if idAt ids k = zero then 0 else num (idAt ids k)) = k := by
      split
      · next he =>
        have hnk := ha.num_idAt (show k ≤ ids.length by omega)
        rw [he, hz] at hnk
        exact hnk
      · exact ha.num_idAt (by omega)
    refine getBlockchainSynopsis_eq ⟨s.chain.lib, k, cs.length, cs.drop k⟩ ?_ ?_ rfl
      hle fun n hn hn' ↦ ?_
    · have hdrop : k + (cs.length - k) = cs.length := by omega
      simp [Database.synopsisRange, hne, hin, hf.blockIds, hk, Nat.not_lt.mpr hl, hdrop]
    · rw [lowBlockNum, Nat.min_eq_left (by omega), one_or_more]
    · by_cases hnk : n ≤ k
      · rw [synopsisId_of_main ha hn hnk (by omega), idAt, idAt, ← nodeAt_take (l := cs) hnk,
          hf.shared, nodeAt_take hnk]
      · have hget : (cs.drop k)[n - k - 1]? = some (idAt cs n) := by
          rw [List.getElem?_drop, show k + (n - k - 1) = n - 1 by omega,
            getElem?_eq_nodeAt (r := zero) (by omega), Nat.sub_add_cancel hn]
        rw [Database.synopsisId, if_neg hnk]
        simp only [hget]

/-- Without further blocks the synopsis ends with the reference and is short. -/
theorem summarizes (h : Reference ids s r cs) (ha : Answers ids s) :
    ∃ synopsis, s.getBlockchainSynopsis r 0 = .ok synopsis ∧
      Summarizes cs (lowBlockNum s cs) synopsis :=
  ⟨_, h.synopsis_eq ha 0, summarizes_steps (h.chains ha) (lowBlockNum_pos s cs) h.low_le
    (by omega)⟩

end Reference

end Synopsis

section Reply

theorem lastKnownBlockId_eq (ha : Answers ids s) (synopsis : List Id) :
    s.lastKnownBlockId synopsis =
      match synopsis.find? (fun i ↦ i = zero ∨ i ∈ ids) with
      | some i => .ok i
      | none => .error .peerIsOnAnUnreachableFork := by
  induction synopsis with
  | nil => rfl
  | cons i rest ih =>
    by_cases hz : i = zero
    · simp [Database.lastKnownBlockId, hz]
    by_cases hk : s.isKnownBlock i = true
    · obtain ⟨hpos, hn⟩ := ha.known i hk
      by_cases hi : i ∈ ids
      · simp [Database.lastKnownBlockId, hz, hk, ha.isIncludedBlock hpos hn, hi]
      · simp [Database.lastKnownBlockId, hz, hk, ha.isIncludedBlock hpos hn, hi, ih]
    · have hi : i ∉ ids := fun hi ↦ hk (ha.holds i hi)
      simp [Database.lastKnownBlockId, hz, hk, hi, ih]

theorem blockIdsFrom_eq (ha : Answers ids s) (hn : 0 < n) (hr : ids.length < n + rounds)
    {result : List Id} : s.blockIdsFrom limit rounds n result =
      .ok (result ++ (ids.drop (n - 1)).take (limit - result.length)) := by
  induction rounds generalizing n result with
  | zero => simp [Database.blockIdsFrom, List.drop_eq_nil_of_le (show ids.length ≤ n - 1 by omega)]
  | succ rounds ih =>
    rw [Database.blockIdsFrom, ha.headNum]
    by_cases hgo : n ≤ ids.length ∧ result.length < limit
    · have hdrop : ids.drop (n - 1) = idAt ids n :: ids.drop n := by
        rw [drop_eq_cons (r := zero) (by omega), Nat.sub_add_cancel hn]
      have htake : limit - result.length = limit - (result.length + 1) + 1 := by omega
      rw [if_pos hgo, if_pos hn, ha.getBlockIdForNum hn hgo.1]
      simp only
      rw [ih (Nat.succ_pos n) (by omega), hdrop, htake, List.take_succ_cons]
      simp
    · have hnil : (ids.drop (n - 1)).take (limit - result.length) = [] := by
        rw [List.take_eq_nil_iff, List.drop_eq_nil_iff]
        omega
      rw [if_neg hgo, hnil, List.append_nil]

/-- The ids from the last known block on, at most as many as the limit. -/
theorem getBlockIds_of_last (ha : Answers ids s) (hne : ids ≠ []) (hlim : 0 < limit)
    {synopsis : List Id} {i : Id} (hn : num i ≤ ids.length)
    (hlast : s.lastKnownInSynopsis synopsis = .ok i) :
    s.getBlockIds synopsis limit =
      .ok ((ids.drop (num i - 1)).take limit, ids.length - (num i - 1 + limit)) := by
  have hpos := List.length_pos_of_ne_nil hne
  have hids : s.blockIdsFrom limit (ids.length + 1) (num i) [] =
      .ok ((ids.drop (num i - 1)).take limit) := by
    rcases Nat.eq_zero_or_pos (num i) with hz | hi
    · rw [hz, Database.blockIdsFrom, if_pos ⟨Nat.zero_le _, hlim⟩, if_neg (Nat.lt_irrefl 0),
        blockIdsFrom_eq ha Nat.one_pos (by omega)]
      simp
    · rw [blockIdsFrom_eq ha hi (by omega)]
      simp
  have hget : ((ids.drop (num i - 1)).take limit).getLast? =
      some (idAt ids (min (num i - 1 + limit) ids.length)) := by
    rw [List.getLast?_eq_getElem?, List.length_take, List.length_drop, List.getElem?_take,
      if_pos (by omega), List.getElem?_drop,
      getElem?_eq_nodeAt (r := zero) (by omega)]
    congr 2
    omega
  unfold Database.getBlockIds
  rw [ha.headNum, if_neg (Nat.ne_of_gt hpos), hlast]
  change (s.blockIdsFrom limit (ids.length + 1) (num i) []).bind _ = _
  rw [hids]
  simp only [Except.bind, hget, ha.num_idAt (Nat.min_le_right _ _)]
  congr 2
  omega

end Reply

end Taiyi.Sync
