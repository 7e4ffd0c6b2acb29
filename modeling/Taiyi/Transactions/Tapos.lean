import Taiyi.Chain.Reachable
import Taiyi.Library.Ring
import Taiyi.Transactions.Replay

set_option autoImplicit false

namespace Taiyi.Transactions

open Chain Library

/-- The second word of an id, `_hash[1]`; the first one is the number. -/
class HashId (Id : Type) extends BlockId Id where
  word : Id → ℕ
  word_zero : word zero = 0

export HashId (word)

/-- What a block holds beside its id and the id of the block below, and the flags that the node
applies it under. -/
class BlockContent (Block : Type) (Id Op Sig Header : outParam Type) [HashId Id]
    extends BlockHeader Block Id where
  timestamp : Block → ℕ
  header : Block → Header
  transactions : Block → List (SignedTransaction Op Sig)
  flags : Block → SkipFlags

variable {Block Id Op Sig TrxId Result World Header : Type} [HashId Id]
  [BlockContent Block Id Op Sig Header] [DecidableEq TrxId] [TransactionId Op TrxId]
  [Protocol Op Sig Result World Header]

def signedBlock (b : Block) : SignedBlock Op Sig Header where
  blockNum := num (previous b) + 1
  timestamp := BlockContent.timestamp b
  idPrefix := word (BlockHeader.id b)
  header := BlockContent.header b
  transactions := BlockContent.transactions b

section Frame

variable {s s' : State Op Sig TrxId Result World} {skip : SkipFlags}

theorem summary_applyTransaction {t : SignedTransaction Op Sig}
    (h : applyTransaction skip t s = .ok s') :
    s'.head = s.head ∧ s'.blockSummary = s.blockSummary := by
  obtain ⟨-, -, results, w, rfl⟩ := applyTransaction_ok h
  split <;> exact ⟨rfl, rfl⟩

theorem summary_applyTransactions {ts : List (SignedTransaction Op Sig)}
    (h : applyTransactions skip ts s = .ok s') :
    s'.head = s.head ∧ s'.blockSummary = s.blockSummary := by
  induction ts generalizing s with
  | nil =>
    cases h
    exact ⟨rfl, rfl⟩
  | cons t ts ih =>
    obtain ⟨s₁, ht, hts⟩ := applyTransactions_cons_ok h
    obtain ⟨hh, hb⟩ := ih hts
    obtain ⟨hh₁, hb₁⟩ := summary_applyTransaction ht
    exact ⟨hh.trans hh₁, hb.trans hb₁⟩

omit [DecidableEq TrxId] [TransactionId Op TrxId] in
theorem summary_startBlock {b : SignedBlock Op Sig Header} (h : startBlock skip b s = .ok s') :
    s'.head = s.head ∧ s'.blockSummary = s.blockSummary := by
  obtain ⟨-, -, w, -, rfl⟩ := startBlock_ok h
  exact ⟨rfl, rfl⟩

/-- A block moves the head and writes its own cell of the summary. -/
theorem summary_applyBlock {b : SignedBlock Op Sig Header} (h : applyBlock skip b s = .ok s') :
    s'.head.blockNumber = b.blockNum ∧
      s'.blockSummary = Ring.write 65536 b.blockNum b.idPrefix s.blockSummary := by
  obtain ⟨s₁, s₂, h₁, h₂, h₃⟩ := applyBlock_ok h
  obtain ⟨w, -, rfl⟩ := finishBlock_ok h₃
  refine ⟨rfl, funext fun n ↦ ?_⟩
  have hs : s₂.blockSummary = s.blockSummary :=
    (summary_applyTransactions h₂).2.trans (summary_startBlock h₁).2
  simp only [Ring.write, Function.update_apply, ← hs]
  rfl

end Frame

/-- The content of the database: what transactions and the rest of a block see, and the table of
block ids whose second words it shows them. -/
structure Content (Op Sig TrxId Result World Id : Type) [HashId Id] where
  state : State Op Sig TrxId Result World
  blockId : ℕ → Id
  summary : ∀ n, state.blockSummary n = word (blockId n)

namespace Content

/-- `_apply_block` on the content. -/
def applied (c : Content Op Sig TrxId Result World Id) (b : Block) :
    Option (Content Op Sig TrxId Result World Id) :=
  match h : applyBlock (BlockContent.flags b) (signedBlock b) c.state with
  | .error _ => none
  | .ok s => some
    { state := s
      blockId := Ring.write 65536 (num (BlockHeader.id b)) (BlockHeader.id b) c.blockId
      summary n := by
        rw [(summary_applyBlock h).2, BlockHeader.num_id]
        simp only [Ring.write, Function.update_apply, signedBlock, c.summary]
        split <;> rfl }

end Content

/-- No block yet, and 65536 blank summaries. -/
structure Fresh (c : ChainState Id (Content Op Sig TrxId Result World Id)) : Prop where
  headId : c.headId = zero
  number : c.rest.state.head.blockNumber = 0
  blank : c.rest.blockId = fun _ ↦ zero

/-- The table describes the blocks of the chain. -/
structure Tabled (bs : List Block) (c : ChainState Id (Content Op Sig TrxId Result World Id)) :
    Prop where
  headNum : c.headNum = bs.length
  number : c.rest.state.head.blockNumber = bs.length
  numbers : ∀ (k : ℕ) (b : Block), bs[k]? = some b → num (BlockHeader.id b) = k + 1
  table : Ring.Holds 65536 zero (bs.map BlockHeader.id) c.rest.blockId

/-- A state in which a transaction is applied over the content: one after other transactions,
pending ones or those of a block that was opened. -/
inductive Within (c : ChainState Id (Content Op Sig TrxId Result World Id)) :
    State Op Sig TrxId Result World → Prop
  | head : Within c c.rest.state
  | opened {skip : SkipFlags} {b : SignedBlock Op Sig Header} {s : State Op Sig TrxId Result World} :
      startBlock skip b c.rest.state = .ok s → Within c s
  | transaction {skip : SkipFlags} {t : SignedTransaction Op Sig}
      {s s' : State Op Sig TrxId Result World} :
      Within c s → applyTransaction skip t s = .ok s' → Within c s'

variable {c : ChainState Id (Content Op Sig TrxId Result World Id)} {bs : List Block}

/-- Among the last 65536 blocks of the chain is one that the transaction refers to. -/
def Refers (bs : List Block) (t : SignedTransaction Op Sig) : Prop :=
  ∃ b ∈ bs, bs.length < num (BlockHeader.id b) + 65536 ∧
    num (BlockHeader.id b) ≡ t.refBlockNum [MOD 65536] ∧
    word (BlockHeader.id b) = t.refBlockPrefix

theorem Within.eq {s : State Op Sig TrxId Result World} (h : Within c s) :
    s.head = c.rest.state.head ∧ s.blockSummary = c.rest.state.blockSummary := by
  induction h with
  | head => exact ⟨rfl, rfl⟩
  | opened hs => exact summary_startBlock hs
  | transaction _ ht ih =>
    obtain ⟨hh, hb⟩ := summary_applyTransaction ht
    exact ⟨hh.trans ih.1, hb.trans ih.2⟩

omit [DecidableEq TrxId] [TransactionId Op TrxId] in
theorem checkTime_tapos {s : State Op Sig TrxId Result World} {skip : SkipFlags}
    {t : SignedTransaction Op Sig} (h : s.checkTime skip t = .ok ())
    (hn : 0 < s.head.blockNumber) (hs : skip.taposCheck = false) :
    s.blockSummary t.refBlockNum = t.refBlockPrefix := by
  unfold State.checkTime at h
  rw [if_pos hn, hs] at h
  split at h
  · cases h
  · next hp => simpa using Eq.symm (by simpa using hp)

omit [DecidableEq TrxId] [TransactionId Op TrxId] [Protocol Op Sig Result World Header] in
/-- What an accepted reference says, by whether a block was written into its cell. -/
theorem Tabled.refers (h : Tabled bs c) {t : SignedTransaction Op Sig}
    (hr : t.refBlockNum < 65536) (hp : word (c.rest.blockId t.refBlockNum) = t.refBlockPrefix) :
    (Ring.Written 65536 bs.length t.refBlockNum ∧ Refers bs t) ∨
      ¬ Ring.Written 65536 bs.length t.refBlockNum ∧ t.refBlockPrefix = 0 ∧
        ∀ b ∈ bs, ¬ num (BlockHeader.id b) ≡ t.refBlockNum [MOD 65536] := by
  have hcell := h.table.cell hr
  simp only [List.length_map] at hcell
  rcases hcell with ⟨hw, k, hk, hle, hmod⟩ | ⟨hw, hblank, hnone⟩
  · rw [List.getElem?_map] at hk
    obtain ⟨b, hb, hid⟩ := Option.map_eq_some_iff.mp hk
    have hnum := h.numbers k b hb
    refine .inl ⟨hw, b, List.mem_of_getElem? hb, by omega, ?_, by rw [hid, hp]⟩
    rw [Nat.ModEq, hnum, hmod, Nat.mod_eq_of_lt hr]
  · refine .inr ⟨hw, by rw [← hp, hblank, HashId.word_zero], fun b hb he ↦ ?_⟩
    obtain ⟨k, hlt, hk⟩ := List.getElem_of_mem hb
    have hnum := h.numbers k b (by rw [List.getElem?_eq_getElem hlt, hk])
    rw [Nat.ModEq, hnum, Nat.mod_eq_of_lt hr] at he
    exact hnone k hlt he

/-- The outcome of `update_last_irreversible_block` in the content after a block. -/
class Irreversibility (World : Type) where
  irreversible : ℕ → ℕ → World → ℕ
  le_head : ∀ lib n w, lib ≤ n → irreversible lib n w ≤ n

variable [Irreversibility World]

instance : Evaluation Block Id (Content Op Sig TrxId Result World Id) where
  evaluate c b := (c.rest.applied b).map fun r ↦
    (Irreversibility.irreversible c.lib (num c.headId + 1) r.state.world, r)
  lib_le c b r hl h := by
    obtain ⟨r, -, rfl⟩ := Option.map_eq_some_iff.mp h
    exact Irreversibility.le_head _ _ _ (Nat.le_succ_of_le hl)

section Chain

variable [DecidableEq Id] {c' g : ChainState Id (Content Op Sig TrxId Result World Id)} {b : Block}

theorem apply_content (h : c.apply b = some c') :
    c'.rest.state.head.blockNumber = num (BlockHeader.id b) ∧
      c'.rest.blockId = Ring.write 65536 (num (BlockHeader.id b)) (BlockHeader.id b)
        c.rest.blockId := by
  unfold ChainState.apply at h
  split at h
  · obtain ⟨r, he, rfl⟩ := Option.map_eq_some_iff.mp h
    obtain ⟨r, hr, rfl⟩ := Option.map_eq_some_iff.mp he
    unfold Content.applied at hr
    split at hr
    · cases hr
    · next s hs =>
      cases hr
      exact ⟨(summary_applyBlock hs).1.trans (BlockHeader.num_id b).symm, rfl⟩
  · cases h

theorem Tabled.apply (h : Tabled bs c) (ha : c.apply b = some c') : Tabled (bs ++ [b]) c' := by
  have hn := ChainState.headNum_apply ha
  have hi : num (BlockHeader.id b) = c'.headNum := by
    rw [ChainState.headNum, (ChainState.apply_eq_some ha).2]
  obtain ⟨hnum, htab⟩ := apply_content ha
  have hlen : num (BlockHeader.id b) = bs.length + 1 := by rw [hi, hn, h.headNum]
  refine ⟨by rw [hn, h.headNum, List.length_append, List.length_singleton],
    by rw [hnum, hlen, List.length_append, List.length_singleton], fun k b' hk ↦ ?_, ?_⟩
  · rcases Nat.lt_or_ge k bs.length with hlt | hge
    · exact h.numbers k b' (by rwa [List.getElem?_append_left hlt] at hk)
    · obtain ⟨hlt, rfl⟩ := List.getElem?_eq_some_iff.mp hk
      rw [List.length_append, List.length_singleton] at hlt
      obtain rfl : k = bs.length := by omega
      simpa using hlen
  · have := h.table.concat (BlockHeader.id b)
    rw [List.length_map, ← hlen] at this
    rwa [htab, List.map_append, List.map_singleton]

theorem Fresh.tabled (hg : Fresh g) (h : g.replay bs = some c) : Tabled bs c := by
  induction bs using List.reverseRecOn generalizing c with
  | nil =>
    cases h
    refine ⟨?_, hg.number, fun k b hk ↦ by simp at hk, hg.blank ▸ Ring.holds_nil⟩
    rw [ChainState.headNum, hg.headId, BlockId.num_zero, List.length_nil]
  | append_singleton bs b ih =>
    rw [ChainState.replay_concat] at h
    obtain ⟨d, hd, h⟩ := Option.bind_eq_some_iff.mp h
    exact (ih hd).apply h

/-- After any blocks and fork switches the table describes the blocks of the current chain, and an
accepted transaction refers to one of the last 65536 of them, or it names a number that no block
of the chain has and its prefix is zero. -/
theorem tapos_binds (hg : Fresh g) {s : Node Block Id (Content Op Sig TrxId Result World Id)}
    (hs : Reachable g s) :
    ∃ bs : List Block, g.replay bs = some s.chain ∧
      Ring.Holds 65536 zero (bs.map BlockHeader.id) s.chain.rest.blockId ∧
      ∀ (w w' : State Op Sig TrxId Result World) (skip : SkipFlags) (t : SignedTransaction Op Sig),
        Within s.chain w → 0 < w.head.blockNumber → skip.taposCheck = false →
        t.refBlockNum < 65536 → applyTransaction skip t w = .ok w' →
        (Ring.Written 65536 bs.length t.refBlockNum ∧ Refers bs t) ∨
          ¬ Ring.Written 65536 bs.length t.refBlockNum ∧ t.refBlockPrefix = 0 ∧
            ∀ b ∈ bs, ¬ num (BlockHeader.id b) ≡ t.refBlockNum [MOD 65536] := by
  obtain ⟨bs, hbs⟩ := hs.rooted.chain
  have ht := hg.tabled hbs
  refine ⟨bs, hbs, ht.table, fun w w' skip t hw hn hskip hr ha ↦ ht.refers hr ?_⟩
  have hp := checkTime_tapos (applyTransaction_ok ha).2.1 hn hskip
  rw [← s.chain.rest.summary, ← hw.eq.2, hp]

end Chain

section Words

/-- An id for worked cases: the words of the block and of those below it. -/
structure WordPath where
  words : List ℕ
  deriving DecidableEq

structure WordBlock where
  word : ℕ
  parent : WordPath
  deriving DecidableEq

instance : HashId WordPath where
  num p := p.words.length
  zero := ⟨[]⟩
  num_zero := rfl
  word p := p.words.head?.getD 0
  word_zero := rfl

instance : BlockContent WordBlock WordPath Nop Unit Unit where
  id b := ⟨b.word :: b.parent.words⟩
  previous b := b.parent
  num_id _ := rfl
  id_injective := by
    rintro ⟨w, ⟨p⟩⟩ ⟨w', ⟨p'⟩⟩ h
    simpa using h
  timestamp b := 3 * (b.parent.words.length + 1)
  header _ := ()
  transactions _ := []
  flags _ := {}

/-- The first blocks of a chain leave the last irreversible block where it is. -/
instance : Irreversibility Unit where
  irreversible lib _ _ := lib
  le_head _ _ _ h := h

abbrev NopContent := Content Nop Unit (Transaction Nop) Unit Unit WordPath

def wordGenesis : ChainState WordPath NopContent := ⟨zero, 0, nopGenesis, fun _ ↦ zero, fun _ ↦ rfl⟩

theorem wordGenesis_fresh : Fresh wordGenesis := ⟨rfl, rfl, rfl⟩

/-- A chain of one block, and the two blocks of a longer one. -/
def siblings : List WordBlock := [⟨5, ⟨[]⟩⟩, ⟨6, ⟨[]⟩⟩, ⟨7, ⟨[6]⟩⟩]

def switched : Node WordBlock WordPath NopContent := (Node.atGenesis wordGenesis).deliver siblings

def oneBlock : Node WordBlock WordPath NopContent := (Node.atGenesis wordGenesis).push ⟨5, ⟨[]⟩⟩

def reference (num word : ℕ) : SignedTransaction Nop Unit := ⟨⟨num, word, 60, [.nop]⟩, []⟩

theorem applies_of_isOk {s : State Nop Unit (Transaction Nop) Unit Unit}
    {t : SignedTransaction Nop Unit} (h : (applyTransaction {} t s).isOk = true) :
    ∃ s', applyTransaction {} t s = .ok s' := by
  cases hs : applyTransaction {} t s with
  | error e =>
    rw [hs] at h
    cases h
  | ok s' => exact ⟨s', rfl⟩

/-- The first block of the new branch can be referred to. -/
theorem tapos_binds_switched : ∃ bs : List WordBlock,
    wordGenesis.replay bs = some switched.chain ∧ Refers bs (reference 1 6) := by
  obtain ⟨bs, hbs, -, h⟩ := tapos_binds wordGenesis_fresh
    (Reachable.genesis.deliver siblings)
  obtain ⟨w, hw⟩ := applies_of_isOk (s := switched.chain.rest.state) (t := reference 1 6)
    (by decide +kernel)
  rcases h _ w {} (reference 1 6) .head (by decide +kernel) rfl (by decide) hw with hr | hr
  · exact ⟨bs, hbs, hr.2⟩
  · exact absurd hr.2.1 (by decide)

/-- One block above genesis a transaction without a reference is accepted: the summary of the
number zero is blank. -/
theorem blank_reference_accepted :
    Reachable wordGenesis oneBlock ∧ 0 < oneBlock.chain.rest.state.head.blockNumber ∧
      (applyTransaction {} (reference 0 0) oneBlock.chain.rest.state).isOk = true ∧
      ∀ bs : List WordBlock, wordGenesis.replay bs = some oneBlock.chain →
        ¬ Refers bs (reference 0 0) := by
  refine ⟨Reachable.genesis.push _, by decide +kernel, by decide +kernel, fun bs hbs ↦ ?_⟩
  have ht := wordGenesis_fresh.tabled hbs
  have hlen : bs.length = 1 := ht.number.symm.trans (by decide +kernel)
  rintro ⟨b, hb, -, hmod, -⟩
  obtain ⟨k, hlt, hk⟩ := List.getElem_of_mem hb
  have hnum := ht.numbers k b (by rw [List.getElem?_eq_getElem hlt, hk])
  obtain rfl : k = 0 := by omega
  rw [hnum] at hmod
  exact absurd hmod (by decide)

end Words

end Taiyi.Transactions
