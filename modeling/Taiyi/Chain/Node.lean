import Mathlib.Data.List.DropRight
import Taiyi.Chain.ForkDatabase

set_option autoImplicit false

namespace Taiyi.Chain

/-- The chainbase content: the head block, the last irreversible block, and all the rest. -/
structure ChainState (Id Rest : Type) where
  headId : Id
  lib : ℕ
  rest : Rest
  deriving DecidableEq

/-- Everything `_apply_block` checks and changes after the test of `previous` and before the
migration of irreversible blocks, as a function of the content: the new last irreversible
block and the new rest, or nothing when it throws. The last irreversible block is never
ahead of the head. -/
class Evaluation (Block : Type) (Id Rest : outParam Type) [BlockId Id] where
  evaluate : ChainState Id Rest → Block → Option (ℕ × Rest)
  lib_le : ∀ c b r, c.lib ≤ BlockId.num c.headId → evaluate c b = some r →
    r.1 ≤ BlockId.num c.headId + 1

export Evaluation (evaluate)

variable {Block Id Rest : Type} [BlockId Id] [BlockHeader Block Id] [DecidableEq Id]
  [Evaluation Block Id Rest]

namespace ChainState

def headNum (c : ChainState Id Rest) : ℕ := num c.headId

/-- The content after the block, when its checks pass. -/
def apply (c : ChainState Id Rest) (b : Block) : Option (ChainState Id Rest) :=
  if previous b = c.headId then
    (evaluate c b).map fun r ↦ ⟨BlockHeader.id b, r.1, r.2⟩
  else none

end ChainState

/-- A session keeps its revision, which is the number of the block it was opened for, and the
content at its opening. The most recent session stands first. -/
structure Node (Block Id Rest : Type) where
  fork : ForkDatabase Block
  chain : ChainState Id Rest
  undo : List (ℕ × ChainState Id Rest)
  log : List Block
  deriving DecidableEq

namespace Node

abbrev Call (Block Id Rest : Type) := EStateM String (Node Block Id Rest)

def startUndoSession (s : Node Block Id Rest) : Node Block Id Rest :=
  { s with undo := (s.chain.headNum + 1, s.chain) :: s.undo }

/-- `undo` of the database; without a session it does nothing. -/
def undone (s : Node Block Id Rest) : Node Block Id Rest :=
  match s.undo with
  | [] => s
  | (_, c) :: undo => { s with chain := c, undo := undo }

/-- The sessions up to the revision are dropped from the old end of the stack. -/
def committed (s : Node Block Id Rest) (revision : ℕ) : Node Block Id Rest :=
  { s with undo := s.undo.rdropWhile fun session ↦ session.1 ≤ revision }

/-- The blocks numbered from `n` on that `migrate_irreversible_state` writes. -/
def blocksToWrite (fork : ForkDatabase Block) (pinned : List ℕ) : ℕ → ℕ → Option (List Block)
  | _, 0 => some []
  | n, k + 1 =>
    match fork.fetchBlockOnMainBranchByNumber pinned n with
    | none => none
    | some it => (blocksToWrite fork pinned (n + 1) k).map (it.block :: ·)

def migrateIrreversibleState (pinned : List ℕ) : Call Block Id Rest PUnit := fun s ↦
  if ∃ h ∈ s.fork.head, h.num ≠ s.chain.headNum then
    .error "Fork Head: Chain Head:" s
  else
    match blocksToWrite s.fork pinned (s.log.length + 1) (s.chain.lib - s.log.length) with
    | none =>
      .error "Current fork in the fork database does not contain the last_irreversible_block" s
    | some blocks =>
      .ok ⟨⟩ (committed
        { s with
          log := s.log ++ blocks
          fork := s.fork.setMaxSize (s.chain.headNum - s.chain.lib + 1) } s.chain.lib)

def applyBlock (pinned : List ℕ) (b : Block) : Call Block Id Rest PUnit := fun s ↦
  match s.chain.apply b with
  | none => .error "block does not apply" s
  | some c => migrateIrreversibleState pinned { s with chain := c }

/-- `apply_block` under an undo session that is kept when the block applies. -/
def applyInSession (pinned : List ℕ) (b : Block) : Call Block Id Rest PUnit := fun s ↦
  match (applyBlock pinned b).run s.startUndoSession with
  | .ok _ s' => .ok ⟨⟩ s'
  | .error e s' => .error e s'.undone

def fetchBlockById (s : Node Block Id Rest) (i : Id) : Option Block :=
  match s.fork.fetchBlock i with
  | some it => some it.block
  | none =>
    match num i with
    | 0 => none
    | n + 1 => (s.log[n]?).filter fun b ↦ BlockHeader.id b = i

def popBlock (pinned : List ℕ) : Call Block Id Rest PUnit := fun s ↦
  match s.fetchBlockById s.chain.headId with
  | none => .error "there are no blocks to pop" s
  | some _ =>
    match s.fork.popBlock pinned with
    | .error e => .error e s
    | .ok fork => .ok ⟨⟩ (undone { s with fork := fork })

/-- The loop that pops blocks until the head is `target`. Every round moves the fork head one
link down its path or throws, so the path bounds the rounds. -/
def popUntil (pinned : List ℕ) (target : Id) : List (Link Block) → Call Block Id Rest PUnit
  | [] => fun s ↦ if s.chain.headId = target then .ok ⟨⟩ s else (popBlock pinned).run s
  | _ :: path => fun s ↦
    if s.chain.headId = target then .ok ⟨⟩ s
    else
      match (popBlock pinned).run s with
      | .error e s' => .error e s'
      | .ok _ s' => popUntil pinned target path s'

def popTo (pinned : List ℕ) (target : Id) : Call Block Id Rest PUnit := fun s ↦
  popUntil pinned target ((s.fork.head.map ForkItem.path).getD []) s

/-- The loop over the new branch: the error and the items from the failing one on, if any. -/
def pushItems (pinned : List ℕ) : List (ForkItem Block) →
    Node Block Id Rest → Node Block Id Rest × Option (String × List (ForkItem Block))
  | [], s => (s, none)
  | it :: items, s =>
    match (applyInSession pinned it.block).run { s with fork := s.fork.setHead it } with
    | .ok _ s' => pushItems pinned items s'
    | .error e s' => (s', some (e, it :: items))

/-- The loop that restores the good fork; an exception in it is not caught. -/
def restoreItems (pinned : List ℕ) : List (ForkItem Block) → Call Block Id Rest PUnit
  | [] => fun s ↦ .ok ⟨⟩ s
  | it :: items => fun s ↦
    match (applyInSession pinned it.block).run { s with fork := s.fork.setHead it } with
    | .ok _ s' => restoreItems pinned items s'
    | .error e s' => .error e s'

def removeItems (fork : ForkDatabase Block) (items : List (ForkItem Block)) : ForkDatabase Block :=
  items.foldl (fun db it ↦ db.remove it.id) fork

/-- The fork switch of `_push_block`. The items of both branches are held by local variables
throughout. The callers never pass an empty branch. -/
def switchFork (newHead : ForkItem Block) : Call Block Id Rest Bool := fun s ↦
  match s.fork.fetchBranchFrom newHead.id s.chain.headId with
  | .error e => .error e s
  | .ok (first, second) =>
    match second.getLast? with
    | none => .error "empty branch" s
    | some last =>
      let pinned := newHead.ref :: (first ++ second).map ForkItem.ref
      let target := previous last.block
      match (popTo pinned target).run s with
      | .error e s => .error e s
      | .ok _ s =>
        match pushItems pinned first.reverse s with
        | (s, none) => .ok true s
        | (s, some (e, bad)) =>
          match (popTo pinned target).run { s with fork := removeItems s.fork bad } with
          | .error e s => .error e s
          | .ok _ s =>
            match (restoreItems pinned second.reverse).run s with
            | .error e s => .error e s
            | .ok _ s => .error e s

/-- `database::_push_block`; the answer tells whether the node switched forks. -/
def pushBlock (b : Block) : Call Block Id Rest Bool := fun s ↦
  match s.fork.pushBlock b with
  | .error e => .error e s
  | .ok (newHead, fork) =>
    let s := { s with fork := fork }
    if previous newHead.block ≠ s.chain.headId then
      if s.chain.headNum < newHead.num then (switchFork newHead).run s
      else .ok false s
    else
      match (applyInSession [newHead.ref] b).run s with
      | .ok _ s => .ok false s
      | .error e s => .error e { s with fork := s.fork.remove (BlockHeader.id b) }

end Node

end Taiyi.Chain
