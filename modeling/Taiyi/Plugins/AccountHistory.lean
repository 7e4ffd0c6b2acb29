import Taiyi.Chain.Notices

set_option autoImplicit false

namespace Taiyi.Plugins

open Chain

/-- What `on_post_apply_operation` stores of an operation. -/
structure Operation (Op : Type) where
  block : ℕ
  op : Op
  deriving DecidableEq

/-- The external store: the imported operations in order, the last irreversible block stored
with them, and the one in the write buffer. Outside of a reindex the buffer is written out with
every operation. -/
structure Store (Op : Type) where
  imported : List (Operation Op)
  lib : ℕ
  buffered : Option ℕ
  deriving DecidableEq

section Store

variable {Op : Type}

def Store.importOperation (store : Store Op) (o : Operation Op) : Store Op where
  imported := store.imported ++ [o]
  lib := store.buffered.getD store.lib
  buffered := none

def Store.updateLib (store : Store Op) (n : ℕ) : Store Op := { store with buffered := some n }

/-- `on_irreversible_block` on the volatile operations in the order of `by_block`. -/
def onIrreversibleBlock (h : List (Operation Op) × Store Op) (n : ℕ) :
    List (Operation Op) × Store Op :=
  if n ≤ h.2.lib then h
  else
    (h.1.dropWhile (·.block ≤ n),
      ((h.1.takeWhile (·.block ≤ n)).foldl Store.importOperation h.2).updateLib n)

def onNotices (volatile : List (Operation Op)) (store : Store Op) (notices : List ℕ) :
    List (Operation Op) × Store Op :=
  notices.foldl onIrreversibleBlock (volatile, store)

end Store

/-- `isTrackedOperation`, for an operation that also impacts an account. -/
class Filter (Op : Type) where
  isTracked : Op → Bool

/-- The operations that a block applies before the update of the last irreversible block and
after it. -/
class Operations (Block : Type) (Id Name Other Op : outParam Type) where
  early : ChainState Id (Confirmations Name Other) → Block → List Op
  later : ChainState Id (Confirmations Name Other) → Block → List Op

/-- `on_post_apply_operation` for operations of the block numbered `n`. -/
def recordsOf {Op : Type} [Filter Op] (n : ℕ) (ops : List Op) : List (Operation Op) :=
  (ops.filter Filter.isTracked).map (⟨n, ·⟩)

/-- The content with its volatile operations; `recorded` are all tracked operations of its chain
in order. -/
structure Content (Id Name Other Op : Type) where
  chain : ChainState Id (Confirmations Name Other)
  volatile : List (Operation Op)
  recorded : List (Operation Op)

/-- An undo session: the content before the block and the volatile operations it removed. -/
structure Frame (Id Name Other Op : Type) extends Content Id Name Other Op where
  removed : List (Operation Op)

/-- A node with the plugin. -/
structure Tracking (Id Name Other Op : Type) extends Content Id Name Other Op where
  undo : List (Frame Id Name Other Op)
  store : Store Op

/-- A block is applied, fails after the update of the last irreversible block, or is popped. -/
inductive Step (Block : Type) where
  | apply (b : Block)
  | fail (b : Block)
  | pop

section Run

variable {Block Id Name Other Op : Type} [BlockId Id] [BlockHeader Block Id] [DecidableEq Id]
  [DecidableEq Name] [Processing Block Id Name Other] [Operations Block Id Name Other Op]
  [Filter Op]

/-- The last irreversible block that a block names, whether the rest of it applies or not. -/
def named (c : ChainState Id (Confirmations Name Other)) (b : Block) : Option ℕ :=
  if previous b = c.headId ∧ c.rest.headBlockNumber = num c.headId ∧
      (c.rest.lastConfirmed (Processing.siming b)).isSome then
    (Processing.before c b).bind fun registered ↦
      ((c.rest.register registered.1 registered.2).advance
        (Processing.siming b)).updateLastIrreversibleBlock c.lib
  else none

namespace Tracking

def start (base : ChainState Id (Confirmations Name Other)) : Tracking Id Name Other Op :=
  ⟨⟨base, [], []⟩, [], ⟨[], 0, none⟩⟩

/-- The tracked operations of a block before the update of the last irreversible block. -/
def early (s : Tracking Id Name Other Op) (b : Block) : List (Operation Op) :=
  recordsOf (num (BlockHeader.id b)) (Operations.early s.chain b)

def later (s : Tracking Id Name Other Op) (b : Block) : List (Operation Op) :=
  recordsOf (num (BlockHeader.id b)) (Operations.later s.chain b)

/-- The volatile operations and the store after the notices of a block that names `lib`. -/
def notified (s : Tracking Id Name Other Op) (b : Block) (lib : ℕ) :
    List (Operation Op) × Store Op :=
  onNotices (s.volatile ++ s.early b) s.store (notices s.chain.lib lib)

/-- The sessions of blocks up to the last irreversible one are committed. -/
def apply (s : Tracking Id Name Other Op) (b : Block) : Option (Tracking Id Name Other Op) :=
  (s.chain.apply b).map fun c ↦
    let h := s.notified b c.lib
    { chain := c, volatile := h.1 ++ s.later b
      recorded := s.recorded ++ (s.early b ++ s.later b)
      undo := (⟨s.toContent, h.2.imported.drop s.store.imported.length⟩ :: s.undo).takeWhile
        fun f ↦ c.lib ≤ f.chain.headNum
      store := h.2 }

/-- Undoing the block restores its session; the store is not undone. -/
def fail (s : Tracking Id Name Other Op) (b : Block) : Option (Tracking Id Name Other Op) :=
  (named s.chain b).map fun lib ↦ { s with store := (s.notified b lib).2 }

def pop (s : Tracking Id Name Other Op) : Option (Tracking Id Name Other Op) :=
  match s.undo with
  | [] => none
  | f :: undo => some { toContent := f.toContent, undo := undo, store := s.store }

def step (s : Tracking Id Name Other Op) : Step Block → Option (Tracking Id Name Other Op)
  | .apply b => s.apply b
  | .fail b => s.fail b
  | .pop => s.pop

/-- No block is undone that imported operations: a block that is popped removed no volatile
operation, and a block that fails does not raise the last irreversible block and finds none to
remove. -/
def Clean (s : Tracking Id Name Other Op) : Step Block → Prop
  | .apply _ => True
  | .fail b => ∀ lib ∈ named s.chain b,
      lib = s.chain.lib ∧ ∀ o ∈ s.volatile ++ s.early b, lib < o.block
  | .pop => ∀ f ∈ s.undo.head?, f.removed = []

/-- The imported operations are the first of the chain, each once and in order, and the others
are of blocks that are not irreversible or of the head block, which is still to be finished. -/
def Imported (s : Tracking Id Name Other Op) : Prop :=
  ∃ rest, s.recorded = s.store.imported ++ rest ∧
    ∀ o ∈ rest, s.chain.lib < o.block ∨ o.block = s.chain.headNum

end Tracking

/-- What is reached by steps that all meet `P`. -/
inductive Reaches (P : Tracking Id Name Other Op → Step Block → Prop)
    (s : Tracking Id Name Other Op) : Tracking Id Name Other Op → Prop
  | start : Reaches P s s
  | step {t u : Tracking Id Name Other Op} {e : Step Block} (h : Reaches P s t) (hp : P t e)
      (hs : t.step e = some u) : Reaches P s u

end Run

end Taiyi.Plugins
