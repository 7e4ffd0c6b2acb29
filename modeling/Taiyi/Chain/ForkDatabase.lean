import Mathlib.Data.Nat.Notation
import Mathlib.Logic.Function.Defs

set_option autoImplicit false

namespace Taiyi.Chain

/-- An id carries the number of its block; `zero` is the id before the first block. -/
class BlockId (Id : Type) where
  num : Id → ℕ
  zero : Id
  num_zero : num zero = 0

/-- What a signed block shows of itself: its id, taken from a hash without collisions, and the
id of the block it builds on. -/
class BlockHeader (Block : Type) (Id : outParam Type) [BlockId Id] where
  id : Block → Id
  previous : Block → Id
  num_id : ∀ b, BlockId.num (id b) = BlockId.num (previous b) + 1
  id_injective : Function.Injective id

export BlockId (num zero)
export BlockHeader (id previous)

variable {Block Id : Type}

/-- A fork item as an object of its own: two items with one block are told apart by `ref`. -/
structure Link (Block : Type) where
  ref : ℕ
  block : Block
  deriving DecidableEq

/-- Items never change once inserted, so the objects that the `prev` pointers run through
are kept with the item, the nearest first. -/
structure ForkItem (Block : Type) where
  self : Link Block
  trail : List (Link Block)
  deriving DecidableEq

namespace ForkItem

def ref (it : ForkItem Block) : ℕ := it.self.ref

def block (it : ForkItem Block) : Block := it.self.block

/-- The item and everything below it. -/
def path (it : ForkItem Block) : List (Link Block) := it.self :: it.trail

variable [BlockId Id] [BlockHeader Block Id]

def id (it : ForkItem Block) : Id := BlockHeader.id it.block

def num (it : ForkItem Block) : ℕ := BlockId.num it.id

end ForkItem

/-- `nextRef` numbers the items in the order of their allocation. -/
structure ForkDatabase (Block : Type) where
  index : List (ForkItem Block)
  head : Option (ForkItem Block)
  maxSize : ℕ
  nextRef : ℕ
  deriving DecidableEq

namespace ForkDatabase

/-- An item lives while the index, the head or a local variable holds it. -/
def alive (db : ForkDatabase Block) (pinned : List ℕ) (ref : ℕ) : Bool :=
  ref ∈ pinned ∨ ref ∈ db.head.toList.map ForkItem.ref ∨ ref ∈ db.index.map ForkItem.ref

variable [BlockId Id] [BlockHeader Block Id] [DecidableEq Id]

def fetchBlock (db : ForkDatabase Block) (i : Id) : Option (ForkItem Block) :=
  db.index.find? fun it ↦ it.id = i

def startBlock (db : ForkDatabase Block) (b : Block) : ForkDatabase Block :=
  let item : ForkItem Block := ⟨⟨db.nextRef, b⟩, []⟩
  { db with
    index := if (db.fetchBlock item.id).isSome then db.index else db.index ++ [item]
    head := some item
    nextRef := db.nextRef + 1 }

/-- The parent the new item links to; a block without `previous`, or the first one, links to
nothing. The flag `invalid` of the parent is never set by the program. -/
def linkTo (db : ForkDatabase Block) (b : Block) : Except String (List (Link Block)) :=
  if db.head.isSome ∧ previous b ≠ zero then
    match db.fetchBlock (previous b) with
    | none => .error "block does not link to known chain"
    | some parent => .ok parent.path
  else .ok []

def pushBlock (db : ForkDatabase Block) (b : Block) :
    Except String (ForkItem Block × ForkDatabase Block) :=
  if ∃ h ∈ db.head, num (id b) ≤ h.num - db.maxSize then
    .error "attempting to push a block that is too old"
  else
    match db.linkTo b with
    | .error e => .error e
    | .ok trail =>
      let item : ForkItem Block := ⟨⟨db.nextRef, b⟩, trail⟩
      let head := match db.head with
        | none => item
        | some h => if h.num < item.num then item else h
      .ok (head,
        { db with
          index := if (db.fetchBlock item.id).isSome then db.index else db.index ++ [item]
          head := some head
          nextRef := db.nextRef + 1 })

def popBlock (db : ForkDatabase Block) (pinned : List ℕ) :
    Except String (ForkDatabase Block) :=
  match db.head with
  | none => .error "cannot pop an empty fork database"
  | some h =>
    match h.trail with
    | [] => .error "popping head block would leave fork DB empty"
    | l :: trail =>
      if db.alive pinned l.ref then .ok { db with head := some ⟨l, trail⟩ }
      else .error "popping head block would leave fork DB empty"

def setMaxSize (db : ForkDatabase Block) (s : ℕ) : ForkDatabase Block :=
  match db.head with
  | none => { db with maxSize := s }
  | some h => { db with maxSize := s, index := db.index.filter fun it ↦ h.num - s ≤ it.num }

def setHead (db : ForkDatabase Block) (h : ForkItem Block) : ForkDatabase Block :=
  { db with head := some h }

def remove (db : ForkDatabase Block) (i : Id) : ForkDatabase Block :=
  { db with index := db.index.filter fun it ↦ it.id ≠ i }

def fetchBlockByNumber (db : ForkDatabase Block) (n : ℕ) : List (ForkItem Block) :=
  db.index.filter fun it ↦ it.num = n

/-- Down the `prev` pointers to the first item whose number is at most `n`. -/
def walkFrom (live : ℕ → Bool) (n : ℕ) : Link Block → List (Link Block) → Option (ForkItem Block)
  | l, [] => if n < num (id l.block) then none else some ⟨l, []⟩
  | l, l' :: trail =>
    if n < num (id l.block) then
      if live l'.ref then walkFrom live n l' trail else none
    else some ⟨l, l' :: trail⟩

def walkMainBranchToNum (db : ForkDatabase Block) (pinned : List ℕ) (n : ℕ) :
    Option (ForkItem Block) :=
  match db.head with
  | none => none
  | some h => if h.num < n then none else walkFrom (db.alive pinned) n h.self h.trail

def fetchBlockOnMainBranchByNumber (db : ForkDatabase Block) (pinned : List ℕ) (n : ℕ) :
    Option (ForkItem Block) :=
  match db.fetchBlockByNumber n with
  | [] => none
  | [it] => some it
  | _ => db.walkMainBranchToNum pinned n

/-- The first two loops of `fetch_branch_from`: the items above height `n`, and the one there. -/
def climbTo (live : ℕ → Bool) (n : ℕ) :
    Link Block → List (Link Block) → Except String (List (ForkItem Block) × ForkItem Block)
  | l, [] => if n < num (id l.block) then .error "first_branch" else .ok ([], ⟨l, []⟩)
  | l, l' :: trail =>
    if n < num (id l.block) then
      if live l'.ref then
        match climbTo live n l' trail with
        | .error e => .error e
        | .ok (branch, it) => .ok (⟨l, l' :: trail⟩ :: branch, it)
      else .error "first_branch"
    else .ok ([], ⟨l, l' :: trail⟩)

/-- The last loop of `fetch_branch_from`: down both branches to a common `previous`. -/
def climbBoth (live : ℕ → Bool) : Link Block → List (Link Block) → Link Block →
    List (Link Block) → Except String (List (ForkItem Block) × List (ForkItem Block))
  | l, trail, m, trail' =>
    if previous l.block = previous m.block then .ok ([⟨l, trail⟩], [⟨m, trail'⟩])
    else
      match trail, trail' with
      | l' :: rest, m' :: rest' =>
        if live l'.ref then
          if live m'.ref then
            match climbBoth live l' rest m' rest' with
            | .error e => .error e
            | .ok (first, second) => .ok (⟨l, l' :: rest⟩ :: first, ⟨m, m' :: rest'⟩ :: second)
          else .error "second_branch"
        else .error "first_branch"
      | [], _ => .error "first_branch"
      | l' :: _, [] => .error (if live l'.ref then "second_branch" else "first_branch")

def fetchBranchFrom (db : ForkDatabase Block) (first second : Id) :
    Except String (List (ForkItem Block) × List (ForkItem Block)) :=
  match db.fetchBlock first, db.fetchBlock second with
  | some f, some s =>
    match climbTo (db.alive []) s.num f.self f.trail with
    | .error e => .error e
    | .ok (above, f') =>
      match climbTo (db.alive []) f'.num s.self s.trail with
      | .error e => .error e
      | .ok (above', s') =>
        match climbBoth (db.alive []) f'.self f'.trail s'.self s'.trail with
        | .error e => .error e
        | .ok (both, both') => .ok (above ++ both, above' ++ both')
  | none, _ => .error "first_branch_itr"
  | _, none => .error "second_branch_itr"

end ForkDatabase

end Taiyi.Chain
