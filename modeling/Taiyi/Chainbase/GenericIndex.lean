import Mathlib.Data.Int.Notation
import Taiyi.Library.MultiIndex

set_option autoImplicit false

namespace Taiyi.Chainbase

open Taiyi.Library.IdMap Taiyi.Library.MultiIndex

variable {V K : Type}

/-- What one open session has recorded about the objects it touched. -/
structure UndoState (V : Type) where
  oldValues : Table V
  removedValues : Table V
  newIds : IdSet
  oldNextId : ℕ
  revision : ℤ

/-- The stack lists the open sessions with the most recent one (the deque's back) first. -/
structure GenericIndex (keys : List (ℕ → V → K)) where
  stack : List (UndoState V)
  revision : ℤ
  nextId : ℕ
  indices : Container keys

/-- A call leaves the index in some state whether it returns or throws `std::logic_error`. -/
abbrev GenericIndex.Call (keys : List (ℕ → V → K)) := EStateM String (GenericIndex keys)

def couldNotInsert : String :=
  "could not insert object, most likely a uniqueness constraint was violated"

def couldNotModify : String :=
  "Could not modify object, most likely a uniqueness constraint was violated"

def couldNotRestore : String :=
  "Could not restore object, most likely a uniqueness constraint was violated"

def UndoState.onModify (head : UndoState V) (id : ℕ) (v : V) : UndoState V :=
  if id ∈ head.newIds then head
  else if id ∈ head.oldValues then head
  else { head with oldValues := head.oldValues.insert id v }

def UndoState.onRemove (head : UndoState V) (id : ℕ) (v : V) : UndoState V :=
  if id ∈ head.newIds then { head with newIds := head.newIds.erase id }
  else
    match head.oldValues[id]? with
    | some old =>
      { head with
        removedValues := head.removedValues.insertIfNew id old
        oldValues := head.oldValues.erase id }
    | none =>
      if id ∈ head.removedValues then head
      else { head with removedValues := head.removedValues.insert id v }

def UndoState.onCreate (head : UndoState V) (id : ℕ) : UndoState V :=
  { head with newIds := head.newIds.insert id }

/-- The hooks only record while some session is open. -/
def UndoState.onHead (f : UndoState V → UndoState V) : List (UndoState V) → List (UndoState V)
  | [] => []
  | head :: rest => f head :: rest

def GenericIndex.record {keys : List (ℕ → V → K)} (g : GenericIndex keys)
    (f : UndoState V → UndoState V) : GenericIndex keys :=
  { g with stack := UndoState.onHead f g.stack }

namespace GenericIndex

variable [DecidableEq K] {keys : List (ℕ → V → K)}

/-- The constructor receives the object with its id already assigned. -/
def emplace (c : ℕ → V) : Call keys PUnit := fun g ↦
  match g.indices.emplace g.nextId (c g.nextId) with
  | none => .error couldNotInsert g
  | some indices =>
    .ok ⟨⟩ (record { g with nextId := g.nextId + 1, indices := indices }
      fun head ↦ head.onCreate g.nextId)

/-- A dangling reference is no call of the program: it throws here without any effect. -/
def dangling : String := "dangling reference"

def modify (id : ℕ) (m : V → V) : Call keys PUnit := fun g ↦
  match g.indices.rows[id]? with
  | none => .error dangling g
  | some v =>
    let recorded := g.record fun head ↦ head.onModify id v
    match g.indices.modify id (m v) with
    | (true, indices) => .ok ⟨⟩ { recorded with indices := indices }
    | (false, indices) => .error couldNotModify { recorded with indices := indices }

def remove (id : ℕ) : Call keys PUnit := fun g ↦
  match g.indices.rows[id]? with
  | none => .error dangling g
  | some v =>
    .ok ⟨⟩ { g.record (fun head ↦ head.onRemove id v) with indices := g.indices.erase id }

def startUndoSession (g : GenericIndex keys) : GenericIndex keys :=
  { g with
    revision := g.revision + 1
    stack := ⟨∅, ∅, ∅, g.nextId, g.revision + 1⟩ :: g.stack }

/-- The first loop of `undo`, over the recorded old values in ascending id order. -/
def restoreOld : List (ℕ × V) → Container keys → Except (Container keys) (Container keys)
  | [], indices => .ok indices
  | (id, v) :: items, indices =>
    if id ∈ indices.rows then
      match indices.modify id v with
      | (true, indices') => restoreOld items indices'
      | (false, indices') => .error indices'
    else
      match indices.emplace id v with
      | some indices' => restoreOld items indices'
      | none => .error indices

/-- The last loop of `undo`, over the removed values in ascending id order. -/
def restoreRemoved : List (ℕ × V) → Container keys → Except (Container keys) (Container keys)
  | [], indices => .ok indices
  | (id, v) :: items, indices =>
    match indices.emplace id v with
    | some indices' => restoreRemoved items indices'
    | none => .error indices

def eraseNew (ids : IdSet) (indices : Container keys) : Container keys :=
  ids.foldl (fun c id ↦ c.erase id) indices

def undo : Call keys PUnit := fun g ↦
  match g.stack with
  | [] => .ok ⟨⟩ g
  | head :: rest =>
    match restoreOld head.oldValues.toList g.indices with
    | .error indices => .error couldNotModify { g with indices := indices }
    | .ok restored =>
      let pruned := eraseNew head.newIds restored
      match restoreRemoved head.removedValues.toList pruned with
      | .error indices =>
        .error couldNotRestore { g with nextId := head.oldNextId, indices := indices }
      | .ok indices => .ok ⟨⟩ ⟨rest, g.revision - 1, head.oldNextId, indices⟩

def mergeOld (prev : UndoState V) (id : ℕ) (v : V) : UndoState V :=
  if id ∈ prev.newIds then prev
  else if id ∈ prev.oldValues then prev
  else { prev with oldValues := prev.oldValues.insertIfNew id v }

def mergeNew (prev : UndoState V) (id : ℕ) : UndoState V :=
  { prev with newIds := prev.newIds.insert id }

def mergeRemoved (prev : UndoState V) (id : ℕ) (v : V) : UndoState V :=
  if id ∈ prev.newIds then { prev with newIds := prev.newIds.erase id }
  else
    match prev.oldValues[id]? with
    | some old =>
      { prev with
        removedValues := prev.removedValues.insertIfNew id old
        oldValues := prev.oldValues.erase id }
    | none => { prev with removedValues := prev.removedValues.insertIfNew id v }

/-- The three loops of `squash` over the containers of the most recent session. -/
def merge (prev state : UndoState V) : UndoState V :=
  state.removedValues.foldl mergeRemoved
    (state.newIds.foldl mergeNew (state.oldValues.foldl mergeOld prev))

def squash (g : GenericIndex keys) : GenericIndex keys :=
  match g.stack with
  | [] => g
  | [_] => { g with stack := [] }
  | state :: prev :: rest =>
    { g with stack := merge prev state :: rest, revision := g.revision - 1 }

/-- The calls a session can receive, with their arguments. -/
inductive Operation (V : Type)
  | create (c : ℕ → V)
  | modify (id : ℕ) (m : V → V)
  | remove (id : ℕ)

def Operation.call : Operation V → Call keys PUnit
  | .create c => emplace c
  | .modify id m => GenericIndex.modify id m
  | .remove id => GenericIndex.remove id

def run (ops : List (Operation V)) : Call keys PUnit :=
  forM ops Operation.call

end GenericIndex

end Taiyi.Chainbase
