import Taiyi.Library.Trailed

set_option autoImplicit false

namespace Taiyi.BlockLog

open Library

/-- What the packed blocks are to the log: how they are written, and their numbers. -/
structure Blocks (Block : Type) extends Codec Block where
  blockNum : Block → UInt32

/-- What is thrown: an operation of a stream that sets its failbit, or an assertion. -/
inductive Failure
  | stream
  | assertion (message : String)
  deriving DecidableEq

variable {Block : Type}

/-- The two files, and the head that the object keeps. -/
structure Log (Block : Type) where
  head : Option Block := none
  blockFile : Bytes := []
  indexFile : Bytes := []

/-- The greatest offset that a file has. -/
def maxOffset : ℕ := 2 ^ 63 - 1

/-- `seekg( -sizeof( uint64_t), std::ios::end )`, and a word. -/
def readLastWord (file : Bytes) : Except Failure ℕ :=
  if file.length < 8 then .error .stream else .ok (ofWord (file.drop (file.length - 8)))

/-- A word at the front of what is left of a stream. -/
def readWord (bs : Bytes) : Except Failure (Bytes × Bytes) :=
  if bs.length < 8 then .error .stream else .ok (bs.take 8, bs.drop 8)

variable (c : Blocks Block)

/-- A block, and the place of the next one. -/
def readBlockHelper (file : Bytes) (pos : ℕ) : Except Failure (Block × ℕ) :=
  match c.unpack (file.drop pos) with
  | none => .error .stream
  | some (b, rest) => .ok (b, file.length - rest.length + 8)

def readHead (file : Bytes) : Except Failure Block := do
  let pos ← readLastWord file
  return (← readBlockHelper c file pos).1

/-- The loop of `construct_index`. -/
def constructLoop (endPos : ℕ) (bs : Bytes) (pos : ℕ) (out : Bytes) : Except Failure Bytes :=
  if pos < endPos then
    match _h : c.unpack bs with
    | none => .error .stream
    | some (_, rest) =>
      if _hlen : rest.length < 8 then .error .stream
      else constructLoop endPos (rest.drop 8) (ofWord (rest.take 8)) (out ++ rest.take 8)
  else .ok out
termination_by bs.length
decreasing_by
  have := c.consumes _ _ _ _h
  rw [List.length_drop]
  omega

def constructIndex (file : Bytes) : Except Failure Bytes := do
  let endPos ← readLastWord file
  constructLoop c endPos file 0 []

/-- `block_log::open` of the two files. -/
def openLog (blockFile indexFile : Bytes) : Except Failure (Log Block) :=
  if blockFile.length ≠ 0 then do
    let head ← readHead c blockFile
    if indexFile.length ≠ 0 then
      let blockPos ← readLastWord blockFile
      let indexPos ← readLastWord indexFile
      if blockPos < indexPos then return ⟨some head, blockFile, ← constructIndex c blockFile⟩
      else if blockPos > indexPos then return ⟨some head, blockFile, ← constructIndex c blockFile⟩
      else return ⟨some head, blockFile, indexFile⟩
    else return ⟨some head, blockFile, ← constructIndex c blockFile⟩
  else .ok ⟨none, [], []⟩

namespace Log

variable (log : Log Block)

def append (b : Block) : Except Failure (Log Block) :=
  let pos := log.blockFile.length
  if log.indexFile.length ≠ 8 * (c.blockNum b - 1).toNat then
    .error (.assertion "Append to index file occuring at wrong position.")
  else if maxOffset < pos + (c.record pos b).length then .error .stream
  else .ok ⟨some b, log.blockFile ++ c.record pos b, log.indexFile ++ word 8 pos⟩

def appendAll (blocks : List Block) : Except Failure (Log Block) :=
  blocks.foldlM (fun log b ↦ log.append c b) log

def npos : ℕ := 2 ^ 64 - 1

def getBlockPos (blockNum : UInt32) : Except Failure ℕ :=
  match log.head with
  | none => .ok npos
  | some head =>
    if ¬(blockNum ≤ c.blockNum head ∧ 0 < blockNum) then .ok npos
    else (readWord (log.indexFile.drop (8 * (blockNum - 1).toNat))).map fun r ↦ ofWord r.1

def readBlockByNum (blockNum : UInt32) : Except Failure (Option Block) := do
  let pos ← log.getBlockPos c blockNum
  if pos ≠ npos then
    let (b, _) ← readBlockHelper c log.blockFile pos
    if c.blockNum b ≠ blockNum then .error (.assertion "Wrong block was read from block log.")
    else return some b
  else return none

end Log

end Taiyi.BlockLog
