import Mathlib.Algebra.Group.Nat.Defs
import Mathlib.Data.Nat.Pairing
import Taiyi.Library.PairTree

set_option autoImplicit false

namespace Taiyi.Protocol

open Library.PairTree

/-- The hash functions of a merkle root: `merkle_digest`, the two `hash` functions, and the
`checksum_type` of a block without transactions. -/
structure Hashes (Transaction Digest Checksum : Type) where
  merkleDigest : Transaction → Digest
  hashPair : Digest × Digest → Digest
  hashDigest : Digest → Checksum
  checksumType : Checksum

namespace Hashes

variable {Transaction Digest Checksum : Type} (h : Hashes Transaction Digest Checksum)

/-- `ids[k++] = digest_type::hash(std::make_pair(ids[i], ids[i + 1]))`. -/
def hashInto (r : List Digest × ℕ) (i : ℕ) : Option (List Digest × ℕ) := do
  let a ← r.1[i]?
  let b ← r.1[i + 1]?
  pure (r.1.set r.2 (h.hashPair (a, b)), r.2 + 1)

/-- One turn of the loop over the levels, with the number of hashes that are left. -/
def hashLevel (ids : List Digest) (currentNumberOfHashes : ℕ) : Option (List Digest × ℕ) := do
  let iMax := currentNumberOfHashes - currentNumberOfHashes % 2
  let (ids, k) ← (List.range' 0 (iMax / 2) 2).foldlM h.hashInto (ids, 0)
  if currentNumberOfHashes % 2 = 1 then
    let last ← ids[iMax]?
    pure (ids.set k last, k + 1)
  else pure (ids, k)

/-- The loop, at most so many times. -/
def hashLevels : ℕ → List Digest → ℕ → Option (List Digest)
  | turns, ids, currentNumberOfHashes =>
    if 1 < currentNumberOfHashes then
      match turns with
      | 0 => none
      | turns + 1 => do
        let (ids, k) ← h.hashLevel ids currentNumberOfHashes
        hashLevels turns ids k
    else pure ids

/-- The digest that is hashed last. -/
def topDigest (transactions : List Transaction) : Option Digest := do
  let ids := transactions.map h.merkleDigest
  let ids ← h.hashLevels ids.length ids ids.length
  ids[0]?

/-- `calculate_merkle_root`. A read behind the end of `ids` has no result. -/
def calculateMerkleRoot (transactions : List Transaction) : Option Checksum :=
  if transactions.length = 0 then some h.checksumType
  else (h.topDigest transactions).map h.hashDigest

section Levels

variable {ids ids' rest : List Digest} {i k n : ℕ}

/-- The digest of a pair as a function of two digests. -/
def node (a b : Digest) : Digest := h.hashPair (a, b)

/-- An entry is written behind the first `k`. -/
theorem take_set_self {a : Digest} (hk : k < ids.length) :
    (ids.set k a).take (k + 1) = ids.take k ++ [a] := by
  rw [List.take_add_one, List.take_set_of_le (Nat.le_refl k), List.getElem?_set_self hk]
  rfl

/-- The pairs are written into places that have been read, and so each pair is read as it was. -/
theorem foldlM_hashInto (hle : k ≤ i) (hrest : ids.drop i = rest) (hn : 2 * n ≤ rest.length) :
    ∃ ids', (List.range' i n 2).foldlM h.hashInto (ids, k) = some (ids', k + n) ∧
      ids'.take (k + n) = ids.take k ++ pairUp h.node (rest.take (2 * n)) ∧
      ids'.drop (i + 2 * n) = rest.drop (2 * n) := by
  induction n generalizing ids i k rest with
  | zero => exact ⟨ids, rfl, by simp [pairUp], by simpa using hrest⟩
  | succ n ih =>
    rcases rest with _ | ⟨a, _ | ⟨b, rest⟩⟩
    · simp at hn
    · simp only [List.length_cons, List.length_nil] at hn
      omega
    · have hi : ids[i]? = some a := by
        rw [← Nat.add_zero i, ← List.getElem?_drop, hrest]
        rfl
      have hi' : ids[i + 1]? = some b := by
        rw [← List.getElem?_drop, hrest]
        rfl
      have hk : k < ids.length := Nat.lt_of_le_of_lt hle (List.getElem?_eq_some_iff.mp hi).1
      have hstep : h.hashInto (ids, k) i = some (ids.set k (h.node a b), k + 1) := by
        simp only [hashInto, hi, hi']
        rfl
      have hdrop : (ids.set k (h.node a b)).drop (i + 2) = rest := by
        rw [List.drop_set_of_lt (by omega), ← List.drop_drop, hrest]
        rfl
      have hlen : 2 * n ≤ rest.length := by
        simp only [List.length_cons] at hn
        omega
      obtain ⟨ids', hrun, htake, hrest'⟩ := ih (k := k + 1) (by omega) hdrop hlen
      refine ⟨ids', ?_, ?_, ?_⟩
      · rw [List.range'_succ, List.foldlM_cons, hstep]
        refine hrun.trans ?_
        rw [Nat.add_assoc, Nat.add_comm 1 n]
      · rw [← Nat.add_assoc, Nat.add_right_comm, htake, take_set_self hk, List.append_assoc]
        rfl
      · have hi2 : i + 2 * (n + 1) = i + 2 + 2 * n := by omega
        rw [hi2, hrest']
        rfl

theorem hashLevel_eq (hn : n ≤ ids.length) : ∃ ids', h.hashLevel ids n = some (ids', (n + 1) / 2) ∧
    ids'.take ((n + 1) / 2) = pairUp h.node (ids.take n) := by
  have hmax : n - n % 2 = 2 * (n / 2) := by omega
  have hpairs : 2 * (n / 2) / 2 = n / 2 := by omega
  obtain ⟨ids', hrun, htake, hdrop⟩ := h.foldlM_hashInto (k := 0) (n := n / 2)
    (Nat.le_refl 0) (List.drop_zero (l := ids)) (by omega)
  rw [Nat.zero_add, List.take_zero, List.nil_append] at htake
  rw [Nat.zero_add] at hrun hdrop
  simp only [hashLevel, hmax, hpairs, hrun, Option.bind_eq_bind, Option.bind_some]
  by_cases hodd : n % 2 = 1
  · have hlt : 2 * (n / 2) < ids.length := by omega
    have hlast : ids'[2 * (n / 2)]? = some (ids[2 * (n / 2)]) := by
      rw [← List.getElem?_eq_getElem hlt, ← Nat.add_zero (2 * (n / 2)), ← List.getElem?_drop, hdrop,
        List.getElem?_drop]
    have hn2 : n = 2 * (n / 2) + 1 := by omega
    have hk : n / 2 < ids'.length := by
      have := (List.getElem?_eq_some_iff.mp hlast).1
      omega
    have heven : (ids.take (2 * (n / 2))).length % 2 = 0 := by
      rw [List.length_take_of_le (Nat.le_of_lt hlt)]
      omega
    have hall : ids.take n = ids.take (2 * (n / 2)) ++ [ids[2 * (n / 2)]] := by
      conv_lhs => rw [hn2]
      rw [List.take_add_one, List.getElem?_eq_getElem hlt]
      rfl
    have hhalf : (n + 1) / 2 = n / 2 + 1 := by omega
    refine ⟨ids'.set (n / 2) ids[2 * (n / 2)], ?_, ?_⟩
    · rw [if_pos hodd, hlast, hhalf]
      rfl
    · rw [hhalf, take_set_self hk, htake, hall, pairUp_append heven]
      rfl
  · have hhalf : (n + 1) / 2 = n / 2 := by omega
    have hn2 : 2 * (n / 2) = n := by omega
    refine ⟨ids', ?_, ?_⟩
    · rw [if_neg hodd, hhalf]
      rfl
    · rw [hhalf, htake, hn2]

theorem hashLevels_eq {turns : ℕ} (hpos : 0 < n) (hn : n ≤ ids.length) (hturns : n ≤ turns) :
    ∃ ids', h.hashLevels turns ids n = some ids' ∧ ids'[0]? = top h.node (ids.take n) := by
  induction turns generalizing ids n with
  | zero => omega
  | succ turns ih =>
    have hlen : (ids.take n).length = n := List.length_take_of_le hn
    unfold hashLevels
    split
    · next hlt =>
      obtain ⟨ids', hlevel, htake⟩ := h.hashLevel_eq hn
      have hn' : (n + 1) / 2 ≤ ids'.length := by
        have hpairs := congrArg List.length htake
        rw [length_pairUp, hlen, List.length_take] at hpairs
        omega
      obtain ⟨ids'', hlevels, htop⟩ := ih (by omega) hn' (by omega)
      refine ⟨ids'', ?_, ?_⟩
      · simp only [hlevel, Option.bind_eq_bind, Option.bind_some, hlevels]
      · rw [htop, htake, ← top_step (by omega)]
    · next hle =>
      refine ⟨ids, rfl, ?_⟩
      rw [top_of_length_le (by omega), List.head?_eq_getElem?, List.getElem?_take_of_lt hpos]

/-- The levels in place build the tree over the digests. -/
theorem topDigest_eq (transactions : List Transaction) (hne : transactions ≠ []) :
    h.topDigest transactions = top h.node (transactions.map h.merkleDigest) := by
  have hpos : 0 < (transactions.map h.merkleDigest).length := by
    rw [List.length_map]
    exact List.length_pos_iff.mpr hne
  obtain ⟨ids', hrun, htop⟩ := h.hashLevels_eq hpos (Nat.le_refl _) (Nat.le_refl _)
  rw [List.take_length] at htop
  rw [topDigest, ← htop]
  simp only [hrun, Option.bind_eq_bind, Option.bind_some]

end Levels

section Binding

variable {ts us : List Transaction}

/-- Digests with an injective digest of a pair, and checksums of 160 bits. -/
def shortChecksum : Hashes ℕ ℕ ℕ where
  merkleDigest := id
  hashPair p := Nat.pair p.1 p.2
  hashDigest d := d % 2 ^ 160
  checksumType := 0

theorem shortChecksum_hashPair : Function.Injective shortChecksum.hashPair := by
  rintro ⟨a, b⟩ ⟨c, d⟩ h
  obtain ⟨rfl, rfl⟩ := Nat.pair_eq_pair.mp h
  rfl

end Binding

end Hashes

end Taiyi.Protocol
