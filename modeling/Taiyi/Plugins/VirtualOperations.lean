import Mathlib.Data.List.Nodup
import Mathlib.Data.List.Perm.Basic
import Mathlib.Data.List.Range
import Mathlib.Data.Nat.Bitwise
import Mathlib.Tactic.Common
import Taiyi.Library.OrderedMap

set_option autoImplicit false

namespace Taiyi.Plugins.VirtualOperations

open Library.OrderedMap

/-- A `rocksdb_operation_object`: an operation of a block, virtual when it has a virtual number. -/
structure OperationObject (Op : Type) where
  id : ℕ
  block : ℕ
  virtualOp : ℕ
  op : Op

/-- The columns of operations by their ids, and of ids by block and encoded id. -/
structure Columns (Op : Type) where
  operationById : List (ℕ × OperationObject Op) := []
  operationByBlock : List ((ℕ × ℕ) × ℕ) := []
  operationSeqId : ℕ := 0

def virtualOpFlag : ℕ := 0x8000000000000000

/-- The order of a pair of a block and an encoded id. -/
def keyLt (a b : ℕ × ℕ) : Bool := a.1 < b.1 || (a.1 == b.1 && a.2 < b.2)

def idLt (a b : ℕ) : Bool := a < b

instance : IsStrictWeakOrder (ℕ × ℕ) fun a b ↦ keyLt a b = true where
  irrefl a := by simp [keyLt]
  trans a b c := by
    simp only [keyLt, Bool.or_eq_true, Bool.and_eq_true, beq_iff_eq, decide_eq_true_eq]
    omega
  incomp_trans a b c := by
    simp only [keyLt, Bool.or_eq_true, Bool.and_eq_true, beq_iff_eq, decide_eq_true_eq]
    omega

instance : IsStrictWeakOrder ℕ fun a b ↦ idLt a b = true where
  irrefl a := by simp [idLt]
  trans a b c := by
    simp only [idLt, decide_eq_true_eq]
    omega
  incomp_trans a b c := by
    simp only [idLt, decide_eq_true_eq]
    omega

variable {Op : Type}

/-- The location of an operation: the flag sets the virtual ones behind the others of a block. -/
def OperationObject.location (o : OperationObject Op) : ℕ × ℕ :=
  (o.block, if 0 < o.virtualOp then o.id ||| virtualOpFlag else o.id)

namespace Columns

def importOperation (s : Columns Op) (obj : OperationObject Op) : Columns Op :=
  let obj := { obj with id := s.operationSeqId }
  { operationById := assign idLt s.operationById obj.id obj
    operationByBlock := assign keyLt s.operationByBlock obj.location obj.id
    operationSeqId := s.operationSeqId + 1 }

def findOperationObject (s : Columns Op) (id : ℕ) : Option (OperationObject Op) :=
  find idLt s.operationById id

def flagged (encodedId : ℕ) : Bool := encodedId &&& virtualOpFlag ≠ 0

/-- The entry is one of a virtual operation. -/
def hasFlag (e : (ℕ × ℕ) × ℕ) : Bool := flagged e.1.2

/-- The loop over the range: what the processor got, and the block of the last of it. -/
def process (s : Columns Op) : List ((ℕ × ℕ) × ℕ) → List (OperationObject Op) → ℕ →
    Except String (List (OperationObject Op) × ℕ)
  | [], processed, lastFoundBlock => .ok (processed, lastFoundBlock)
  | e :: entries, processed, lastFoundBlock =>
    if hasFlag e then
      match s.findOperationObject e.2 with
      | none => .error "found"
      | some op => process s entries (processed ++ [op]) op.block
    else process s entries processed lastFoundBlock

/-- The operations that are processed, and the block to continue from. -/
def enumVirtualOperationsFromBlockRange (s : Columns Op) (blockRangeBegin blockRangeEnd : ℕ) :
    Except String (List (OperationObject Op) × ℕ) :=
  if blockRangeEnd > blockRangeBegin then
    let range := below keyLt (seek keyLt s.operationByBlock (blockRangeBegin, 0)) (blockRangeEnd, 0)
    match process s range [] 0 with
    | .error e => .error e
    | .ok (processed, lastFoundBlock) =>
      match (seek keyLt s.operationByBlock (lastFoundBlock + 1, 0)).find? hasFlag with
      | some e => .ok (processed, e.1.1)
      | none => .ok (processed, 0)
  else .error "Block range must be upward"

end Columns

/-- The content of the store after operations were imported, in order, with the ids they got. -/
structure Holds (s : Columns Op) (l : List (OperationObject Op)) : Prop where
  seq : s.operationSeqId = l.length
  ids : l.map OperationObject.id = List.range l.length
  byId : ∀ i, s.findOperationObject i = l[i]?
  sorted : Sorted keyLt s.operationByBlock
  byBlock : s.operationByBlock.Perm (l.map fun o ↦ (o.location, o.id))

section Location

variable {o o' : OperationObject Op} {n : ℕ}

theorem flagged_iff (h : n < 2 ^ 64) : Columns.flagged n = true ↔ 2 ^ 63 ≤ n := by
  have hand : n &&& 2 ^ 63 = (n.testBit 63).toNat * 2 ^ 63 := Nat.and_two_pow n 63
  rw [Nat.testBit_eq_decide_div_mod_eq] at hand
  have hflag : virtualOpFlag = 2 ^ 63 := rfl
  rw [Columns.flagged, hflag, hand, decide_eq_true_eq]
  by_cases hb : n / 2 ^ 63 % 2 = 1
  · simp only [hb, decide_true, Bool.toNat_true, one_mul]
    omega
  · simp only [hb, decide_false, Bool.toNat_false, zero_mul]
    omega

/-- The flag is above all ids. -/
theorem location_eq (h : o.id < 2 ^ 63) :
    o.location = (o.block, o.id + if 0 < o.virtualOp then 2 ^ 63 else 0) := by
  have hor : 2 ^ 63 * 1 + o.id = 2 ^ 63 * 1 ||| o.id := Nat.two_pow_add_eq_or_of_lt h 1
  rw [OperationObject.location]
  split
  · rw [Nat.or_comm]
    change (o.block, 2 ^ 63 * 1 ||| o.id) = _
    rw [← hor, Nat.mul_one, Nat.add_comm]
  · rfl

theorem flagged_location (h : o.id < 2 ^ 63) :
    Columns.flagged o.location.2 = true ↔ 0 < o.virtualOp := by
  rw [location_eq h, flagged_iff]
  · split <;> omega
  · split <;> omega

theorem equiv_keyLt_iff {a b : ℕ × ℕ} : equiv keyLt a b = true ↔ a = b := by
  rw [equiv_iff, Prod.ext_iff]
  simp only [keyLt, Bool.or_eq_true, Bool.and_eq_true, beq_iff_eq, decide_eq_true_eq]
  omega

theorem equiv_idLt_iff {a b : ℕ} : equiv idLt a b = true ↔ a = b := by
  rw [equiv_iff]
  simp only [idLt, decide_eq_true_eq]
  omega

/-- The ids tell the locations apart. -/
theorem id_eq_of_location (h : o.id < 2 ^ 63) (h' : o'.id < 2 ^ 63) (heq : o.location = o'.location) :
    o.id = o'.id := by
  rw [location_eq h, location_eq h', Prod.mk.injEq] at heq
  obtain ⟨-, heq⟩ := heq
  split at heq <;> split at heq <;> omega

end Location

namespace Holds

variable {s : Columns Op} {l : List (OperationObject Op)}

theorem empty : Holds ({} : Columns Op) [] where
  seq := rfl
  ids := rfl
  byId _ := rfl
  sorted := List.Pairwise.nil
  byBlock := .refl _

theorem id_lt (h : Holds s l) {o : OperationObject Op} (ho : o ∈ l) : o.id < l.length := by
  have hmem : o.id ∈ l.map OperationObject.id := List.mem_map_of_mem ho
  rwa [h.ids, List.mem_range] at hmem

theorem getElem? (h : Holds s l) {o : OperationObject Op} (ho : o ∈ l) : l[o.id]? = some o := by
  obtain ⟨i, hi, rfl⟩ := List.getElem_of_mem ho
  have hid : (l.map OperationObject.id)[i]? = (List.range l.length)[i]? := by rw [h.ids]
  rw [List.getElem?_map, List.getElem?_eq_getElem hi, List.getElem?_range hi, Option.map_some,
    Option.some.injEq] at hid
  rw [hid, List.getElem?_eq_getElem hi]

theorem eq_of_id (h : Holds s l) {o o' : OperationObject Op} (ho : o ∈ l) (ho' : o' ∈ l)
    (hid : o.id = o'.id) : o = o' := by
  have heq := h.getElem? ho
  rw [hid, h.getElem? ho'] at heq
  exact (Option.some.inj heq).symm

theorem nodup (h : Holds s l) : l.Nodup :=
  List.Nodup.of_map OperationObject.id (h.ids ▸ List.nodup_range)

/-- One more operation is imported under the next id. -/
theorem importOperation (h : Holds s l) (hlen : l.length < 2 ^ 63) (obj : OperationObject Op) :
    Holds (s.importOperation obj) (l ++ [{ obj with id := l.length }]) := by
  have hfresh : Library.OrderedMap.find keyLt s.operationByBlock
      ({ obj with id := l.length } : OperationObject Op).location = none := by
    refine find_eq_none_iff.mpr fun e he ↦ Bool.eq_false_iff.mpr fun heq ↦ ?_
    obtain ⟨o, ho, rfl⟩ := List.mem_map.mp (h.byBlock.mem_iff.mp he)
    have hlt := h.id_lt ho
    have hid := id_eq_of_location (by omega) hlen (equiv_keyLt_iff.mp heq)
    simp only at hid
    omega
  refine ⟨?_, ?_, ?_, ?_, ?_⟩
  · rw [List.length_append, List.length_singleton, ← h.seq]
    rfl
  · rw [List.map_append, h.ids, List.length_append, List.length_singleton, List.range_succ]
    rfl
  · intro i
    have hfind : Library.OrderedMap.find idLt
        (assign idLt s.operationById l.length { obj with id := l.length }) i =
          if equiv idLt l.length i then some { obj with id := l.length } else
            Library.OrderedMap.find idLt s.operationById i := find_assign _ _ _ _
    have hcol : (s.importOperation obj).findOperationObject i = Library.OrderedMap.find idLt
        (assign idLt s.operationById l.length { obj with id := l.length }) i := by
      rw [← h.seq]
      rfl
    rw [hcol, hfind]
    by_cases hi : l.length = i
    · rw [if_pos (equiv_idLt_iff.mpr hi), ← hi, List.getElem?_concat_length]
    · have hold := h.byId i
      rw [Columns.findOperationObject] at hold
      rw [if_neg (fun heq ↦ hi (equiv_idLt_iff.mp heq)), hold]
      rcases Nat.lt_or_gt_of_ne hi with hgt | hlt
      · rw [List.getElem?_eq_none (by omega), List.getElem?_eq_none (by
          rw [List.length_append, List.length_singleton]
          omega)]
      · rw [List.getElem?_append_left hlt]
  · exact sorted_assign h.sorted
  · have hperm := (perm_assign hfresh (v := l.length)).trans (h.byBlock.cons _)
    rw [List.map_append]
    have hcol : (s.importOperation obj).operationByBlock = assign keyLt s.operationByBlock
        ({ obj with id := l.length } : OperationObject Op).location l.length := by
      rw [← h.seq]
      rfl
    rw [hcol]
    exact hperm.trans (List.perm_append_singleton _ _).symm

end Holds

/-- The virtual operations of the blocks from `b` on and below `e`. -/
def inRange (b e : ℕ) (o : OperationObject Op) : Bool :=
  0 < o.virtualOp && b ≤ o.block && o.block < e

/-- The virtual operations of the blocks from `b` on. -/
def inTail (b : ℕ) (o : OperationObject Op) : Bool :=
  0 < o.virtualOp && b ≤ o.block

def Before (o o' : OperationObject Op) : Prop :=
  o.block < o'.block ∨ o.block = o'.block ∧ o.id < o'.id

/-- Each virtual operation of the range once, in ascending order. -/
structure Lists (l : List (OperationObject Op)) (b e : ℕ) (processed : List (OperationObject Op)) :
    Prop where
  perm : processed.Perm (l.filter (inRange b e))
  sorted : processed.Pairwise Before

/-- The first block from `e` on with a virtual operation, or 0 without one. -/
def Continues (l : List (OperationObject Op)) (e n : ℕ) : Prop :=
  (n = 0 ∧ ∀ o ∈ l, 0 < o.virtualOp → o.block < e) ∨
    (e ≤ n ∧ (∃ o ∈ l, 0 < o.virtualOp ∧ o.block = n) ∧
      ∀ o ∈ l, 0 < o.virtualOp → e ≤ o.block → n ≤ o.block)

/-- What a call for the range is to answer. -/
def Answers (s : Columns Op) (l : List (OperationObject Op)) (b e : ℕ) : Prop :=
  ∃ processed n, s.enumVirtualOperationsFromBlockRange b e = .ok (processed, n) ∧
    Lists l b e processed ∧ Continues l e n

section Entries

variable {s : Columns Op} {l ops : List (OperationObject Op)} {es : List ((ℕ × ℕ) × ℕ)} {b e n : ℕ}

/-- The entry of an operation in the column by block. -/
def entry (o : OperationObject Op) : (ℕ × ℕ) × ℕ := (o.location, o.id)

theorem before_of_keyLt {o o' : OperationObject Op} (hid : o.id < 2 ^ 63) (hid' : o'.id < 2 ^ 63)
    (hv : 0 < o.virtualOp) (hv' : 0 < o'.virtualOp) (h : keyLt o.location o'.location = true) :
    Before o o' := by
  rw [location_eq hid, location_eq hid', if_pos hv, if_pos hv'] at h
  simp only [keyLt, Bool.or_eq_true, Bool.and_eq_true, beq_iff_eq, decide_eq_true_eq] at h
  unfold Before
  omega

/-- The entries with the flag are those of virtual operations, which the loop processes. -/
theorem process_eq (h : Holds s l) (hlen : l.length ≤ 2 ^ 63) (hes : ∀ x ∈ es, x ∈ l.map entry)
    (processed : List (OperationObject Op)) (last : ℕ) :
    ∃ ops, es.filter Columns.hasFlag = ops.map entry ∧
      (∀ o ∈ ops, o ∈ l ∧ 0 < o.virtualOp) ∧
      s.process es processed last =
        .ok (processed ++ ops, (ops.getLast?.map OperationObject.block).getD last) := by
  induction es generalizing processed last with
  | nil => exact ⟨[], rfl, by simp, by rw [Columns.process, List.append_nil]; rfl⟩
  | cons x es ih =>
    obtain ⟨hx, htail⟩ := List.forall_mem_cons.mp hes
    obtain ⟨o, ho, rfl⟩ := List.mem_map.mp hx
    have hid : o.id < 2 ^ 63 := (h.id_lt ho).trans_le hlen
    have hflag : Columns.hasFlag (entry o) = true ↔ 0 < o.virtualOp := flagged_location hid
    have hfind : s.findOperationObject o.id = some o := (h.byId _).trans (h.getElem? ho)
    by_cases hv : 0 < o.virtualOp
    · obtain ⟨ops, hops, hmem, hok⟩ := ih htail (processed ++ [o]) o.block
      refine ⟨o :: ops, ?_, ?_, ?_⟩
      · rw [List.filter_cons_of_pos (hflag.mpr hv), hops, List.map_cons]
      · exact List.forall_mem_cons.mpr ⟨⟨ho, hv⟩, hmem⟩
      · rw [Columns.process, if_pos (hflag.mpr hv), show (entry o).2 = o.id from rfl, hfind]
        simp only
        rw [hok, List.append_assoc, List.singleton_append]
        cases ops with
        | nil => rfl
        | cons o' ops => rw [List.getLast?_cons_cons, List.getLast?_cons]; rfl
    · obtain ⟨ops, hops, hmem, hok⟩ := ih htail processed last
      refine ⟨ops, ?_, hmem, ?_⟩
      · rw [List.filter_cons_of_neg (fun hf ↦ hv (hflag.mp hf)), hops]
      · rw [Columns.process, if_neg (fun hf ↦ hv (hflag.mp hf)), hok]

/-- Operations are determined by their entries. -/
theorem perm_of_entries (h : Holds s l) {p : OperationObject Op → Bool} (hsub : ∀ o ∈ ops, o ∈ l)
    (hsorted : Sorted keyLt (ops.map entry))
    (hmem : ∀ o ∈ l, entry o ∈ ops.map entry ↔ p o = true) : ops.Perm (l.filter p) := by
  have hnodup : ops.Nodup := by
    refine List.Nodup.of_map entry (List.Pairwise.imp (fun hlt heq ↦ ?_) hsorted)
    rw [heq] at hlt
    exact (equiv_iff.mp (equiv_keyLt_iff.mpr rfl)).1 hlt
  refine (List.perm_ext_iff_of_nodup hnodup (h.nodup.filter p)).mpr fun o ↦ ?_
  rw [List.mem_filter]
  constructor
  · exact fun ho ↦ ⟨hsub o ho, (hmem o (hsub o ho)).mp (List.mem_map_of_mem ho)⟩
  · rintro ⟨ho, hp⟩
    obtain ⟨o', ho', heq⟩ := List.mem_map.mp ((hmem o ho).mpr hp)
    have hid : o'.id = o.id := congrArg Prod.snd heq
    rwa [h.eq_of_id (hsub o' ho') ho hid] at ho'

end Entries

section Calls

variable {s : Columns Op} {l : List (OperationObject Op)} {b e k n : ℕ}

theorem block_le_of_keyLt {a a' : ℕ × ℕ} (h : keyLt a a' = true) : a.1 ≤ a'.1 := by
  simp only [keyLt, Bool.or_eq_true, Bool.and_eq_true, beq_iff_eq, decide_eq_true_eq] at h
  omega

theorem keyLt_zero (a : ℕ × ℕ) (k : ℕ) : keyLt a (k, 0) = decide (a.1 < k) := by
  simp [keyLt]

theorem mem_seek (h : Holds s l) {x : (ℕ × ℕ) × ℕ} :
    x ∈ seek keyLt s.operationByBlock (k, 0) ↔ x ∈ l.map entry ∧ k ≤ x.1.1 := by
  rw [seek_eq_filter h.sorted, List.mem_filter, h.byBlock.mem_iff, keyLt_zero]
  simp [entry]

/-- The entries between the two bounds. -/
theorem mem_range (h : Holds s l) {x : (ℕ × ℕ) × ℕ} :
    x ∈ below keyLt (seek keyLt s.operationByBlock (b, 0)) (e, 0) ↔
      x ∈ l.map entry ∧ b ≤ x.1.1 ∧ x.1.1 < e := by
  have hsorted : Sorted keyLt (seek keyLt s.operationByBlock (b, 0)) := by
    rw [seek_eq_filter h.sorted]
    exact h.sorted.filter
  rw [below_eq_filter hsorted, List.mem_filter, mem_seek h, keyLt_zero, decide_eq_true_eq, and_assoc]

theorem sorted_range (h : Holds s l) :
    Sorted keyLt (below keyLt (seek keyLt s.operationByBlock (b, 0)) (e, 0)) := by
  have hsorted : Sorted keyLt (seek keyLt s.operationByBlock (b, 0)) := by
    rw [seek_eq_filter h.sorted]
    exact h.sorted.filter
  rw [below_eq_filter hsorted]
  exact hsorted.filter

/-- The search after the loop finds the first block from `k` on. -/
theorem continues_find (h : Holds s l) (hlen : l.length ≤ 2 ^ 63) (k : ℕ) :
    Continues l k (((seek keyLt s.operationByBlock (k, 0)).find? Columns.hasFlag).elim 0 (·.1.1)) := by
  have hflag : ∀ o ∈ l, Columns.hasFlag (entry o) = true ↔ 0 < o.virtualOp := fun o ho ↦
    flagged_location ((h.id_lt ho).trans_le hlen)
  cases hf : (seek keyLt s.operationByBlock (k, 0)).find? Columns.hasFlag with
  | none =>
    refine .inl ⟨rfl, fun o ho hv ↦ ?_⟩
    by_contra hge
    have hmem : entry o ∈ seek keyLt s.operationByBlock (k, 0) :=
      (mem_seek h).mpr ⟨List.mem_map_of_mem ho, Nat.le_of_not_lt hge⟩
    exact List.find?_eq_none.mp hf _ hmem ((hflag o ho).mpr hv)
  | some x =>
    obtain ⟨hx, pre, post, hsplit, hpre⟩ := List.find?_eq_some_iff_append.mp hf
    have hin : x ∈ seek keyLt s.operationByBlock (k, 0) := by
      rw [hsplit]
      exact List.mem_append_right _ List.mem_cons_self
    obtain ⟨hmap, hk⟩ := (mem_seek h).mp hin
    obtain ⟨o, ho, rfl⟩ := List.mem_map.mp hmap
    refine .inr ⟨hk, ⟨o, ho, (hflag o ho).mp hx, rfl⟩, fun o' ho' hv' hk' ↦ ?_⟩
    have hmem' : entry o' ∈ pre ++ entry o :: post := hsplit ▸ (mem_seek h).mpr ⟨List.mem_map_of_mem ho', hk'⟩
    have hsorted : Sorted keyLt (pre ++ entry o :: post) := by
      rw [← hsplit, seek_eq_filter h.sorted]
      exact h.sorted.filter
    rcases List.mem_append.mp hmem' with hin' | hin'
    · have := hpre _ hin'
      rw [(hflag o' ho').mpr hv'] at this
      cases this
    · rcases List.mem_cons.mp hin' with heq | hin'
      · exact (congrArg (fun x ↦ x.1.1) heq).symm.le
      · have hlt := (List.pairwise_cons.mp (List.pairwise_append.mp hsorted).2.1).1 _ hin'
        exact block_le_of_keyLt hlt

theorem Continues.mono (h : Continues l k n) (hke : k ≤ e)
    (hgap : ∀ o ∈ l, 0 < o.virtualOp → k ≤ o.block → e ≤ o.block) : Continues l e n := by
  rcases h with ⟨rfl, hall⟩ | ⟨hk, ⟨o, ho, hv, rfl⟩, hmin⟩
  · exact .inl ⟨rfl, fun o ho hv ↦ (hall o ho hv).trans_le hke⟩
  · exact .inr ⟨hgap o ho hv hk, ⟨o, ho, hv, rfl⟩, fun o' ho' hv' he ↦ hmin o' ho' hv' (hke.trans he)⟩

theorem inRange_iff {o : OperationObject Op} :
    inRange b e o = true ↔ 0 < o.virtualOp ∧ b ≤ o.block ∧ o.block < e := by
  simp [inRange, and_assoc]

theorem inTail_iff {o : OperationObject Op} : inTail b o = true ↔ 0 < o.virtualOp ∧ b ≤ o.block := by
  simp [inTail]

/-- What a call answers: always the operations of the range, and the block to continue from when
there is one; without one it is the first block of all. -/
theorem enum_spec (h : Holds s l) (hlen : l.length ≤ 2 ^ 63) (hbe : b < e) :
    ∃ processed n, s.enumVirtualOperationsFromBlockRange b e = .ok (processed, n) ∧
      Lists l b e processed ∧ Continues l (if processed = [] then 1 else e) n := by
  have hentries : ∀ x ∈ below keyLt (seek keyLt s.operationByBlock (b, 0)) (e, 0),
      x ∈ l.map entry := fun x hx ↦ ((mem_range h).mp hx).1
  obtain ⟨ops, hops, hmem, hok⟩ := process_eq h hlen hentries [] 0
  rw [List.nil_append] at hok
  have hflag : ∀ o ∈ l, Columns.hasFlag (entry o) = true ↔ 0 < o.virtualOp := fun o ho ↦
    flagged_location ((h.id_lt ho).trans_le hlen)
  have hsorted : Sorted keyLt (ops.map entry) := hops ▸ (sorted_range h).filter
  have hlists : Lists l b e ops := by
    refine ⟨perm_of_entries h (fun o ho ↦ (hmem o ho).1) hsorted fun o ho ↦ ?_, ?_⟩
    · rw [← hops, List.mem_filter, mem_range h, hflag o ho, inRange_iff]
      constructor
      · rintro ⟨⟨-, hb, he⟩, hv⟩
        exact ⟨hv, hb, he⟩
      · rintro ⟨hv, hb, he⟩
        exact ⟨⟨List.mem_map_of_mem ho, hb, he⟩, hv⟩
    · have hpair := List.pairwise_map.mp hsorted
      refine hpair.imp_of_mem fun {o o'} ho ho' hlt ↦ ?_
      exact before_of_keyLt ((h.id_lt (hmem o ho).1).trans_le hlen)
        ((h.id_lt (hmem o' ho').1).trans_le hlen) (hmem o ho).2 (hmem o' ho').2 hlt
  have hfind := continues_find h hlen ((ops.getLast?.map OperationObject.block).getD 0 + 1)
  refine ⟨ops, ((seek keyLt s.operationByBlock ((ops.getLast?.map OperationObject.block).getD 0 + 1,
    0)).find? Columns.hasFlag).elim 0 (·.1.1), ?_, hlists, ?_⟩
  · rw [Columns.enumVirtualOperationsFromBlockRange, if_pos hbe]
    simp only [hok]
    cases (seek keyLt s.operationByBlock ((ops.getLast?.map OperationObject.block).getD 0 + 1, 0)).find?
      Columns.hasFlag <;> rfl
  · split
    · next hnil =>
      rw [hnil] at hfind ⊢
      exact hfind
    · next hne =>
      obtain ⟨init, o, rfl⟩ := (List.eq_nil_or_concat' ops).resolve_left hne
      have hlast : (((init ++ [o]).getLast?.map OperationObject.block).getD 0) = o.block := by
        rw [List.getLast?_concat, Option.map_some, Option.getD_some]
      rw [hlast] at hfind ⊢
      have ho : o ∈ init ++ [o] := List.mem_append_right _ List.mem_cons_self
      have hrange := (List.mem_filter.mp (hlists.perm.mem_iff.mp ho)).2
      refine hfind.mono (inRange_iff.mp hrange).2.2 fun o' ho' hv' hgt ↦ ?_
      -- an operation of the range is before the last one
      by_contra hlt
      have hin : o' ∈ init ++ [o] := hlists.perm.mem_iff.mpr (List.mem_filter.mpr ⟨ho',
        inRange_iff.mpr ⟨hv', (inRange_iff.mp hrange).2.1.trans (Nat.le_of_succ_le hgt),
          Nat.lt_of_not_le hlt⟩⟩)
      rcases List.mem_append.mp hin with hin | hin
      · have hbefore := (List.pairwise_append.mp hlists.sorted).2.2 o' hin o List.mem_cons_self
        unfold Before at hbefore
        omega
      · rw [List.mem_singleton.mp hin] at hgt
        omega

/-- A call answers as it should when the range has a virtual operation, or none of the blocks
before it but the first one has. -/
theorem answers_iff (h : Holds s l) (hlen : l.length ≤ 2 ^ 63) (hbe : b < e) :
    Answers s l b e ↔ (∃ o ∈ l, inRange b e o = true) ∨
      ∀ o ∈ l, 0 < o.virtualOp → 1 ≤ o.block → b ≤ o.block := by
  obtain ⟨processed, n, hok, hlists, hcont⟩ := enum_spec h hlen hbe
  have hanswers : Answers s l b e ↔ Continues l e n := by
    constructor
    · rintro ⟨processed', n', hok', -, hcont'⟩
      rw [hok, Except.ok.injEq, Prod.mk.injEq] at hok'
      exact hok'.2 ▸ hcont'
    · exact fun hc ↦ ⟨processed, n, hok, hlists, hc⟩
  rw [hanswers]
  by_cases hnil : processed = []
  · have hnone : ∀ o ∈ l, ¬inRange b e o = true := fun o ho hr ↦ by
      have := hlists.perm.mem_iff.mpr (List.mem_filter.mpr ⟨ho, hr⟩)
      rw [hnil] at this
      cases this
    have hgap : ∀ o ∈ l, 0 < o.virtualOp → b ≤ o.block → e ≤ o.block := fun o ho hv hb ↦
      Nat.le_of_not_lt fun hlt ↦ hnone o ho (inRange_iff.mpr ⟨hv, hb, hlt⟩)
    rw [if_pos hnil] at hcont
    rw [or_iff_right (by rintro ⟨o, ho, hr⟩; exact hnone o ho hr)]
    constructor
    · intro hc o ho hv h1
      rcases hcont with ⟨-, hall⟩ | ⟨hn, -, hmin⟩
      · exact absurd (hall o ho hv) (Nat.not_lt_of_le h1)
      · have hle := hmin o ho hv h1
        rcases hc with ⟨hzero, -⟩ | ⟨hen, -⟩ <;> omega
    · intro hb
      exact hcont.mono (Nat.one_le_of_lt hbe) fun o ho hv h1 ↦ hgap o ho hv (hb o ho hv h1)
  · rw [if_neg hnil] at hcont
    refine iff_of_true hcont (.inl ?_)
    obtain ⟨o, ho⟩ := List.exists_mem_of_ne_nil _ hnil
    obtain ⟨hl, hr⟩ := List.mem_filter.mp (hlists.perm.mem_iff.mp ho)
    exact ⟨o, hl, hr⟩

end Calls

/-- A client that starts at a block and continues from the block that a call returns, until it is 0;
the ranges are of any lengths. -/
def client (s : Columns Op) (width : ℕ → ℕ) : ℕ → ℕ → Option (List (OperationObject Op))
  | 0, _ => none
  | calls + 1, b =>
    match s.enumVirtualOperationsFromBlockRange b (b + 1 + width b) with
    | .error _ => none
    | .ok (processed, n) => if n = 0 then some processed else (client s width calls n).map (processed ++ ·)

section Client

variable {s : Columns Op} {l : List (OperationObject Op)} {width : ℕ → ℕ} {b e n : ℕ}

/-- The operations of a range and those from its end on are those from its begin on. -/
theorem perm_inRange_append (l : List (OperationObject Op)) (hbe : b ≤ e) (hen : e ≤ n)
    (hgap : ∀ o ∈ l, 0 < o.virtualOp → e ≤ o.block → n ≤ o.block) :
    (l.filter (inRange b e) ++ l.filter (inTail n)).Perm (l.filter (inTail b)) := by
  have hperm := List.filter_append_perm (fun o ↦ decide (o.block < e)) (l.filter (inTail b))
  rw [List.filter_filter, List.filter_filter] at hperm
  refine List.Perm.trans (List.Perm.of_eq (congrArg₂ _ (List.filter_congr fun o ho ↦ ?_)
    (List.filter_congr fun o ho ↦ ?_))) hperm
  · rw [Bool.eq_iff_iff, Bool.and_eq_true, inRange_iff, inTail_iff, decide_eq_true_eq]
    tauto
  · rw [Bool.eq_iff_iff, Bool.and_eq_true, inTail_iff, inTail_iff, Bool.not_eq_true', decide_eq_false_iff_not]
    constructor
    · rintro ⟨hv, hn⟩
      omega
    · rintro ⟨hlt, hv, -⟩
      exact ⟨hv, hgap o ho hv (Nat.le_of_not_lt hlt)⟩

theorem inTail_eq_inRange (hall : ∀ o ∈ l, 0 < o.virtualOp → o.block < e) :
    l.filter (inTail b) = l.filter (inRange b e) := by
  refine List.filter_congr fun o ho ↦ ?_
  rw [Bool.eq_iff_iff, inTail_iff, inRange_iff]
  exact ⟨fun ⟨hv, hb⟩ ↦ ⟨hv, hb, hall o ho hv⟩, fun ⟨hv, hb, _⟩ ↦ ⟨hv, hb⟩⟩

theorem client_succ {processed : List (OperationObject Op)} {calls : ℕ} {seen : List (OperationObject Op)}
    (hok : s.enumVirtualOperationsFromBlockRange b (b + 1 + width b) = .ok (processed, n)) (hn : n ≠ 0)
    (hseen : client s width calls n = some seen) :
    client s width (calls + 1) b = some (processed ++ seen) := by
  rw [client, hok]
  simp only
  rw [if_neg hn, hseen, Option.map_some]

/-- From a range with a virtual operation on: each call leaves fewer operations. -/
theorem client_from (h : Holds s l) (hlen : l.length ≤ 2 ^ 63) (width : ℕ → ℕ) (b : ℕ)
    (hb : ∃ o ∈ l, inRange b (b + 1 + width b) o = true) :
    ∃ calls seen, client s width calls b = some seen ∧ seen.Perm (l.filter (inTail b)) := by
  generalize hk : (l.filter (inTail b)).length = k
  induction k using Nat.strongRecOn generalizing b with
  | _ k ih =>
    obtain ⟨processed, n, hok, hlists, hcont⟩ :=
      (answers_iff h hlen (by omega : b < b + 1 + width b)).mpr (.inl hb)
    rcases hcont with ⟨rfl, hall⟩ | ⟨hen, ⟨o, ho, hv, hblock⟩, hmin⟩
    · refine ⟨1, processed, ?_, inTail_eq_inRange hall ▸ hlists.perm⟩
      rw [client, hok]
      rfl
    · have hperm := perm_inRange_append l (by omega : b ≤ b + 1 + width b) hen hmin
      obtain ⟨o', ho', hr⟩ := hb
      have hpos := List.length_pos_of_mem (List.mem_filter.mpr ⟨ho', hr⟩)
      have hlength := hperm.length_eq
      rw [List.length_append] at hlength
      obtain ⟨calls, seen, hseen, hrest⟩ := ih _ (by omega) n
        ⟨o, ho, inRange_iff.mpr ⟨hv, by omega, by omega⟩⟩ rfl
      exact ⟨calls + 1, processed ++ seen, client_succ hok (by omega) hseen,
        (hlists.perm.append hrest).trans hperm⟩

/-- From any block on; after a range without one the client may go back to an earlier block. -/
theorem client_sees (h : Holds s l) (hlen : l.length ≤ 2 ^ 63) (width : ℕ → ℕ) (b : ℕ) :
    ∃ calls seen, client s width calls b = some seen ∧
      (seen.filter (inTail b)).Perm (l.filter (inTail b)) := by
  by_cases hb : ∃ o ∈ l, inRange b (b + 1 + width b) o = true
  · obtain ⟨calls, seen, hseen, hperm⟩ := client_from h hlen width b hb
    have hfilter := hperm.filter (inTail b)
    rw [List.filter_filter] at hfilter
    simp only [Bool.and_self] at hfilter
    exact ⟨calls, seen, hseen, hfilter⟩
  · obtain ⟨processed, n, hok, hlists, hcont⟩ := enum_spec h hlen (by omega : b < b + 1 + width b)
    have hnil : processed = [] := by
      refine List.eq_nil_iff_forall_not_mem.mpr fun o ho ↦ hb ?_
      obtain ⟨hl, hr⟩ := List.mem_filter.mp (hlists.perm.mem_iff.mp ho)
      exact ⟨o, hl, hr⟩
    have hlater : ∀ o ∈ l, 0 < o.virtualOp → b ≤ o.block → b + 1 + width b ≤ o.block := fun o ho hv hle ↦
      Nat.le_of_not_lt fun hlt ↦ hb ⟨o, ho, inRange_iff.mpr ⟨hv, hle, hlt⟩⟩
    subst hnil
    rw [if_pos rfl] at hcont
    rcases hcont with ⟨rfl, hall⟩ | ⟨hn, ⟨o, ho, hv, hblock⟩, hmin⟩
    · have hnone : l.filter (inTail b) = [] := by
        refine List.filter_eq_nil_iff.mpr fun o ho ht ↦ ?_
        obtain ⟨hv, hle⟩ := inTail_iff.mp ht
        have := hall o ho hv
        have := hlater o ho hv hle
        omega
      refine ⟨1, [], ?_, by rw [hnone]; rfl⟩
      rw [client, hok]
      rfl
    · obtain ⟨calls, seen, hseen, hperm⟩ := client_from h hlen width n
        ⟨o, ho, inRange_iff.mpr ⟨hv, by omega, by omega⟩⟩
      refine ⟨calls + 1, [] ++ seen, client_succ hok (by omega) hseen, ?_⟩
      have hfilter := hperm.filter (inTail b)
      rw [List.filter_filter] at hfilter
      refine hfilter.trans (List.Perm.of_eq (List.filter_congr fun o' ho' ↦ ?_))
      rw [Bool.eq_iff_iff, Bool.and_eq_true, and_iff_left_iff_imp, inTail_iff, inTail_iff]
      rintro ⟨hv', hle⟩
      have hfar := hlater o' ho' hv' hle
      exact ⟨hv', hmin o' ho' hv' (by omega)⟩

end Client

/-- The store after the operations were imported. -/
def imported (objs : List (OperationObject Op)) : Columns Op := objs.foldl Columns.importOperation {}

/-- The operations as they are stored, under their ids. -/
def stored (objs : List (OperationObject Op)) : List (OperationObject Op) :=
  objs.mapIdx fun i o ↦ { o with id := i }

theorem stored_length (objs : List (OperationObject Op)) : (stored objs).length = objs.length :=
  List.length_mapIdx

/-- By induction on the imports. -/
theorem holds_imported (objs : List (OperationObject Op)) (hlen : objs.length ≤ 2 ^ 63) :
    Holds (imported objs) (stored objs) := by
  induction objs using List.reverseRecOn with
  | nil => exact Holds.empty
  | append_singleton objs obj ih =>
    rw [List.length_append, List.length_singleton] at hlen
    have hstep := (ih (by omega)).importOperation (by rw [stored_length]; omega) obj
    rw [stored_length] at hstep
    have hstored : stored (objs ++ [obj]) = stored objs ++ [{ obj with id := objs.length }] := List.mapIdx_concat
    rw [hstored, imported, List.foldl_append]
    exact hstep

/-- A call gives the virtual operations of a range once and in order, and the next block with one,
exactly when the range has one or no block from the first one up to it does; a client that follows
the blocks it gets always ends, with each later operation once. -/
theorem enumVirtualOperationsFromBlockRange_iff (objs : List (OperationObject Op))
    (hlen : objs.length ≤ 2 ^ 63) :
    (∀ b e, b < e → (Answers (imported objs) (stored objs) b e ↔
      (∃ o ∈ stored objs, inRange b e o = true) ∨
        ∀ o ∈ stored objs, 0 < o.virtualOp → 1 ≤ o.block → b ≤ o.block)) ∧
    ∀ width b, ∃ calls seen, client (imported objs) width calls b = some seen ∧
      (seen.filter (inTail b)).Perm ((stored objs).filter (inTail b)) := by
  have h := holds_imported objs hlen
  have hlen' : (stored objs).length ≤ 2 ^ 63 := stored_length objs ▸ hlen
  exact ⟨fun b e hbe ↦ answers_iff h hlen' hbe, client_sees h hlen'⟩

/-- Two operations, one of them virtual, in the blocks 1 and 7. -/
def twoOperations : List (OperationObject Unit) := [⟨0, 1, 1, ()⟩, ⟨0, 7, 0, ()⟩]

/-- The results at the store of two operations. -/
theorem enumVirtualOperationsFromBlockRange_two :
    (Answers (imported twoOperations) (stored twoOperations) 1 2 ↔
      (∃ o ∈ stored twoOperations, inRange 1 2 o = true) ∨
        ∀ o ∈ stored twoOperations, 0 < o.virtualOp → 1 ≤ o.block → 1 ≤ o.block) ∧
    ∃ calls seen, client (imported twoOperations) (fun _ ↦ 2) calls 5 = some seen ∧
      (seen.filter (inTail 5)).Perm ((stored twoOperations).filter (inTail 5)) :=
  have h := enumVirtualOperationsFromBlockRange_iff twoOperations (by decide)
  ⟨h.1 1 2 (by decide), h.2 (fun _ ↦ 2) 5⟩

/-- A range behind the last virtual operation leads back to the first block. -/
theorem not_answers_behind : ¬Answers (imported twoOperations) (stored twoOperations) 5 6 := by
  rintro ⟨processed, n, hok, -, hcont⟩
  have hback : (imported twoOperations).enumVirtualOperationsFromBlockRange 5 6 = .ok ([], 1) := rfl
  rw [hback, Except.ok.injEq, Prod.mk.injEq] at hok
  obtain ⟨-, rfl⟩ := hok
  rcases hcont with ⟨h, -⟩ | ⟨h, -⟩ <;> omega

end Taiyi.Plugins.VirtualOperations
