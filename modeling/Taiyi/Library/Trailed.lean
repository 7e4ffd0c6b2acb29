import Mathlib.Data.List.Basic
import Mathlib.Data.Nat.ModEq
import Mathlib.Tactic.Ring

set_option autoImplicit false

namespace Taiyi.Library

abbrev Bytes := List UInt8

section Words

/-- A number as a given count of bytes, the least significant first. -/
def word : ℕ → ℕ → Bytes
  | 0, _ => []
  | k + 1, n => UInt8.ofNat n :: word k (n / 256)

def ofWord : Bytes → ℕ
  | [] => 0
  | b :: bs => b.toNat + 256 * ofWord bs

@[simp] theorem length_word (k n : ℕ) : (word k n).length = k := by
  induction k generalizing n with
  | zero => rfl
  | succ k ih => rw [word, List.length_cons, ih]

theorem ofWord_word (k n : ℕ) : ofWord (word k n) = n % 256 ^ k := by
  induction k generalizing n with
  | zero => rw [word, ofWord, pow_zero, Nat.mod_one]
  | succ k ih =>
    rw [word, ofWord, ih, UInt8.toNat_ofNat', pow_succ' 256 k]
    exact Nat.mod_mul.symm

theorem ofWord_word_of_lt {k n : ℕ} (h : n < 256 ^ k) : ofWord (word k n) = n := by
  rw [ofWord_word, Nat.mod_eq_of_lt h]

end Words

/-- A way to write values, and to read one from the front of a stream. -/
structure Codec (α : Type) where
  pack : α → Bytes
  unpack : Bytes → Option (α × Bytes)
  unpack_pack : ∀ a rest, unpack (pack a ++ rest) = some (a, rest)
  consumes : ∀ bs a rest, unpack bs = some (a, rest) → rest.length ≤ bs.length

section Records

variable {α : Type}

/-- A value with the place of its first byte behind it. -/
def Codec.record (c : Codec α) (pos : ℕ) (a : α) : Bytes := c.pack a ++ word 8 pos

/-- The records of a list of values, from a place on. -/
def Codec.trailed (c : Codec α) : ℕ → List α → Bytes
  | _, [] => []
  | pos, a :: as => c.record pos a ++ c.trailed (pos + (c.record pos a).length) as

/-- The places where the records begin. -/
def Codec.starts (c : Codec α) : ℕ → List α → List ℕ
  | _, [] => []
  | pos, a :: as => pos :: c.starts (pos + (c.record pos a).length) as

/-- The places as words, one after the other. -/
def index (starts : List ℕ) : Bytes := starts.flatMap (word 8)

theorem index_nil : index [] = [] := rfl

theorem index_cons (n : ℕ) (ns : List ℕ) : index (n :: ns) = word 8 n ++ index ns := List.flatMap_cons

theorem index_append (ns ms : List ℕ) : index (ns ++ ms) = index ns ++ index ms :=
  List.flatMap_append

theorem length_index (starts : List ℕ) : (index starts).length = 8 * starts.length := by
  induction starts with
  | nil => rfl
  | cons n ns ih =>
    rw [index_cons, List.length_append, length_word, ih, List.length_cons]
    ring

variable {c : Codec α} {pos : ℕ} {a : α} {as bs : List α}

theorem Codec.length_record : (c.record pos a).length = (c.pack a).length + 8 := by
  rw [record, List.length_append, length_word]

@[simp] theorem Codec.length_starts : (c.starts pos as).length = as.length := by
  induction as generalizing pos with
  | nil => rfl
  | cons a as ih => rw [starts, List.length_cons, ih, List.length_cons]

theorem Codec.trailed_append :
    c.trailed pos (as ++ bs) = c.trailed pos as ++ c.trailed (pos + (c.trailed pos as).length) bs := by
  induction as generalizing pos with
  | nil => rfl
  | cons a as ih =>
    rw [List.cons_append, trailed, ih, trailed, List.append_assoc, List.length_append, Nat.add_assoc]

theorem Codec.starts_append :
    c.starts pos (as ++ bs) = c.starts pos as ++ c.starts (pos + (c.trailed pos as).length) bs := by
  induction as generalizing pos with
  | nil => rfl
  | cons a as ih =>
    rw [List.cons_append, starts, ih, starts, trailed, List.length_append, Nat.add_assoc,
      List.cons_append]

theorem Codec.le_of_mem_starts {n : ℕ} (h : n ∈ c.starts pos as) :
    pos ≤ n ∧ n + 8 ≤ pos + (c.trailed pos as).length := by
  induction as generalizing pos with
  | nil => cases h
  | cons a as ih =>
    rw [trailed, List.length_append]
    have hlen : (c.record pos a).length = (c.pack a).length + 8 := c.length_record
    rcases List.mem_cons.mp h with rfl | h
    · omega
    · have := ih h
      omega

/-- The value that is packed at the place of a record. -/
theorem Codec.at_starts {i n : ℕ} (h : (c.starts pos as)[i]? = some n) :
    ∃ a before rest, as[i]? = some a ∧ n = pos + before.length ∧
      c.trailed pos as = before ++ (c.pack a ++ rest) := by
  induction as generalizing pos i with
  | nil => cases h
  | cons a as ih =>
    cases i with
    | zero =>
      cases h
      refine ⟨a, [], word 8 n ++ c.trailed (n + (c.record n a).length) as, rfl, rfl, ?_⟩
      rw [trailed, record, List.append_assoc, List.nil_append]
    | succ i =>
      obtain ⟨b, before, rest, hb, rfl, heq⟩ := ih h
      refine ⟨b, c.record pos a ++ before, rest, hb, ?_, ?_⟩
      · rw [List.length_append, Nat.add_assoc]
      · rw [trailed, heq, List.append_assoc]

theorem Codec.unpack_starts {i n : ℕ} (h : (c.starts 0 as)[i]? = some n) :
    ∃ a rest, as[i]? = some a ∧ c.unpack ((c.trailed 0 as).drop n) = some (a, rest) := by
  obtain ⟨a, before, rest, ha, rfl, heq⟩ := c.at_starts h
  refine ⟨a, rest, ha, ?_⟩
  rw [heq, Nat.zero_add, List.drop_left, c.unpack_pack]

/-- The words are read back one by one. -/
theorem index_word {starts : List ℕ} {i n : ℕ} (h : starts[i]? = some n) :
    ((index starts).drop (8 * i)).take 8 = word 8 n := by
  induction starts generalizing i with
  | nil => cases h
  | cons m ms ih =>
    have hlen : (word 8 m).length = 8 := length_word 8 m
    rw [index_cons]
    cases i with
    | zero =>
      cases h
      rw [Nat.mul_zero, List.drop_zero, List.take_left' hlen]
    | succ i =>
      rw [Nat.mul_succ, Nat.add_comm, ← List.drop_drop, List.drop_left' hlen]
      exact ih h

end Records

end Taiyi.Library
