import Mathlib.Data.Nat.Digits.Defs
import Mathlib.Data.Nat.Digits.Lemmas
import Mathlib.Tactic.Common

set_option autoImplicit false

namespace Taiyi.Library.Digits

open Nat (ofDigits)

/-- The `k` low digits of `n` in the base `b`, the last one first. -/
def low (b : ℕ) : ℕ → ℕ → List ℕ
  | 0, _ => []
  | k + 1, n => n % b :: low b k (n / b)

section Low

variable {b : ℕ}

theorem length_low (k n : ℕ) : (low b k n).length = k := by
  induction k generalizing n with
  | zero => rfl
  | succ k ih => rw [low, List.length_cons, ih]

theorem lt_of_mem_low (hb : 0 < b) {k n d : ℕ} (h : d ∈ low b k n) : d < b := by
  induction k generalizing n with
  | zero => cases h
  | succ k ih =>
    rcases List.mem_cons.mp h with rfl | h
    · exact Nat.mod_lt _ hb
    · exact ih h

theorem ofDigits_low {k n : ℕ} (h : n < b ^ k) : ofDigits b (low b k n) = n := by
  induction k generalizing n with
  | zero =>
    rw [Nat.pow_zero, Nat.lt_one_iff] at h
    rw [h]
    rfl
  | succ k ih =>
    have hdiv : n / b < b ^ k := Nat.div_lt_of_lt_mul (by rwa [← Nat.pow_succ'])
    rw [low, Nat.ofDigits_cons, ih hdiv]
    exact Nat.mod_add_div n b

theorem low_ofDigits {l : List ℕ} (h : ∀ d ∈ l, d < b) : low b l.length (ofDigits b l) = l := by
  induction l with
  | nil => rfl
  | cons d l ih =>
    obtain ⟨hd, hl⟩ := List.forall_mem_cons.mp h
    have hmod : (d + b * ofDigits b l) % b = d := by rw [Nat.add_mul_mod_self_left, Nat.mod_eq_of_lt hd]
    have hdiv : (d + b * ofDigits b l) / b = ofDigits b l := by
      rw [Nat.add_mul_div_left _ _ (Nat.zero_lt_of_lt hd), Nat.div_eq_of_lt hd, Nat.zero_add]
    rw [List.length_cons, low, Nat.ofDigits_cons, hmod, hdiv, ih hl]

end Low

section Bytes

/-- The `k` bytes of `n`, the least significant one first. -/
def bytes (k n : ℕ) : List UInt8 :=
  (low 256 k n).map UInt8.ofNat

/-- The number that the bytes hold, the least significant one first. -/
def word (bs : List UInt8) : ℕ :=
  ofDigits 256 (bs.map UInt8.toNat)

theorem length_bytes (k n : ℕ) : (bytes k n).length = k := by
  rw [bytes, List.length_map, length_low]

theorem word_bytes {k n : ℕ} (h : n < 256 ^ k) : word (bytes k n) = n := by
  have hmap : (low 256 k n).map (UInt8.toNat ∘ UInt8.ofNat) = low 256 k n := by
    conv_rhs => rw [← List.map_id (low 256 k n)]
    exact List.map_congr_left fun d hd ↦ UInt8.toNat_ofNat_of_lt' (lt_of_mem_low (by decide) hd)
  rw [word, bytes, List.map_map, hmap, ofDigits_low h]

theorem bytes_word (bs : List UInt8) : bytes bs.length (word bs) = bs := by
  have h := low_ofDigits (b := 256) (l := bs.map UInt8.toNat) (by
    intro d hd
    obtain ⟨c, -, rfl⟩ := List.mem_map.mp hd
    exact c.toNat_lt)
  rw [List.length_map] at h
  rw [bytes, word, h, List.map_map]
  exact List.map_id'' (fun c ↦ UInt8.ofNat_toNat) bs

theorem word_lt (bs : List UInt8) : word bs < 256 ^ bs.length := by
  have h := Nat.ofDigits_lt_base_pow_length (b := 256) (l := bs.map UInt8.toNat) (by decide) (by
    intro d hd
    obtain ⟨c, -, rfl⟩ := List.mem_map.mp hd
    exact c.toNat_lt)
  rwa [List.length_map] at h

theorem word_reverse_cons (c : UInt8) (bs : List UInt8) :
    word (c :: bs).reverse = word bs.reverse + 256 ^ bs.length * c.toNat := by
  rw [word, List.reverse_cons, List.map_append, Nat.ofDigits_append, List.length_map, List.length_reverse,
    List.map_singleton, Nat.ofDigits_singleton, word]

/-- With the first byte the most significant one, words of one length are in the order of their bytes. -/
theorem word_reverse_lt_iff {a b : List UInt8} (h : a.length = b.length) :
    word a.reverse < word b.reverse ↔ a < b := by
  induction a generalizing b with
  | nil =>
    rw [List.length_nil, eq_comm, List.length_eq_zero_iff] at h
    subst h
    exact iff_of_false (Nat.lt_irrefl _) (List.not_lt_nil _)
  | cons c a ih =>
    match b, h with
    | d :: b, h =>
      have hlen : a.length = b.length := Nat.succ.inj h
      have ha := word_lt a.reverse
      have hb := word_lt b.reverse
      rw [List.length_reverse, hlen] at ha
      rw [List.length_reverse] at hb
      rw [word_reverse_cons, word_reverse_cons, hlen, List.cons_lt_cons_iff, ← ih hlen, UInt8.lt_iff_toNat_lt,
        ← UInt8.toNat_inj]
      rcases Nat.lt_trichotomy c.toNat d.toNat with hcd | hcd | hcd
      · have := Nat.mul_le_mul_left (256 ^ b.length) hcd
        rw [Nat.mul_succ] at this
        exact iff_of_true (by omega) (.inl hcd)
      · rw [hcd]
        omega
      · have := Nat.mul_le_mul_left (256 ^ b.length) hcd
        rw [Nat.mul_succ] at this
        exact iff_of_false (by omega) (by omega)

/-- Strings are compared by the part in which they first differ. -/
theorem append_lt_append_iff {a a' b b' : List UInt8} (h : a.length = a'.length) :
    a ++ b < a' ++ b' ↔ a < a' ∨ a = a' ∧ b < b' := by
  induction a generalizing a' with
  | nil =>
    rw [List.length_nil, eq_comm, List.length_eq_zero_iff] at h
    subst h
    simp
  | cons c a ih =>
    match a', h with
    | d :: a', h =>
      rw [List.cons_append, List.cons_append, List.cons_lt_cons_iff, List.cons_lt_cons_iff, ih (Nat.succ.inj h),
        List.cons.injEq]
      tauto
end Bytes

section Decimal

/-- The character of a digit. -/
def char (d : ℕ) : UInt8 :=
  UInt8.ofNat (d + '0'.toNat)

def isDigit (c : UInt8) : Bool :=
  '0'.toUInt8 ≤ c && c ≤ '9'.toUInt8

/-- The digit of a character. -/
def digit (c : UInt8) : ℕ :=
  c.toNat - '0'.toNat

/-- The number that a string of digits spells. -/
def decimal (s : List UInt8) : ℕ :=
  ofDigits 10 (s.map digit).reverse

theorem digit_char {d : ℕ} (h : d < 10) : digit (char d) = d := by
  interval_cases d <;> rfl

theorem isDigit_char {d : ℕ} (h : d < 10) : isDigit (char d) = true := by
  interval_cases d <;> rfl

theorem decimal_concat (s : List UInt8) (c : UInt8) : decimal (s ++ [c]) = digit c + 10 * decimal s := by
  rw [decimal, List.map_append, List.reverse_append, List.map_singleton, List.reverse_singleton,
    List.singleton_append, Nat.ofDigits_cons, decimal]

theorem digit_lt {c : UInt8} (h : isDigit c = true) : digit c < 10 := by
  rw [isDigit, Bool.and_eq_true, decide_eq_true_eq, decide_eq_true_eq, UInt8.le_iff_toNat_le,
    UInt8.le_iff_toNat_le] at h
  have h9 : '9'.toUInt8.toNat = 57 := rfl
  have h0 : '0'.toNat = 48 := rfl
  rw [digit]
  omega

theorem decimal_lt {s : List UInt8} (h : ∀ c ∈ s, isDigit c = true) : decimal s < 10 ^ s.length := by
  have hlt := Nat.ofDigits_lt_base_pow_length (b := 10) (l := (s.map digit).reverse) (by decide) (by
    intro d hd
    obtain ⟨c, hc, rfl⟩ := List.mem_map.mp (List.mem_reverse.mp hd)
    exact digit_lt (h c hc))
  rwa [List.length_reverse, List.length_map] at hlt

/-- The digits of a number spell it. -/
theorem decimal_low {k n : ℕ} (h : n < 10 ^ k) : decimal ((low 10 k n).reverse.map char) = n := by
  have hmap : (low 10 k n).map (digit ∘ char) = low 10 k n := by
    conv_rhs => rw [← List.map_id (low 10 k n)]
    exact List.map_congr_left fun d hd ↦ digit_char (lt_of_mem_low (by decide) hd)
  rw [decimal, List.map_map, List.map_reverse, List.reverse_reverse, hmap, ofDigits_low h]

theorem isDigit_low (k n : ℕ) : ∀ c ∈ (low 10 k n).reverse.map char, isDigit c = true := by
  intro c hc
  obtain ⟨d, hd, rfl⟩ := List.mem_map.mp hc
  exact isDigit_char (lt_of_mem_low (by decide) (List.mem_reverse.mp hd))

end Decimal

end Taiyi.Library.Digits
