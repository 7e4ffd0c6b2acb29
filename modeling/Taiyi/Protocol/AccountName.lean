import Mathlib.Data.List.GetD
import Mathlib.Tactic.Common

set_option autoImplicit false

namespace Taiyi.Protocol

namespace AccountName

def taiyiMinAccountNameLength : ℕ := 3

def taiyiMaxAccountNameLength : ℕ := 16

def dot : UInt8 := '.'.toUInt8

def isLetter (c : UInt8) : Bool :=
  ('a'.toUInt8 ≤ c && c ≤ 'z'.toUInt8) || ('A'.toUInt8 ≤ c && c ≤ 'Z'.toUInt8)

def isLetterOrDigit (c : UInt8) : Bool :=
  isLetter c || ('0'.toUInt8 ≤ c && c ≤ '9'.toUInt8)

def isLabelChar (c : UInt8) : Bool :=
  isLetterOrDigit c || c == '-'.toUInt8

/-- `str.find_first_of( c, begin )`. -/
def findFirstOf (str : List UInt8) (c : UInt8) (start : ℕ) : Option ℕ :=
  ((str.drop start).findIdx? (· == c)).map (start + ·)

/-- Where the label that begins at `start` ends. -/
def labelEnd (str : List UInt8) (start : ℕ) : ℕ :=
  (findFirstOf str dot start).getD str.length

theorem labelEnd_eq {str : List UInt8} {start : ℕ} (h : start ≤ str.length) :
    labelEnd str start = start + (str.drop start).findIdx (· == dot) := by
  have hlen : (str.drop start).length = str.length - start := List.length_drop
  rw [labelEnd, findFirstOf, List.findIdx_eq_getD_findIdx?]
  cases (str.drop start).findIdx? (· == dot) with
  | none =>
    simp only [Option.map_none, Option.getD_none]
    omega
  | some i => rfl

theorem labelEnd_le (str : List UInt8) (start : ℕ) : labelEnd str start ≤ str.length := by
  by_cases h : start ≤ str.length
  · have hle : (str.drop start).findIdx (· == dot) ≤ (str.drop start).length := List.findIdx_le_length
    rw [List.length_drop] at hle
    rw [labelEnd_eq h]
    omega
  · rw [labelEnd, findFirstOf, List.drop_eq_nil_of_le (Nat.le_of_not_le h)]
    exact Nat.le_refl _

/-- The turns of the scan from the label at `start` on. Behind its last byte a string reads
a zero. -/
def isValidRfc1035From (str : List UInt8) (start : ℕ) : Bool :=
  if labelEnd str start - start < 3 then false
  else if !isLetter (str.getD start 0) then false
  else if !isLetterOrDigit (str.getD (labelEnd str start - 1) 0) then false
  else if (List.range' (start + 1) (labelEnd str start - 1 - (start + 1))).any
      fun i ↦ !isLabelChar (str.getD i 0) then false
  else if labelEnd str start = str.length then true
  else isValidRfc1035From str (labelEnd str start + 1)
termination_by str.length - start
decreasing_by
  have := labelEnd_le str start
  omega

def isValidRfc1035 (str : List UInt8) : Bool :=
  isValidRfc1035From str 0

def isValidAccountName (name : List UInt8) : Bool :=
  if name.length < taiyiMinAccountNameLength then false
  else if name.length > taiyiMaxAccountNameLength then false
  else isValidRfc1035 name

/-- A label of a name. -/
structure Label (l : List UInt8) : Prop where
  long : 3 ≤ l.length
  first : ∀ c ∈ l.head?, isLetter c
  last : ∀ c ∈ l.getLast?, isLetterOrDigit c
  chars : ∀ c ∈ l, isLabelChar c

/-- Labels that are joined by dots. -/
def Labels (str : List UInt8) : Prop :=
  ∃ labels, labels ≠ [] ∧ (∀ l ∈ labels, Label l) ∧ [dot].intercalate labels = str

/-- An account name by the grammar. -/
structure Grammar (name : List UInt8) : Prop where
  min : taiyiMinAccountNameLength ≤ name.length
  max : name.length ≤ taiyiMaxAccountNameLength
  labels : Labels name

theorem not_isLabelChar_dot : isLabelChar dot = false := by decide

theorem isLabelChar_of_letterOrDigit {c : UInt8} (h : isLetterOrDigit c) : isLabelChar c := by
  rw [isLabelChar, h, Bool.true_or]

theorem isLabelChar_of_letter {c : UInt8} (h : isLetter c) : isLabelChar c :=
  isLabelChar_of_letterOrDigit (by rw [isLetterOrDigit, h, Bool.true_or])

theorem Label.dot_notMem {l : List UInt8} (h : Label l) : dot ∉ l := by
  intro hd
  have := h.chars dot hd
  rw [not_isLabelChar_dot] at this
  cases this

/-- The tests that one turn of the scan makes, by the positions within the label. -/
theorem label_iff {l : List UInt8} : Label l ↔ ¬l.length < 3 ∧ isLetter (l.getD 0 0) ∧
    isLetterOrDigit (l.getD (l.length - 1) 0) ∧
    ∀ i, 0 < i → i < l.length - 1 → isLabelChar (l.getD i 0) := by
  constructor
  · intro h
    have hlong := h.long
    have hmem : ∀ i (hi : i < l.length), l.getD i 0 ∈ l := fun i hi ↦ by
      rw [List.getD_eq_getElem _ _ hi]
      exact List.getElem_mem hi
    refine ⟨by omega, h.first _ ?_, h.last _ ?_, fun i _ hi ↦ h.chars _ (hmem i (by omega))⟩
    · rw [List.head?_eq_getElem?, List.getD_eq_getElem _ _ (by omega), List.getElem?_eq_getElem (by omega)]
      rfl
    · rw [List.getLast?_eq_getElem?, List.getD_eq_getElem _ _ (by omega),
        List.getElem?_eq_getElem (by omega)]
      rfl
  · rintro ⟨hlong, hfirst, hlast, hinner⟩
    refine ⟨by omega, ?_, ?_, ?_⟩
    · intro c hc
      rw [List.head?_eq_getElem?, List.getElem?_eq_getElem (by omega), Option.mem_some_iff] at hc
      rwa [List.getD_eq_getElem _ _ (by omega), hc] at hfirst
    · intro c hc
      rw [List.getLast?_eq_getElem?, List.getElem?_eq_getElem (by omega), Option.mem_some_iff] at hc
      rwa [List.getD_eq_getElem _ _ (by omega), hc] at hlast
    · intro c hc
      obtain ⟨i, hi, rfl⟩ := List.getElem_of_mem hc
      rw [← List.getD_eq_getElem l 0 hi]
      by_cases h0 : i = 0
      · rw [h0]
        exact isLabelChar_of_letter hfirst
      by_cases h1 : i = l.length - 1
      · rw [h1]
        exact isLabelChar_of_letterOrDigit hlast
      · exact hinner i (by omega) (by omega)

/-- A string of labels is one label, or one label before a dot and more of them. -/
theorem labels_iff {l : List UInt8} (hl : dot ∉ l) :
    (Labels l ↔ Label l) ∧ ∀ rest, Labels (l ++ dot :: rest) ↔ Label l ∧ Labels rest := by
  have hsplit : ∀ str, Labels str ↔ ∀ l ∈ str.splitOn dot, Label l := by
    intro str
    constructor
    · rintro ⟨labels, hne, hall, rfl⟩
      rwa [List.splitOn_intercalate _ (fun l hl ↦ (hall l hl).dot_notMem) hne]
    · exact fun h ↦ ⟨str.splitOn dot, List.splitOn_ne_nil _ _, h, List.intercalate_splitOn dot⟩
  constructor
  · rw [hsplit, List.splitOn_eq_singleton hl, List.forall_mem_singleton]
  · intro rest
    rw [hsplit, hsplit, List.splitOn_append_cons_self_of_not_mem hl, List.forall_mem_cons]

/-- The label that begins at `start`. -/
def labelAt (str : List UInt8) (start : ℕ) : List UInt8 :=
  (str.drop start).take (labelEnd str start - start)

section Scan

variable {str : List UInt8} {start : ℕ}

theorem length_labelAt (h : start ≤ str.length) :
    (labelAt str start).length = labelEnd str start - start := by
  have hle := labelEnd_le str start
  rw [labelAt, List.length_take, List.length_drop]
  omega

theorem getD_labelAt {i : ℕ} (h : start ≤ str.length) (hi : i < (labelAt str start).length) :
    (labelAt str start).getD i 0 = str.getD (start + i) 0 := by
  have hlen := length_labelAt h
  have hle := labelEnd_le str start
  rw [List.getD_eq_getElem _ _ hi, List.getD_eq_getElem _ _ (by omega)]
  simp only [labelAt, List.getElem_take, List.getElem_drop]

theorem dot_notMem_labelAt (h : start ≤ str.length) : dot ∉ labelAt str start := by
  intro hd
  obtain ⟨i, hi, heq⟩ := List.getElem_of_mem hd
  have hlen := length_labelAt h
  rw [labelEnd_eq h, Nat.add_sub_cancel_left] at hlen
  have hlt : i < (str.drop start).findIdx (· == dot) := by omega
  have hnot := List.not_of_lt_findIdx hlt
  simp only [labelAt, List.getElem_take] at heq
  simp [heq] at hnot

/-- Below a label there is nothing, or a dot and the rest. -/
theorem drop_eq (h : start ≤ str.length) : str.drop start =
    if labelEnd str start = str.length then labelAt str start
    else labelAt str start ++ dot :: str.drop (labelEnd str start + 1) := by
  have hlen : (str.drop start).length = str.length - start := List.length_drop
  have heq := labelEnd_eq h
  split
  · next hend => rw [labelAt, List.take_of_length_le (by omega)]
  · next hend =>
    have hle := labelEnd_le str start
    have hlt : (str.drop start).findIdx (· == dot) < (str.drop start).length := by omega
    have hget : labelEnd str start < str.length := by omega
    have hdot : str[labelEnd str start] = dot := by
      have := List.findIdx_getElem (w := hlt)
      rw [List.getElem_drop] at this
      simpa [heq] using this
    calc str.drop start
        = labelAt str start ++ (str.drop start).drop (labelEnd str start - start) :=
          (List.take_append_drop _ _).symm
      _ = labelAt str start ++ str.drop (labelEnd str start) := by
          rw [List.drop_drop, Nat.add_sub_cancel' (by omega)]
      _ = labelAt str start ++ dot :: str.drop (labelEnd str start + 1) := by
          rw [List.drop_eq_getElem_cons (by omega), hdot]

/-- One turn of the scan tests its label. -/
theorem isValidRfc1035From_eq (h : start ≤ str.length) : isValidRfc1035From str start = true ↔
    Label (labelAt str start) ∧
      (labelEnd str start = str.length ∨ isValidRfc1035From str (labelEnd str start + 1) = true) := by
  have hlen := length_labelAt h
  rw [label_iff, isValidRfc1035From]
  by_cases hlong : labelEnd str start - start < 3
  · rw [if_pos hlong]
    exact iff_of_false Bool.false_ne_true fun hall ↦ hall.1.1 (hlen ▸ hlong)
  have hend : start + ((labelAt str start).length - 1) = labelEnd str start - 1 := by omega
  have hfirst : (labelAt str start).getD 0 0 = str.getD start 0 := getD_labelAt h (by omega)
  have hlast : (labelAt str start).getD ((labelAt str start).length - 1) 0 =
      str.getD (labelEnd str start - 1) 0 := by rw [getD_labelAt h (by omega), hend]
  have hinner : (List.range' (start + 1) (labelEnd str start - 1 - (start + 1))).any
      (fun i ↦ !isLabelChar (str.getD i 0)) = false ↔
      ∀ i, 0 < i → i < (labelAt str start).length - 1 → isLabelChar ((labelAt str start).getD i 0) := by
    simp only [List.any_eq_false, List.mem_range'_1, Bool.not_eq_true, Bool.not_eq_false']
    constructor
    · intro hall i hi hlt
      rw [getD_labelAt h (by omega)]
      exact hall _ ⟨by omega, by omega⟩
    · rintro hall i ⟨hi, hlt⟩
      have := hall (i - start) (by omega) (by omega)
      rwa [getD_labelAt h (by omega), Nat.add_sub_cancel' (by omega)] at this
  rw [if_neg hlong, hfirst, hlast, ← hinner, hlen]
  simp only [Bool.if_false_left, Bool.if_true_left, Bool.and_eq_true, Bool.or_eq_true,
    Bool.not_eq_true', decide_eq_true_eq, decide_eq_false_iff_not, Bool.not_eq_false, Bool.not_eq_true,
    hlong, not_false_eq_true, true_and, and_assoc]

/-- From any label on, the scan accepts the strings of labels. -/
theorem isValidRfc1035From_iff (h : start ≤ str.length) :
    isValidRfc1035From str start = true ↔ Labels (str.drop start) := by
  induction hn : str.length - start using Nat.strongRecOn generalizing start with
  | _ n ih =>
    have hdot := dot_notMem_labelAt h
    rw [isValidRfc1035From_eq h, drop_eq h]
    by_cases hend : labelEnd str start = str.length
    · rw [if_pos hend, (labels_iff hdot).1]
      exact and_iff_left (.inl hend)
    · have hle := labelEnd_le str start
      have hge : start ≤ labelEnd str start := by
        rw [labelEnd_eq h]
        exact Nat.le_add_right _ _
      rw [if_neg hend, (labels_iff hdot).2 _, or_iff_right hend,
        ih (str.length - (labelEnd str start + 1)) (by omega) (by omega) rfl]

end Scan

theorem isValidRfc1035_iff {str : List UInt8} : isValidRfc1035 str = true ↔ Labels str :=
  isValidRfc1035From_iff (Nat.zero_le _)

theorem isValidAccountName_iff_grammar {name : List UInt8} :
    isValidAccountName name = true ↔ Grammar name := by
  unfold isValidAccountName
  split
  · next h => exact iff_of_false Bool.false_ne_true fun hg ↦ absurd hg.min (by omega)
  · next hmin =>
    split
    · next h => exact iff_of_false Bool.false_ne_true fun hg ↦ absurd hg.max (by omega)
    · next hmax =>
      rw [isValidRfc1035_iff]
      exact ⟨fun h ↦ ⟨by omega, by omega, h⟩, Grammar.labels⟩

/-- No piece between two dots of a name is empty, nor the ones before the first and after the
last. -/
theorem Labels.ne_append {name a b : List UInt8} (h : Labels name) :
    name ≠ dot :: b ∧ name ≠ a ++ [dot] ∧ name ≠ a ++ dot :: dot :: b := by
  obtain ⟨labels, hne, hall, rfl⟩ := h
  have hsplit := List.splitOn_intercalate dot (fun l hl ↦ (hall l hl).dot_notMem) hne
  have hnil : [] ∉ labels := fun hmem ↦ absurd (hall [] hmem).long (by decide)
  refine ⟨?_, ?_, ?_⟩ <;> intro heq <;> rw [heq] at hsplit <;> refine hnil (hsplit ▸ ?_)
  · rw [← List.nil_append (dot :: b), List.splitOn_append_cons_self, List.splitOn_nil]
    exact List.mem_cons_self
  · rw [List.splitOn_append_cons_self, List.splitOn_nil]
    exact List.mem_append_right _ List.mem_cons_self
  · rw [List.splitOn_append_cons_self, ← List.nil_append (dot :: b), List.splitOn_append_cons_self,
      List.splitOn_nil]
    exact List.mem_append_right _ List.mem_cons_self

/-- The scan ends for every string, and accepts the strings of the grammar alone. -/
theorem isValidAccountName_iff (name : List UInt8) :
    (isValidAccountName name = true ↔ Grammar name) ∧
      ∀ a b, name = dot :: b ∨ name = a ++ [dot] ∨ name = a ++ dot :: dot :: b →
        isValidAccountName name = false := by
  refine ⟨isValidAccountName_iff_grammar, fun a b h ↦ ?_⟩
  rw [← Bool.not_eq_true, isValidAccountName_iff_grammar]
  intro hg
  obtain ⟨hfirst, hlast, hinner⟩ := hg.labels.ne_append (a := a) (b := b)
  rcases h with h | h | h
  · exact hfirst h
  · exact hlast h
  · exact hinner h

end AccountName

end Taiyi.Protocol
