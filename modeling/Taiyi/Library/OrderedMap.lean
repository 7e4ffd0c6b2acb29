import Mathlib.Data.List.Pairwise
import Mathlib.Order.Defs.Unbundled
import Mathlib.Data.Nat.Notation
import Mathlib.Tactic.ByContra

set_option autoImplicit false

/-! Maps kept as lists of entries, ordered by a comparison of the keys that need not tell every two
keys apart. -/

namespace Taiyi.Library.OrderedMap

variable {K V : Type} (lt : K → K → Bool)

/-- Neither key comes before the other: they stand for one entry. -/
def equiv (a b : K) : Bool := !lt a b && !lt b a

def find (m : List (K × V)) (k : K) : Option V := (m.find? fun e ↦ equiv lt e.1 k).map Prod.snd

/-- The entry of a key gets a new value and keeps the key it has. -/
def assign : List (K × V) → K → V → List (K × V)
  | [], k, v => [(k, v)]
  | e :: m, k, v =>
    if lt e.1 k then e :: assign m k v
    else if lt k e.1 then (k, v) :: e :: m
    else (e.1, v) :: m

/-- The first value under a key stays. -/
def insert (m : List (K × V)) (k : K) (v : V) : List (K × V) := if (find lt m k).isSome then m else assign lt m k v

def erase (m : List (K × V)) (k : K) : List (K × V) := m.filter fun e ↦ !equiv lt e.1 k

/-- The order in which a map keeps its entries. -/
def Sorted (m : List (K × V)) : Prop := m.Pairwise fun e e' ↦ lt e.1 e'.1

section Equiv

variable {lt} [order : IsStrictWeakOrder K fun a b ↦ lt a b = true] {a b c : K}

omit order in
theorem equiv_iff : equiv lt a b = true ↔ ¬lt a b = true ∧ ¬lt b a = true := by simp [equiv]

omit order in
theorem equiv_comm : equiv lt a b = equiv lt b a := Bool.and_comm ..

theorem equiv_refl (a : K) : equiv lt a a = true := by
  rw [equiv_iff]
  exact ⟨order.irrefl a, order.irrefl a⟩

theorem equiv_trans (h : equiv lt a b = true) (h' : equiv lt b c = true) : equiv lt a c = true := by
  rw [equiv_iff] at *
  exact order.incomp_trans a b c h h'

/-- Equivalent keys are equivalent to the same keys. -/
theorem equiv_congr (h : equiv lt a b = true) : equiv lt a c = equiv lt b c := by
  rw [Bool.eq_iff_iff]
  exact ⟨equiv_trans (equiv_comm.trans h), equiv_trans h⟩

omit order in
theorem equiv_of_lt (h : lt a b = true) : equiv lt a b = false := by simp [equiv, h]

end Equiv

section Find

variable {lt} {m : List (K × V)} {e : K × V} {a b k : K} {v w : V}

theorem find_nil : find lt ([] : List (K × V)) k = none := rfl

theorem find_cons : find lt (e :: m) k = if equiv lt e.1 k then some e.2 else find lt m k := by
  rw [find, List.find?_cons]
  cases equiv lt e.1 k <;> rfl

theorem mem_of_find (h : find lt m k = some v) : ∃ a, (a, v) ∈ m ∧ equiv lt a k = true := by
  obtain ⟨⟨a, w⟩, hfind, rfl⟩ := Option.map_eq_some_iff.mp h
  exact ⟨a, List.mem_of_find?_eq_some hfind, by simpa using List.find?_some hfind⟩

theorem find_eq_none_iff : find lt m k = none ↔ ∀ e ∈ m, equiv lt e.1 k = false := by
  simp [find]

theorem erase_of_find (h : find lt m k = none) : erase lt m k = m :=
  List.filter_eq_self.mpr fun e he ↦ by rw [find_eq_none_iff.mp h e he]; rfl

variable [order : IsStrictWeakOrder K fun a b ↦ lt a b = true]

theorem find_assign (m : List (K × V)) (a : K) (v : V) (k : K) :
    find lt (assign lt m a v) k = if equiv lt a k then some v else find lt m k := by
  induction m with
  | nil => rw [assign, find_cons]
  | cons e m ih =>
    rw [assign]
    split
    · next hlt =>
      rw [find_cons, find_cons, ih]
      by_cases hek : equiv lt e.1 k = true
      · have hak : ¬equiv lt a k = true := fun hak ↦ by
          have := equiv_trans hek (equiv_comm.trans hak)
          rw [equiv_of_lt hlt] at this
          exact absurd this (by simp)
        rw [if_pos hek, if_neg hak, if_pos hek]
      · rw [if_neg hek, if_neg hek]
    · split
      · rw [find_cons]
      · next hea hae =>
        have heq : equiv lt e.1 a = true := equiv_iff.mpr ⟨hea, hae⟩
        rw [find_cons, find_cons, equiv_congr heq]
        split <;> rfl

theorem find_erase (m : List (K × V)) (a k : K) :
    find lt (erase lt m a) k = if equiv lt a k then none else find lt m k := by
  induction m with
  | nil => simp [erase, find_nil]
  | cons e m ih =>
    rw [erase] at ih
    rw [erase, List.filter_cons, find_cons]
    by_cases hea : equiv lt e.1 a = true
    · rw [if_neg (by simp [hea]), ih, equiv_congr hea]
      split <;> rfl
    · rw [if_pos (by simp [hea]), find_cons, ih]
      by_cases hek : equiv lt e.1 k = true
      · have hak : ¬equiv lt a k = true := fun hak ↦ hea (equiv_trans hek (equiv_comm.trans hak))
        rw [if_pos hek, if_neg hak, if_pos hek]
      · rw [if_neg hek, if_neg hek]

end Find

section Sorted

variable {lt} {m : List (K × V)} {e : K × V} {k : K} {v : V} [order : IsStrictWeakOrder K fun a b ↦ lt a b = true]

theorem mem_assign (h : e ∈ assign lt m k v) : e ∈ m ∨ e.2 = v ∧ equiv lt e.1 k = true := by
  induction m with
  | nil =>
    obtain rfl := List.mem_singleton.mp h
    exact .inr ⟨rfl, equiv_refl k⟩
  | cons e' m ih =>
    rw [assign] at h
    split at h
    · obtain rfl | h := List.mem_cons.mp h
      · exact .inl List.mem_cons_self
      · exact (ih h).imp_left (List.mem_cons_of_mem _)
    · split at h
      · obtain rfl | h := List.mem_cons.mp h
        · exact .inr ⟨rfl, equiv_refl k⟩
        · exact .inl h
      · next hlt hgt =>
        obtain rfl | h := List.mem_cons.mp h
        · exact .inr ⟨rfl, equiv_iff.mpr ⟨hlt, hgt⟩⟩
        · exact .inl (List.mem_cons_of_mem _ h)

theorem lt_of_lt_of_equiv {a b c : K} (h : lt a b = true) (h' : equiv lt b c = true) : lt a c = true := by
  by_contra hac
  by_cases hca : lt c a = true
  · exact (equiv_iff.mp h').2 (order.trans c a b hca h)
  · have heq := equiv_trans (equiv_iff.mpr ⟨hac, hca⟩) (equiv_comm.trans h')
    rw [equiv_of_lt h] at heq
    exact absurd heq (by simp)

theorem sorted_assign (h : Sorted lt m) : Sorted lt (assign lt m k v) := by
  induction m with
  | nil => exact List.pairwise_singleton ..
  | cons e m ih =>
    have hhead := fun e' (he' : e' ∈ m) ↦ List.rel_of_pairwise_cons h he'
    rw [assign]
    split
    · next hlt =>
      refine List.pairwise_cons.mpr ⟨fun e' he' ↦ ?_, ih h.of_cons⟩
      obtain hmem | ⟨-, heq⟩ := mem_assign he'
      · exact hhead e' hmem
      · exact lt_of_lt_of_equiv hlt (equiv_comm.trans heq)
    · split
      · next hlt =>
        refine List.pairwise_cons.mpr ⟨fun e' he' ↦ ?_, h⟩
        obtain rfl | hmem := List.mem_cons.mp he'
        · exact hlt
        · exact order.trans _ _ _ hlt (hhead e' hmem)
      · exact List.pairwise_cons.mpr ⟨hhead, h.of_cons⟩

/-- Only the last value written under a key is kept. -/
theorem assign_assign (m : List (K × V)) (k : K) (v w : V) :
    assign lt (assign lt m k v) k w = assign lt m k w := by
  have hirrefl : ¬lt k k = true := order.irrefl k
  induction m with
  | nil => simp only [assign, if_neg hirrefl]
  | cons e m ih =>
    rw [assign, assign]
    split
    · next hlt => rw [assign, if_pos hlt, ih]
    · next hlt =>
      split
      · rw [assign, if_neg hirrefl, if_neg hirrefl]
      · next hgt => rw [assign, if_neg hlt, if_neg hgt]

/-- An entry of a sorted map is the one that is found. -/
theorem find_of_mem (h : Sorted lt m) (he : e ∈ m) : find lt m e.1 = some e.2 := by
  induction m with
  | nil => exact absurd he List.not_mem_nil
  | cons e' m ih =>
    rw [find_cons]
    obtain rfl | hmem := List.mem_cons.mp he
    · rw [if_pos (equiv_refl _)]
    · rw [if_neg (by rw [equiv_of_lt (List.rel_of_pairwise_cons h hmem)]; simp), ih h.of_cons hmem]

/-- A key that comes before the first entry is not found. -/
theorem find_of_lt (h : Sorted lt (e :: m)) (hlt : lt k e.1 = true) : find lt (e :: m) k = none := by
  refine find_eq_none_iff.mpr fun e' he' ↦ ?_
  rw [equiv_comm]
  obtain rfl | hmem := List.mem_cons.mp he'
  · exact equiv_of_lt hlt
  · exact equiv_of_lt (order.trans _ _ _ hlt (List.rel_of_pairwise_cons h hmem))

/-- Writing what is there changes nothing. -/
theorem assign_of_find (h : Sorted lt m) (hfind : find lt m k = some v) : assign lt m k v = m := by
  induction m with
  | nil => cases hfind
  | cons e m ih =>
    rw [assign]
    split
    · next hlt =>
      rw [find_cons, if_neg (by rw [equiv_of_lt hlt]; simp)] at hfind
      rw [ih h.of_cons hfind]
    · split
      · next hlt =>
        rw [find_of_lt h hlt] at hfind
        cases hfind
      · next hlt hgt =>
        rw [find_cons, if_pos (equiv_iff.mpr ⟨hlt, hgt⟩), Option.some.injEq] at hfind
        rw [← hfind]

end Sorted

section Fill

variable {lt} {m l : List (K × V)} {k : K} {v : V}

/-- No two entries stand for one. -/
def Apart (lt : K → K → Bool) (l : List (K × V)) : Prop := l.Pairwise fun e e' ↦ ¬equiv lt e.1 e'.1 = true

theorem Apart.ne {e e' : K × V} (h : Apart lt l) (he : e ∈ l) (he' : e' ∈ l) (hne : e ≠ e') :
    ¬equiv lt e.1 e'.1 = true :=
  have : Std.Symm fun e e' : K × V ↦ ¬equiv lt e.1 e'.1 = true := ⟨fun _ _ h ↦ by rwa [equiv_comm]⟩
  List.Pairwise.forall h he he' hne

theorem Apart.perm {l' : List (K × V)} (h : Apart lt l) (hperm : l.Perm l') : Apart lt l' :=
  (hperm.pairwise_iff fun h ↦ by rwa [equiv_comm]).mp h

theorem Sorted.apart (h : Sorted lt m) : Apart lt m :=
  List.Pairwise.imp (fun hlt heq ↦ by rw [equiv_of_lt hlt] at heq; cases heq) h

theorem perm_assign (h : find lt m k = none) : (assign lt m k v).Perm ((k, v) :: m) := by
  induction m with
  | nil => exact .refl _
  | cons e m ih =>
    have hne := find_eq_none_iff.mp h
    rw [assign]
    split
    · have hrest : find lt m k = none := find_eq_none_iff.mpr fun e' he' ↦ hne e' (List.mem_cons_of_mem _ he')
      exact ((ih hrest).cons e).trans (.swap ..)
    · next hlt =>
      split
      · exact .refl _
      · next hgt =>
        have heq := hne e List.mem_cons_self
        rw [equiv_iff.mpr ⟨hlt, hgt⟩] at heq
        cases heq

/-- A map has no entries but those it gets. -/
theorem mem_of_mem_fill {e : K × V} (h : e ∈ l.foldl (fun m e ↦ insert lt m e.1 e.2) m) : e ∈ l ∨ e ∈ m := by
  induction l generalizing m with
  | nil => exact .inr h
  | cons e' l ih =>
    obtain h | h := ih h
    · exact .inl (List.mem_cons_of_mem _ h)
    · change e ∈ insert lt m e'.1 e'.2 at h
      unfold insert at h
      split at h
      · exact .inr h
      · next hnew =>
        have hperm := perm_assign (v := e'.2) (Option.not_isSome_iff_eq_none.mp hnew)
        obtain rfl | h := List.mem_cons.mp (hperm.mem_iff.mp h)
        · exact .inl List.mem_cons_self
        · exact .inr h

variable [order : IsStrictWeakOrder K fun a b ↦ lt a b = true]

theorem sorted_insert (h : Sorted lt m) : Sorted lt (insert lt m k v) := by
  unfold insert
  split
  · exact h
  · exact sorted_assign h

theorem sorted_fill (l : List (K × V)) (h : Sorted lt m) :
    Sorted lt (l.foldl (fun m e ↦ insert lt m e.1 e.2) m) := by
  induction l generalizing m with
  | nil => exact h
  | cons e l ih => exact ih (sorted_insert h)

/-- Entries of which no two stand for one are all kept. -/
theorem perm_fill (h : Apart lt l) (hm : ∀ e ∈ l, find lt m e.1 = none) :
    (l.foldl (fun m e ↦ insert lt m e.1 e.2) m).Perm (l ++ m) := by
  induction l generalizing m with
  | nil => exact .refl _
  | cons e l ih =>
    have hnew := hm e List.mem_cons_self
    have hassign : insert lt m e.1 e.2 = assign lt m e.1 e.2 := if_neg (by simp [hnew])
    rw [List.foldl_cons, hassign]
    refine (ih h.of_cons fun e' he' ↦ ?_).trans (((perm_assign hnew).append_left l).trans List.perm_middle)
    rw [find_assign, if_neg (List.rel_of_pairwise_cons h he')]
    exact hm e' (List.mem_cons_of_mem _ he')

/-- A map that gets its entries in any order is the same map. -/
theorem fill_of_perm (h : Sorted lt m) (hperm : l.Perm m) :
    l.foldl (fun m e ↦ insert lt m e.1 e.2) [] = m := by
  have hfill := perm_fill (h.apart.perm hperm.symm) (m := []) fun _ _ ↦ find_nil
  rw [List.append_nil] at hfill
  refine List.Perm.eq_of_pairwise (fun e e' _ _ hlt hgt ↦ ?_) (sorted_fill l List.Pairwise.nil) h (hfill.trans hperm)
  exact absurd (order.trans _ _ _ hlt hgt) (order.irrefl _)

end Fill

section Seek

variable {lt} {m : List (K × V)} {k : K} [order : IsStrictWeakOrder K fun a b ↦ lt a b = true]

/-- The entries from a key on. -/
def seek (lt : K → K → Bool) (m : List (K × V)) (k : K) : List (K × V) := m.dropWhile fun e ↦ lt e.1 k

/-- The entries before a key. -/
def below (lt : K → K → Bool) (m : List (K × V)) (k : K) : List (K × V) := m.takeWhile fun e ↦ lt e.1 k

theorem seek_eq_filter (h : Sorted lt m) : seek lt m k = m.filter fun e ↦ !lt e.1 k := by
  induction m with
  | nil => rfl
  | cons e m ih =>
    obtain ⟨he, hm⟩ := List.pairwise_cons.mp h
    rw [seek, List.dropWhile_cons, List.filter_cons]
    by_cases hlt : lt e.1 k = true
    · rw [if_pos hlt, if_neg (by simp [hlt])]
      exact ih hm
    · rw [if_neg hlt, if_pos (by simp [hlt])]
      have hall : ∀ e' ∈ m, (!lt e'.1 k) = true := fun e' he' ↦ by
        rw [Bool.not_eq_true']
        exact Bool.eq_false_iff.mpr fun hk ↦ hlt (order.trans _ _ _ (he e' he') hk)
      rw [List.filter_eq_self.mpr hall]

theorem below_eq_filter (h : Sorted lt m) : below lt m k = m.filter fun e ↦ lt e.1 k := by
  induction m with
  | nil => rfl
  | cons e m ih =>
    obtain ⟨he, hm⟩ := List.pairwise_cons.mp h
    rw [below, List.takeWhile_cons, List.filter_cons]
    by_cases hlt : lt e.1 k = true
    · rw [if_pos hlt, if_pos hlt]
      exact congrArg (List.cons e) (ih hm)
    · rw [if_neg hlt, if_neg hlt]
      refine (List.filter_eq_nil_iff.mpr fun e' he' hk ↦ ?_).symm
      exact hlt (order.trans _ _ _ (he e' he') hk)

omit order in
theorem Sorted.filter {p : K × V → Bool} (h : Sorted lt m) : Sorted lt (m.filter p) :=
  List.Pairwise.filter _ h

end Seek

end Taiyi.Library.OrderedMap
