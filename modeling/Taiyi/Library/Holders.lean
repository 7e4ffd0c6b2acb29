import Mathlib.Data.Finset.Card

set_option autoImplicit false

namespace Taiyi.Library

variable {ι α : Type} {P : ι → Prop} {own own' : ι → Option α} {pool r a b : α}

/-- The tokens with `P` go to one new owner, and the others stay where they are. -/
structure Moved (P : ι → Prop) (r : α) (own own' : ι → Option α) : Prop where
  moved : ∀ i, P i → own' i = (own i).map fun _ ↦ r
  kept : ∀ i, ¬P i → own' i = own i

theorem Moved.of_eq (h : ∀ i, own' i = own i) : Moved (fun _ ↦ False) r own own' :=
  ⟨nofun, fun i _ ↦ h i⟩

/-- The last token of an owner goes to another. The pool is not counted as an owner. -/
def Loses (pool : α) (own : ι → Option α) (P : ι → Prop) (r a : α) : Prop :=
  a ≠ pool ∧ a ≠ r ∧ (∃ i, own i = some a) ∧ ∀ i, own i = some a → P i

/-- The new owner had no token, and is not the pool. -/
def Gains (pool : α) (own : ι → Option α) (P : ι → Prop) (r : α) : Prop :=
  r ≠ pool ∧ (∀ i, own i ≠ some r) ∧ ∃ i, P i ∧ own i ≠ none

/-- The owners of tokens, apart from the pool. -/
def Holders (pool : α) (own : ι → Option α) (H : Finset α) : Prop :=
  ∀ a, a ∈ H ↔ a ≠ pool ∧ ∃ i, own i = some a

section Moved

variable {H H' : Finset α}

theorem mem_holders_moved (hH : Holders pool own H) (hH' : Holders pool own' H')
    (hm : Moved P r own own') :
    a ∈ H' ↔ a ∈ H ∧ ¬Loses pool own P r a ∨ a = r ∧ Gains pool own P r := by
  rw [hH', hH]
  constructor
  · rintro ⟨hpool, i, hi⟩
    by_cases hP : P i
    · -- a token that has come to the new owner
      rw [hm.moved i hP] at hi
      obtain ⟨o, ho, rfl⟩ := Option.map_eq_some_iff.mp hi
      by_cases hheld : ∃ j, own j = some r
      · exact .inl ⟨⟨hpool, hheld⟩, fun hloses ↦ hloses.2.1 rfl⟩
      · exact .inr ⟨rfl, hpool, not_exists.mp hheld, i, hP, by simp [ho]⟩
    · rw [hm.kept i hP] at hi
      exact .inl ⟨⟨hpool, i, hi⟩, fun hloses ↦ hP (hloses.2.2.2 i hi)⟩
  · rintro (⟨⟨hpool, i, hi⟩, hkeeps⟩ | ⟨rfl, hpool, -, i, hP, hi⟩)
    · refine ⟨hpool, ?_⟩
      by_cases hr : a = r
      · subst hr
        by_cases hP : P i
        · exact ⟨i, by rw [hm.moved i hP, hi, Option.map_some]⟩
        · exact ⟨i, (hm.kept i hP).trans hi⟩
      · by_contra hnone
        refine hkeeps ⟨hpool, hr, ⟨i, hi⟩, fun j hj ↦ ?_⟩
        by_contra hP
        exact hnone ⟨j, (hm.kept j hP).trans hj⟩
    · obtain ⟨o, ho⟩ := Option.ne_none_iff_exists'.mp hi
      exact ⟨hpool, i, by rw [hm.moved i hP, ho, Option.map_some]⟩

theorem card_holders_gains (hH : Holders pool own H) (hH' : Holders pool own' H')
    (hm : Moved P r own own') (hgains : Gains pool own P r) (hkeeps : ∀ a, ¬Loses pool own P r a) :
    H'.card = H.card + 1 := by
  have hnotMem : r ∉ H := fun h ↦ by
    obtain ⟨-, i, hi⟩ := (hH r).mp h
    exact hgains.2.1 i hi
  rw [← Finset.card_cons hnotMem]
  congr 1
  ext a
  rw [mem_holders_moved hH hH' hm, Finset.mem_cons, and_iff_left (hkeeps a), and_iff_left hgains,
    or_comm]

theorem card_holders_loses (hH : Holders pool own H) (hH' : Holders pool own' H')
    (hm : Moved P r own own') (hgains : ¬Gains pool own P r)
    (hloses : ∀ a, Loses pool own P r a ↔ a = b) : H'.card + 1 = H.card := by
  have hb := (hloses b).mpr rfl
  have hnotMem : b ∉ H' := fun h ↦ by
    rcases (mem_holders_moved hH hH' hm).mp h with ⟨-, hkeeps⟩ | ⟨-, hgain⟩
    · exact hkeeps hb
    · exact hgains hgain
  rw [← Finset.card_cons hnotMem]
  congr 1
  ext a
  rw [Finset.mem_cons, mem_holders_moved hH hH' hm,
    or_iff_left fun h : a = r ∧ Gains pool own P r ↦ hgains h.2, hloses]
  by_cases hab : a = b
  · subst hab
    exact iff_of_true (.inl rfl) ((hH a).mpr ⟨hb.1, hb.2.2.1⟩)
  · rw [or_iff_right hab, and_iff_left hab]

/-- As many owners get their first token as lose their last: none, or one each. -/
def Balanced (pool : α) (own : ι → Option α) (P : ι → Prop) (r : α) : Prop :=
  (¬Gains pool own P r ∧ ∀ a, ¬Loses pool own P r a) ∨
    (Gains pool own P r ∧ ∃ b, ∀ a, Loses pool own P r a ↔ a = b)

theorem card_holders_balanced (hH : Holders pool own H) (hH' : Holders pool own' H')
    (hm : Moved P r own own') (h : Balanced pool own P r) : H'.card = H.card := by
  rcases h with ⟨hgains, hkeeps⟩ | ⟨hgains, b, hloses⟩
  · congr 1
    ext a
    rw [mem_holders_moved hH hH' hm, and_iff_left (hkeeps a), or_iff_left fun h ↦ hgains h.2]
  · -- one owner takes the place of another
    have hb := (hloses b).mpr rfl
    have hr : r ∈ H' := (mem_holders_moved hH hH' hm).mpr (.inr ⟨rfl, hgains⟩)
    have hbH : b ∈ H := (hH b).mpr ⟨hb.1, hb.2.2.1⟩
    classical
    have herase : H'.erase r = H.erase b := by
      ext a
      rw [Finset.mem_erase, Finset.mem_erase, mem_holders_moved hH hH' hm, hloses]
      by_cases har : a = r
      · subst har
        exact iff_of_false (fun h ↦ h.1 rfl) fun h ↦ by
          obtain ⟨-, i, hi⟩ := (hH a).mp h.2
          exact hgains.2.1 i hi
      · rw [and_iff_right har, or_iff_left fun h ↦ har h.1, and_comm]
    rw [← Finset.card_erase_add_one hr, ← Finset.card_erase_add_one hbH, herase]

end Moved

end Taiyi.Library
