import Mathlib.Algebra.BigOperators.Group.List.Basic
import Mathlib.Algebra.GroupWithZero.Nat
import Mathlib.Data.Nat.Notation
import Mathlib.Tactic.Common

set_option autoImplicit false

namespace Taiyi.Library.Deposits

/-- An entry in the book of a party that puts amounts into boxes. -/
inductive Entry (B : Type)
  | put (box : B) (amount : ℕ)
  | back (box : B) (amount : ℕ)

namespace Entry

variable {B : Type}

def paidIn : Entry B → ℕ
  | .put _ amount => amount
  | .back _ _ => 0

def paidBack : Entry B → ℕ
  | .put _ _ => 0
  | .back _ amount => amount

end Entry

variable {B : Type} {book : List (Entry B)} {held : Option (B × ℕ)} {box : B} {amount : ℕ}

/-- Every amount that was put in came back from its box as a whole, and once, before the next one
was put in. What the last box still holds has not come back. -/
def Paired (book : List (Entry B)) (held : Option (B × ℕ)) : Prop :=
  ∃ past : List (B × ℕ),
    book = past.flatMap (fun r ↦ [.put r.1 r.2, .back r.1 r.2]) ++
      held.toList.map fun r ↦ .put r.1 r.2

namespace Paired

theorem empty : Paired ([] : List (Entry B)) none := ⟨[], rfl⟩

theorem put (h : Paired book none) : Paired (book ++ [.put box amount]) (some (box, amount)) := by
  obtain ⟨past, rfl⟩ := h
  exact ⟨past, by simp⟩

theorem back (h : Paired book (some (box, amount))) :
    Paired (book ++ [.back box amount]) none := by
  obtain ⟨past, rfl⟩ := h
  exact ⟨past ++ [(box, amount)], by simp⟩

/-- What was put in is what came back and what is held. -/
theorem total (h : Paired book held) :
    (book.map Entry.paidIn).sum =
      (book.map Entry.paidBack).sum + (held.map Prod.snd).getD 0 := by
  obtain ⟨past, rfl⟩ := h
  induction past with
  | nil => cases held <;> simp [Entry.paidIn, Entry.paidBack]
  | cons r past ih =>
    simp only [List.flatMap_cons, List.append_assoc, List.map_append, List.sum_append] at ih ⊢
    simp only [List.map_cons, List.map_nil, List.sum_cons, List.sum_nil, Entry.paidIn,
      Entry.paidBack]
    omega

end Paired

end Taiyi.Library.Deposits
