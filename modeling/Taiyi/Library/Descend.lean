import Mathlib.Data.List.Basic
import Mathlib.Logic.Relation

set_option autoImplicit false

namespace Taiyi.Library

open Relation

variable {α : Type}

section Descend

variable [DecidableEq α] {next : α → List α} {U todo checked : List α} {depth : ℕ} {a x y : α}

/-- What a recursion over the next elements meets, which passes over what is already checked. -/
def descend (next : α → List α) : ℕ → List α → List α → List α
  | 0, _, checked => checked
  | depth + 1, todo, checked =>
    todo.foldl (fun checked a ↦
      if a ∈ checked then checked else descend next depth (next a) (a :: checked)) checked

/-- The elements that are not yet checked. -/
def unchecked (U checked : List α) : ℕ := (U.filter (· ∉ checked)).length

theorem unchecked_cons (ha : a ∈ U) (hnot : a ∉ checked) :
    unchecked U (a :: checked) < unchecked U checked := by
  have heq : U.filter (· ∉ a :: checked) = (U.filter (· ∉ checked)).filter (· ≠ a) := by
    rw [List.filter_filter]
    refine List.filter_congr fun b _ ↦ ?_
    simp [not_or]
  rw [unchecked, heq]
  exact List.length_filter_lt_length_iff_exists.mpr
    ⟨a, List.mem_filter.mpr ⟨ha, decide_eq_true hnot⟩, by simp⟩

theorem unchecked_le {checked' : List α} (h : checked ⊆ checked') :
    unchecked U checked' ≤ unchecked U checked := by
  refine (List.monotone_filter_right U fun b hb ↦ ?_).length_le
  simp only [decide_not, Bool.not_eq_eq_eq_not, Bool.not_true, decide_eq_false_iff_not] at hb ⊢
  exact fun hmem ↦ hb (h hmem)

theorem subset_descend : checked ⊆ descend next depth todo checked := by
  induction depth generalizing todo checked with
  | zero => exact List.Subset.refl _
  | succ depth ih =>
    rw [descend]
    induction todo generalizing checked with
    | nil => exact List.Subset.refl _
    | cons a todo ihtodo =>
      rw [List.foldl_cons]
      refine List.Subset.trans ?_ ihtodo
      split
      · exact List.Subset.refl _
      · exact List.Subset.trans (List.subset_cons_self a checked) ih

theorem descend_sound (h : x ∈ descend next depth todo checked) :
    x ∈ checked ∨ ∃ a ∈ todo, ReflTransGen (fun a b ↦ b ∈ next a) a x := by
  induction depth generalizing todo checked with
  | zero => exact .inl h
  | succ depth ih =>
    rw [descend] at h
    induction todo generalizing checked with
    | nil => exact .inl h
    | cons a todo ihtodo =>
      rw [List.foldl_cons] at h
      rcases ihtodo h with hmem | ⟨b, hb, hpath⟩
      · split at hmem
        · exact .inl hmem
        · rcases ih hmem with hmem | ⟨b, hb, hpath⟩
          · rcases List.mem_cons.mp hmem with rfl | hmem
            · exact .inr ⟨x, List.mem_cons_self, .refl⟩
            · exact .inl hmem
          · exact .inr ⟨a, List.mem_cons_self, hpath.head hb⟩
      · exact .inr ⟨b, List.mem_cons_of_mem a hb, hpath⟩

/-- With more depth than there are unchecked elements, the recursion leaves out nothing: all of
its elements are checked, and so is what follows on a newly checked one. -/
theorem descend_closed (hU : ∀ a ∈ U, ∀ b ∈ next a, b ∈ U) (htodo : ∀ a ∈ todo, a ∈ U)
    (hdepth : unchecked U checked < depth) :
    (∀ a ∈ todo, a ∈ descend next depth todo checked) ∧
      ∀ x ∈ descend next depth todo checked, x ∉ checked →
        ∀ y ∈ next x, y ∈ descend next depth todo checked := by
  induction depth generalizing todo checked with
  | zero => exact absurd hdepth (Nat.not_lt_zero _)
  | succ depth ih =>
    induction todo generalizing checked with
    | nil => exact ⟨nofun, fun x hx hnot ↦ absurd hx hnot⟩
    | cons a todo ihtodo =>
      have ha := htodo a List.mem_cons_self
      have hrest : ∀ b ∈ todo, b ∈ U := fun b hb ↦ htodo b (List.mem_cons_of_mem a hb)
      have hfold : descend next (depth + 1) (a :: todo) checked = descend next (depth + 1) todo
          (if a ∈ checked then checked else descend next depth (next a) (a :: checked)) := by
        rw [descend, List.foldl_cons, descend]
      rw [hfold]
      by_cases hmem : a ∈ checked
      · rw [if_pos hmem]
        obtain ⟨hall, hclosed⟩ := ihtodo hrest hdepth
        exact ⟨List.forall_mem_cons.mpr ⟨subset_descend hmem, hall⟩, hclosed⟩
      · rw [if_neg hmem]
        have hless := unchecked_cons ha hmem
        obtain ⟨hnext, hinner⟩ := ih (hU a ha) (Nat.lt_of_lt_of_le hless (Nat.le_of_lt_succ hdepth))
        have hsub : checked ⊆ descend next depth (next a) (a :: checked) :=
          List.Subset.trans (List.subset_cons_self a checked) subset_descend
        obtain ⟨hall, hclosed⟩ := ihtodo hrest (Nat.lt_of_le_of_lt (unchecked_le hsub) hdepth)
        refine ⟨List.forall_mem_cons.mpr ⟨subset_descend (subset_descend List.mem_cons_self), hall⟩, ?_⟩
        intro x hx hnot y hy
        by_cases hin : x ∈ descend next depth (next a) (a :: checked)
        · by_cases hxa : x = a
          · subst hxa
            exact subset_descend (hnext y hy)
          · exact subset_descend (hinner x hin (by simp [hxa, hnot]) y hy)
        · exact hclosed x hx hin y hy

/-- From nothing checked, the recursion below an element meets what is reached from it. -/
theorem mem_descend_iff (hU : ∀ a ∈ U, ∀ b ∈ next a, b ∈ U) (ha : ∀ b ∈ next a, b ∈ U)
    (hdepth : U.length < depth) :
    x ∈ descend next depth (next a) [] ↔ TransGen (fun a b ↦ b ∈ next a) a x := by
  constructor
  · intro h
    obtain ⟨b, hb, hpath⟩ := (descend_sound h).resolve_left List.not_mem_nil
    exact TransGen.head' hb hpath
  · intro h
    have hless : unchecked U [] < depth := Nat.lt_of_le_of_lt (List.length_filter_le _ _) hdepth
    obtain ⟨hall, hclosed⟩ := descend_closed hU ha hless
    induction h with
    | single hb => exact hall _ hb
    | tail _ hstep ih => exact hclosed _ ih List.not_mem_nil _ hstep

end Descend

section Parents

variable {parent : α → Option α} {c p : α}

/-- The parent of `a` is `b`. -/
def Under (parent : α → Option α) (a b : α) : Prop := parent a = some b

/-- No element is its own ancestor. -/
def Acyclic (parent : α → Option α) : Prop := ∀ a, ¬TransGen (Under parent) a a

theorem Acyclic.mono {parent' : α → Option α} (h : Acyclic parent)
    (hsub : ∀ a b, parent' a = some b → parent a = some b) : Acyclic parent' :=
  fun a ha ↦ h a (TransGen.mono hsub a a ha)

/-- A new parent that is neither the element nor below it makes no cycle. -/
theorem Acyclic.relink (h : Acyclic parent) {parent' : α → Option α} (hc : parent' c = some p)
    (hother : ∀ a, a ≠ c → parent' a = parent a) (hnot : ¬ReflTransGen (Under parent) p c) :
    Acyclic parent' := by
  -- from the new parent on, the old links lead past nothing new
  have hold {y : α} (hy : ReflTransGen (Under parent') p y) : ReflTransGen (Under parent) p y := by
    induction hy with
    | refl => exact .refl
    | @tail b d hb hstep ih =>
      by_cases hbc : b = c
      · exact absurd (hbc ▸ ih) hnot
      · exact ih.tail ((hother b hbc).symm.trans hstep)
  have hsplit {a b : α} (hab : TransGen (Under parent') a b) :
      TransGen (Under parent) a b ∨ ReflTransGen (Under parent') a c ∧ ReflTransGen (Under parent') p b := by
    induction hab with
    | @single b hstep =>
      by_cases hac : a = c
      · subst hac
        cases hc.symm.trans hstep
        exact .inr ⟨.refl, .refl⟩
      · exact .inl (.single ((hother a hac).symm.trans hstep))
    | @tail b d hb hstep ih =>
      rcases ih with hl | ⟨hac, hpb⟩
      · by_cases hbc : b = c
        · subst hbc
          cases hc.symm.trans hstep
          exact .inr ⟨hb.to_reflTransGen, .refl⟩
        · exact .inl (hl.tail ((hother b hbc).symm.trans hstep))
      · exact .inr ⟨hac, hpb.tail hstep⟩
  intro a ha
  rcases hsplit ha with hl | ⟨hac, hpa⟩
  · exact h a hl
  · exact hnot (hold (hpa.trans hac))

/-- The element that a number of steps up from an element leads to. -/
def hop (parent : α → Option α) : ℕ → α → Option α
  | 0, a => some a
  | k + 1, a => (parent a).bind (hop parent k)

theorem reach_of_hop {a b : α} {k : ℕ} (h : hop parent k a = some b) :
    ReflTransGen (Under parent) a b := by
  induction k generalizing a with
  | zero =>
    cases h
    exact .refl
  | succ k ih =>
    obtain ⟨p, hp, hb⟩ := Option.bind_eq_some_iff.mp h
    exact (ih hb).head hp

theorem Acyclic.hop_ne (h : Acyclic parent) (a : α) (k : ℕ) : hop parent (k + 1) a ≠ some a := by
  intro ha
  obtain ⟨p, hp, hb⟩ := Option.bind_eq_some_iff.mp ha
  exact h a (.head' hp (reach_of_hop hb))

/-- A new parent of an element does not change the steps that do not come past it. -/
theorem hop_congr {parent' : α → Option α} (hother : ∀ a, a ≠ c → parent' a = parent a) {a : α}
    (hnot : ¬ReflTransGen (Under parent) a c) (k : ℕ) : hop parent' k a = hop parent k a := by
  induction k generalizing a with
  | zero => rfl
  | succ k ih =>
    have hne : a ≠ c := fun hac ↦ hnot (hac ▸ .refl)
    simp only [hop, hother a hne]
    cases hp : parent a with
    | none => rfl
    | some q => exact ih fun hq ↦ hnot (hq.head hp)

end Parents

end Taiyi.Library
