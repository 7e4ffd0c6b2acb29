import Mathlib

set_option autoImplicit false

namespace Taiyi.Plugins

variable {Name : Type} [LinearOrder Name]

/-- The ranges of accounts to track, a map from the lower end of each to its upper end, and the
counter of the accounts that were found in one. -/
structure TrackedAccounts (Name : Type) [LinearOrder Name] where
  trackedAccounts : List (Name × Name)
  sorted : trackedAccounts.Pairwise (·.1 < ·.1)
  excludedAccountCount : ℕ := 0

namespace TrackedAccounts

/-- The place of the first entry whose key is not less. -/
def lowerBound (self : TrackedAccounts Name) (name : Name) : ℕ :=
  (self.trackedAccounts.takeWhile (·.1 < name)).length

/-- Where the iterator stands once it has gone back to a range that begins before the name. -/
def iterator (self : TrackedAccounts Name) (name : Name) : ℕ :=
  let itr := self.lowerBound name
  let fin := self.trackedAccounts.length
  if itr ≠ 0 ∧ (itr ≠ fin ∧ self.trackedAccounts[itr]?.map Prod.fst ≠ some name ∨ itr = fin) then itr - 1
  else itr

def isTrackedAccount (self : TrackedAccounts Name) (name : Name) : Bool × TrackedAccounts Name :=
  if self.trackedAccounts.isEmpty then (true, self)
  else
    let inRange :=
      match self.trackedAccounts[self.iterator name]? with
      | some range => decide (range.1 ≤ name ∧ name ≤ range.2)
      | none => false
    (inRange, { self with excludedAccountCount := self.excludedAccountCount + inRange.toNat })

/-- Of two ranges the lower one ends before the other begins. -/
def Apart (self : TrackedAccounts Name) : Prop :=
  self.trackedAccounts.Pairwise fun r r' ↦ r.2 < r'.1

/-- Ranges that have no name in common are apart. -/
theorem apart_of_disjoint {self : TrackedAccounts Name}
    (hne : ∀ r ∈ self.trackedAccounts, r.1 ≤ r.2)
    (h : self.trackedAccounts.Pairwise fun r r' ↦ Disjoint (Set.Icc r.1 r.2) (Set.Icc r'.1 r'.2)) :
    self.Apart := by
  refine (self.sorted.and h).imp_of_mem fun {r r'} _ hr' hd ↦ ?_
  obtain ⟨hlt, hdisj⟩ := hd
  by_contra hle
  -- the lower end of the second range would be in both
  exact Set.disjoint_left.mp hdisj ⟨hlt.le, not_lt.mp hle⟩ ⟨le_refl _, hne r' hr'⟩

section Lookup

variable {ranges pre post : List (Name × Name)} {r r' : Name × Name} {name : Name}

/-- With the ranges apart only the last one that begins at or before a name can hold it. -/
theorem mem_range_iff (hapart : (pre ++ r :: post).Pairwise fun a b ↦ a.2 < b.1)
    (hpost : ∀ a ∈ post, name < a.1) (hr : r.1 ≤ name) :
    (∃ a ∈ pre ++ r :: post, a.1 ≤ name ∧ name ≤ a.2) ↔ r.1 ≤ name ∧ name ≤ r.2 := by
  constructor
  · rintro ⟨a, ha, hle, hge⟩
    rcases List.mem_append.mp ha with ha | ha
    · have hbefore := (List.pairwise_append.mp hapart).2.2 a ha r List.mem_cons_self
      exact absurd (hge.trans_lt hbefore) (not_lt.mpr hr)
    · rcases List.mem_cons.mp ha with rfl | ha
      · exact ⟨hle, hge⟩
      · exact absurd (hpost a ha) (not_lt.mpr hle)
  · intro h
    exact ⟨r, List.mem_append_right _ List.mem_cons_self, h⟩

end Lookup

variable {self : TrackedAccounts Name}

/-- The iterator stands at the last range that begins at or before the name, if there is one. -/
theorem iterator_spec (hne : self.trackedAccounts ≠ []) (name : Name) :
    (∃ pre r post, self.trackedAccounts = pre ++ r :: post ∧
      self.trackedAccounts[self.iterator name]? = some r ∧ r.1 ≤ name ∧ ∀ a ∈ post, name < a.1) ∨
    ((∀ a ∈ self.trackedAccounts, name < a.1) ∧
      ∃ r ∈ self.trackedAccounts, self.trackedAccounts[self.iterator name]? = some r) := by
  obtain ⟨ranges, hsorted, count⟩ := self
  have hsplit := List.takeWhile_append_dropWhile (p := fun r : Name × Name ↦ decide (r.1 < name)) (l := ranges)
  have hpre : ∀ a ∈ ranges.takeWhile fun r ↦ decide (r.1 < name), a.1 < name := fun a ha ↦
    of_decide_eq_true (List.mem_takeWhile_imp (p := fun r : Name × Name ↦ decide (r.1 < name)) ha)
  have hhead : ∀ b post, ranges.dropWhile (fun r ↦ decide (r.1 < name)) = b :: post → name ≤ b.1 := by
    intro b post hpost
    have hb := List.head?_dropWhile_not (fun r : Name × Name ↦ decide (r.1 < name)) ranges
    rw [hpost] at hb
    simpa using hb
  unfold iterator lowerBound
  dsimp only at hne ⊢
  generalize ranges.takeWhile (fun r ↦ decide (r.1 < name)) = pre at *
  generalize ranges.dropWhile (fun r ↦ decide (r.1 < name)) = post at *
  subst hsplit
  rcases List.eq_nil_or_concat' pre with rfl | ⟨pre, p, rfl⟩
  · -- no range begins before the name
    cases post with
    | nil => exact absurd rfl hne
    | cons b post =>
      have hb := hhead b post rfl
      have hafter : ∀ a ∈ post, b.1 < a.1 := (List.pairwise_cons.mp hsorted).1
      rcases hb.eq_or_lt with he | hlt
      · exact .inl ⟨[], b, post, rfl, rfl, he.ge, fun a ha ↦ he ▸ hafter a ha⟩
      · refine .inr ⟨fun a ha ↦ ?_, b, List.mem_cons_self, rfl⟩
        rcases List.mem_cons.mp ha with rfl | ha
        · exact hlt
        · exact hlt.trans (hafter a ha)
  · left
    have hp : p.1 < name := hpre p (List.mem_append_right _ List.mem_cons_self)
    have hlen : (pre ++ [p]).length = pre.length + 1 := List.length_append
    have hlast : (pre ++ [p] ++ post)[pre.length]? = some p := by simp
    cases post with
    | nil =>
      refine ⟨pre, p, [], by simp, ?_, hp.le, fun _ ha ↦ nomatch ha⟩
      rw [if_pos ⟨by omega, .inr (by simp)⟩, hlen, Nat.add_sub_cancel]
      exact hlast
    | cons b post =>
      have hb := hhead b post rfl
      have hthis : (pre ++ [p] ++ b :: post)[(pre ++ [p]).length]? = some b := by simp
      have hafter : ∀ a ∈ post, b.1 < a.1 :=
        (List.pairwise_cons.mp (List.pairwise_append.mp hsorted).2.1).1
      rcases hb.eq_or_lt with he | hlt
      · refine ⟨pre ++ [p], b, post, rfl, ?_, he.ge, fun a ha ↦ he ▸ hafter a ha⟩
        have hend : (pre ++ [p]).length ≠ (pre ++ [p] ++ b :: post).length := by simp
        rw [if_neg, hthis]
        rintro ⟨-, ⟨-, hfst⟩ | heq⟩
        · exact hfst (by rw [hthis, he]; rfl)
        · exact hend heq
      · refine ⟨pre, p, b :: post, by simp, ?_, hp.le, fun a ha ↦ ?_⟩
        · have hfst : (pre ++ [p] ++ b :: post)[(pre ++ [p]).length]?.map Prod.fst ≠ some name := by
            rw [hthis]
            exact fun he ↦ hlt.ne' (Option.some.inj he)
          rw [if_pos ⟨by omega, .inl ⟨by simp, hfst⟩⟩, hlen, Nat.add_sub_cancel]
          exact hlast
        · rcases List.mem_cons.mp ha with rfl | ha
          · exact hlt
          · exact hlt.trans (hafter a ha)

/-- Every account is tracked when there are no ranges, and else those in one of the ranges. -/
theorem isTrackedAccount_iff (h : self.Apart) (name : Name) :
    (self.isTrackedAccount name).1 = true ↔ self.trackedAccounts = [] ∨
      ∃ r ∈ self.trackedAccounts, r.1 ≤ name ∧ name ≤ r.2 := by
  unfold isTrackedAccount
  by_cases hnil : self.trackedAccounts = []
  · simp [hnil]
  rw [if_neg (by simpa using hnil), or_iff_right hnil]
  rcases iterator_spec hnil name with ⟨pre, r, post, hall, hitr, hr, hpost⟩ | ⟨hall, r, hr, hitr⟩
  · unfold Apart at h
    rw [hall] at h
    have hmem := mem_range_iff h hpost hr
    rw [← hall] at hmem
    rw [hmem]
    simp only [hitr]
    exact decide_eq_true_iff
  · simp only [hitr]
    refine iff_of_false ?_ ?_
    · exact fun hin ↦ absurd (of_decide_eq_true hin).1 (not_le.mpr (hall r hr))
    · exact fun ⟨a, ha, hle, _⟩ ↦ absurd hle (not_le.mpr (hall a ha))

theorem isTrackedAccount_iff_two :
    let self : TrackedAccounts ℕ := { trackedAccounts := [(10, 12), (16, 18)], sorted := by decide }
    self.Apart ∧ ((self.isTrackedAccount 18).1 = true ↔ self.trackedAccounts = [] ∨
      ∃ r ∈ self.trackedAccounts, r.1 ≤ 18 ∧ 18 ≤ r.2) :=
  have h : TrackedAccounts.Apart { trackedAccounts := [(10, 12), (16, 18)], sorted := by decide } := by
    simp [Apart]
  ⟨h, isTrackedAccount_iff h 18⟩

end TrackedAccounts

end Taiyi.Plugins
