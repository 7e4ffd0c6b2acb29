import Taiyi.Library.WeightedScan
import Taiyi.Zones.Connect

set_option autoImplicit false

namespace Taiyi.Zones

open Library.WeightedScan

structure FiveElements where
  metal : ℤ
  wood : ℤ
  water : ℤ
  fire : ℤ
  earth : ℤ
  deriving DecidableEq

/-- `ZONE_AFFINITY`, in the order of the types. -/
def zoneAffinity : List (ZoneType × FiveElements) := [
  (.yuanye, ⟨2, 4, 3, 3, 8⟩),
  (.hupo, ⟨1, 2, 10, 1, 4⟩),
  (.nongtian, ⟨1, 6, 5, 2, 8⟩),
  (.lindi, ⟨2, 8, 3, 2, 5⟩),
  (.milin, ⟨1, 10, 4, 2, 5⟩),
  (.yuanlin, ⟨3, 7, 5, 3, 6⟩),
  (.shanyue, ⟨6, 3, 2, 2, 10⟩),
  (.dongxue, ⟨7, 1, 3, 1, 9⟩),
  (.shilin, ⟨8, 1, 1, 2, 8⟩),
  (.qiulin, ⟨3, 5, 3, 2, 7⟩),
  (.taoyuan, ⟨4, 8, 6, 5, 7⟩),
  (.sangyuan, ⟨2, 9, 5, 2, 7⟩),
  (.xiagu, ⟨5, 3, 6, 2, 7⟩),
  (.zaoze, ⟨1, 5, 8, 1, 6⟩),
  (.yaoyuan, ⟨5, 8, 6, 4, 7⟩),
  (.haiyang, ⟨3, 1, 12, 2, 1⟩),
  (.shamo, ⟨4, 1, 0, 10, 8⟩),
  (.huangye, ⟨3, 2, 1, 5, 6⟩),
  (.anyuan, ⟨6, 2, 8, 7, 8⟩)]

def calculateEffectiveElements (base : FiveElements) (kGen kOver : ℤ) : FiveElements where
  metal := max 0 (base.metal + (kGen * base.earth - kOver * base.fire).tdiv 100)
  wood := max 0 (base.wood + (kGen * base.water - kOver * base.metal).tdiv 100)
  water := max 0 (base.water + (kGen * base.metal - kOver * base.earth).tdiv 100)
  fire := max 0 (base.fire + (kGen * base.wood - kOver * base.water).tdiv 100)
  earth := max 0 (base.earth + (kGen * base.fire - kOver * base.wood).tdiv 100)

def kGeneration : ℤ := 25

def kOvercoming : ℤ := 40

/-- The score of a type, which is at least 1. -/
def score (e affinity : FiveElements) : ℤ :=
  max 0 (e.metal * affinity.metal + e.wood * affinity.wood + e.water * affinity.water +
    e.fire * affinity.fire + e.earth * affinity.earth) + 1

def zoneScores (e : FiveElements) : List (ZoneType × ℤ) :=
  zoneAffinity.map fun p ↦ (p.1, score e p.2)

/-- The scan of the scores, which ends at the first sum that the pick does not exceed. -/
def scanScores (randomPick : ℤ) (zoneScores : List (ZoneType × ℤ)) : ZoneType :=
  (scan randomPick 0 zoneScores).getD .invalid

/-- `DetermineZoneTypeWithWuxing`, with the first number of the generator for the seed. -/
def determineZoneTypeWithWuxing (elements : FiveElements) (random : ℤ) : ZoneType :=
  let e := calculateEffectiveElements elements kGeneration kOvercoming
  let totalElements := e.metal + e.wood + e.water + e.fire + e.earth
  if totalElements < 500 then .xukong
  else
    let totalScore := total (zoneScores e)
    if totalScore ≤ 0 then .xukong
    else scanScores (random % totalScore) (zoneScores e)

/-- The scores of the effective elements. -/
def scoresOf (elements : FiveElements) : List (ZoneType × ℤ) :=
  zoneScores (calculateEffectiveElements elements kGeneration kOvercoming)

/-- How many residues of the random number lead to a type. -/
def residues (elements : FiveElements) (type : ZoneType) : ℕ :=
  ((Finset.range (total (scoresOf elements)).toNat).filter
    fun r : ℕ ↦ determineZoneTypeWithWuxing elements r = type).card

/-- Every type is chosen for as many residues as its score, and no other one is. -/
def Weighted (elements : FiveElements) : Prop :=
  (∀ p ∈ scoresOf elements, (residues elements p.1 : ℤ) = p.2) ∧
    ∀ type ∉ (scoresOf elements).map Prod.fst, residues elements type = 0

section Scores

variable {elements : FiveElements} {type : ZoneType} {w : ℤ} {pre post : List (ZoneType × ℤ)}

theorem score_pos (e affinity : FiveElements) : 0 < score e affinity :=
  Int.lt_add_one_of_le (le_max_left _ _)

theorem scoresOf_pos (elements : FiveElements) : ∀ p ∈ scoresOf elements, 0 < p.2 := by
  intro p hp
  obtain ⟨q, -, rfl⟩ := List.mem_map.mp hp
  exact score_pos _ _

theorem map_fst_scoresOf (elements : FiveElements) :
    (scoresOf elements).map Prod.fst = zoneAffinity.map Prod.fst := by
  rw [scoresOf, zoneScores, List.map_map]
  rfl

theorem nodup_scoresOf (elements : FiveElements) : ((scoresOf elements).map Prod.fst).Nodup := by
  rw [map_fst_scoresOf]
  decide

theorem total_scoresOf_pos (elements : FiveElements) : 0 < total (scoresOf elements) := by
  have h := length_le_total (scoresOf_pos elements)
  have hlen : (scoresOf elements).length = 19 := by rw [scoresOf, zoneScores, List.length_map]; rfl
  omega

/-- Enough elements for a zone of its own. -/
def Plenty (elements : FiveElements) : Prop :=
  let e := calculateEffectiveElements elements kGeneration kOvercoming
  ¬e.metal + e.wood + e.water + e.fire + e.earth < 500

theorem determine_of_plenty (h : Plenty elements) (r : ℤ) : determineZoneTypeWithWuxing elements r =
    scanScores (r % total (scoresOf elements)) (scoresOf elements) := by
  have hpos := total_scoresOf_pos elements
  unfold determineZoneTypeWithWuxing
  rw [if_neg h]
  exact if_neg (not_le_of_gt hpos)

theorem determine_of_not_plenty (h : ¬Plenty elements) (r : ℤ) :
    determineZoneTypeWithWuxing elements r = .xukong :=
  if_pos (not_not.mp h)

/-- With enough elements the scan ends on a type of the table. -/
theorem determine_ne_invalid (h : Plenty elements) (r : ℤ) :
    determineZoneTypeWithWuxing elements r ∈ zoneAffinity.map Prod.fst := by
  have hlt := Int.emod_lt_of_pos r (total_scoresOf_pos elements)
  obtain ⟨type, htype⟩ := Option.isSome_iff_exists.mp (scan_isSome (r := r % total (scoresOf elements))
    (c := 0) (l := scoresOf elements) (by omega) (by simp [scoresOf, zoneScores, zoneAffinity]))
  rw [determine_of_plenty h, scanScores, htype, ← map_fst_scoresOf elements]
  exact mem_of_scan htype

/-- How often a type is chosen: the first one for a residue too many, the last one for one too
few. -/
theorem residues_eq (h : Plenty elements) (hscores : scoresOf elements = pre ++ (type, w) :: post) :
    (residues elements type : ℤ) =
      w + (if pre.isEmpty then 1 else 0) - (if post.isEmpty then 1 else 0) := by
  have hcard := card_scan (hscores ▸ scoresOf_pos elements) (hscores ▸ nodup_scoresOf elements)
  rw [← hscores] at hcard
  rw [← hcard, residues]
  congr 2
  refine Finset.filter_congr fun r hr ↦ ?_
  have h0 : (0 : ℤ) ≤ r := Int.natCast_nonneg r
  have hlt : (r : ℤ) < total (scoresOf elements) := Int.lt_toNat.mp (Finset.mem_range.mp hr)
  rw [determine_of_plenty h, Int.emod_eq_of_lt h0 hlt, scanScores]
  cases hs : scan r 0 (scoresOf elements) with
  | some t => simp
  | none =>
    have hsome := scan_isSome (r := (r : ℤ)) (c := 0) (l := scoresOf elements) (by omega)
      (by simp [scoresOf, zoneScores, zoneAffinity])
    rw [hs] at hsome
    cases hsome

theorem residues_of_not_plenty (h : ¬Plenty elements) (htype : type ≠ .xukong) :
    residues elements type = 0 := by
  rw [residues, Finset.card_eq_zero, Finset.filter_eq_empty_iff]
  intro r _
  rw [determine_of_not_plenty h]
  exact htype.symm

/-- The first type of the table has a residue too many, or none when too few elements make every
residue lead to the void. -/
theorem residues_yuanye_ne (elements : FiveElements) :
    ∃ w, (.yuanye, w) ∈ scoresOf elements ∧ (residues elements .yuanye : ℤ) ≠ w := by
  obtain ⟨w, post, hscores, hpost⟩ : ∃ w post, scoresOf elements = (.yuanye, w) :: post ∧ post ≠ [] :=
    ⟨_, _, rfl, by simp⟩
  have hmem : (ZoneType.yuanye, w) ∈ scoresOf elements := hscores ▸ List.mem_cons_self
  refine ⟨w, hmem, ?_⟩
  by_cases hp : Plenty elements
  · have hsplit : scoresOf elements = [] ++ (.yuanye, w) :: post := hscores
    have hres := residues_eq hp hsplit
    have hfirst : ([] : List (ZoneType × ℤ)).isEmpty := rfl
    rw [if_pos hfirst, if_neg (by simpa using hpost)] at hres
    omega
  · have hpos : 0 < w := scoresOf_pos elements _ hmem
    rw [residues_of_not_plenty hp (by decide)]
    omega

end Scores

/-- For no elements are the types chosen by their scores. -/
theorem not_weighted (elements : FiveElements) : ¬Weighted elements := by
  intro h
  obtain ⟨w, hmem, hne⟩ := residues_yuanye_ne elements
  exact hne (h.1 _ hmem)

/-- Elements of the earth alone. -/
theorem not_weighted_earth : ¬∀ elements, 0 < total (scoresOf elements) → Weighted elements := by
  intro h
  have hearth : Weighted ⟨0, 0, 0, 0, 1000⟩ := h _ (total_scoresOf_pos _)
  obtain ⟨w, hmem, hne⟩ := residues_yuanye_ne ⟨0, 0, 0, 0, 1000⟩
  exact hne (hearth.1 (.yuanye, w) hmem)

end Taiyi.Zones
