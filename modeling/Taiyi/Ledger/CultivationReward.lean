import Taiyi.Nfas.Materials

set_option autoImplicit false

namespace Taiyi.CultivationReward

open Library.Attempt Library.Signed Library.Words Nfas

/-- The amounts of the five materials: wood, herb, food, gold and fabric stand for wood, fire, earth,
metal and water. -/
abbrev Elements := Material → ℤ

namespace Elements

open Material

/-- The elements in the order in which each generates the next. -/
def order : List Material := [wood, herb, food, gold, fabric]

/-- Each element of one side with the one it generates of the other. -/
def generating (a b : Elements) : List (ℤ × ℤ) :=
  [(a wood, b herb), (a herb, b food), (a food, b gold), (a gold, b fabric), (a fabric, b wood)]

/-- Each element of one side with the one it overcomes of the other. -/
def overcoming (a b : Elements) : List (ℤ × ℤ) :=
  [(a wood, b food), (a food, b fabric), (a fabric, b herb), (a herb, b gold), (a gold, b wood)]

def total64 (a : Elements) : Except String ℤ := sum64 (order.map a)

end Elements

open Elements

structure Participant where
  cultivationValue : ℕ
  materials : Elements

/-- A `cultivation_object`, with what it reads of its participants and of the zone of its manager. -/
structure Cultivation where
  id : ℕ
  startTime : ℕ
  lastUpdateTime : ℕ
  qiAccumulated : ℤ := 0
  participants : List Participant
  zone : Elements

/-- `TAIYI_CULTIVATION_MAX_TIME_BLOCK_NUM`. -/
def maxTimeBlockNum : ℕ := 201600

def calculateZoneSpiritualEnergy (zone : Elements) : Except String ℤ := do
  let baseQi ← zone.total64
  let resonanceGain ← dot64 (generating zone zone)
  let suppressionLoss ← dot64 (overcoming zone zone)
  if baseQi > 0 then
    let bonus ← mul64 (← mul64 5000 (← sub64 resonanceGain suppressionLoss)) 5
    add64 baseQi ((bonus.tdiv 10000).tdiv baseQi)
  else return 0

/-- The bonus of one of the two kinds of harmony. -/
def bonus64 (gen ovc scale : ℤ) : Except String ℤ := do
  if gen > ovc then return (← mul64 (← mul64 (← sub64 gen ovc) 5000) 5).tdiv scale
  else if ovc > gen then return -(← mul64 (← mul64 (← sub64 ovc gen) 5000) 5).tdiv scale
  else return 0

/-- The bonus of one side upon the other, of which the totals are given. -/
def harmony64 (a b : Elements) (totalA totalB : ℤ) : Except String ℤ := do
  let gen ← dot64 (generating a b)
  let ovc ← dot64 (overcoming a b)
  let scale ← mul64 totalA totalB
  if scale > 0 then bonus64 gen ovc scale else return 0

def efficiency64 (p zone : Elements) : Except String ℤ := do
  let totalP ← p.total64
  if totalP > 0 then
    let e ← add64 10000 (← harmony64 p p totalP totalP)
    let totalZ ← zone.total64
    if totalZ > 0 then return max (← add64 e (← harmony64 zone p totalZ totalP)) 1000
    else return max e 1000
  else return max 10000 1000

namespace Cultivation

variable (c : Cultivation) (now blockHash : ℕ)

/-- The QI of all participants, in a `uint64_t`. -/
def totalValue : ℤ := c.participants.foldl (fun q p ↦ toUnsigned 64 (q + p.cultivationValue)) 0

def totalMaterials : Except String Elements :=
  c.participants.foldlM (fun sum p ↦ Material.forEach fun m ↦ add64 (sum m) (p.materials m)) fun _ ↦ 0

def elapsed : ℕ := min (now - c.lastUpdateTime) maxTimeBlockNum

def share : ℕ := Nfas.hash ((blockHash + c.id) % 2 ^ 32) % 10000

/-- What `update_cultivation` adds. The signed energy and efficiency join an unsigned product. -/
def reward64 : Except String ℤ := do
  let n ← calculateZoneSpiritualEnergy c.zone
  let q := c.totalValue
  let e ← efficiency64 (← c.totalMaterials) c.zone
  let product := toUnsigned 64 (toUnsigned 64 (toUnsigned 64 (toUnsigned 64 (n + q) * c.share blockHash) *
    c.elapsed now) * e)
  return toSigned 63 (product / maxTimeBlockNum / 10000 / 10000)

def updateCultivation : Except String Cultivation :=
  if c.startTime = 2 ^ 32 - 1 then .error "cultivation have not started"
  else if now < c.startTime then .error "invalid start time"
  else if now ≤ c.lastUpdateTime then .ok c
  else do
    let rv ← c.reward64 now blockHash
    if rv > 0 then return { c with qiAccumulated := ← add64 c.qiAccumulated rv, lastUpdateTime := now }
    else return c

end Cultivation

/-! The formula over the integers. -/

namespace Elements

def total (a : Elements) : ℤ := (order.map a).sum

/-- By how much one side generates the other more than it overcomes it. -/
def surplus (a b : Elements) : ℤ := dot (generating a b) - dot (overcoming a b)

def energy (zone : Elements) : ℤ :=
  if 0 < zone.total then zone.total + ((25000 * surplus zone zone).tdiv 10000).tdiv zone.total else 0

def harmony (a b : Elements) : ℤ :=
  if 0 < a.total * b.total then (25000 * surplus a b).tdiv (a.total * b.total) else 0

def efficiency (p zone : Elements) : ℤ :=
  max (10000 + harmony p p + harmony zone p) 1000

end Elements

namespace Cultivation

variable (c : Cultivation) (now blockHash : ℕ)

def value : ℤ := (c.participants.map fun p ↦ (p.cultivationValue : ℤ)).sum

def materials (m : Material) : ℤ := (c.participants.map fun p ↦ p.materials m).sum

/-- The product of the five factors. -/
def product : ℤ :=
  (c.zone.energy + c.value) * c.share blockHash * c.elapsed now * efficiency c.materials c.zone

def reward : ℤ := c.product now blockHash / maxTimeBlockNum / 10000 / 10000

end Cultivation

/-- A difference that can be multiplied by 25000. -/
def Scales (x : ℤ) : Prop := -2 ^ 63 < 25000 * x ∧ 25000 * x < 2 ^ 63

namespace Elements

variable {a b : Elements} {r : ℤ}

/-- No amount is negative. -/
def Nonneg (a : Elements) : Prop := ∀ m, 0 ≤ a m

theorem total_eq : a.total = a .wood + a .herb + a .food + a .gold + a .fabric := by
  simp [total, order]
  ring

theorem Nonneg.total_nonneg (h : a.Nonneg) : 0 ≤ a.total := by
  have := h .wood; have := h .herb; have := h .food; have := h .gold; have := h .fabric
  rw [total_eq]
  omega

theorem Nonneg.le_total (h : a.Nonneg) (m : Material) : a m ≤ a.total := by
  have := h .wood; have := h .herb; have := h .food; have := h .gold; have := h .fabric
  rw [total_eq]
  cases m <;> omega

theorem total64_eq_ok (h : a.Nonneg) : a.total64 = .ok r ↔ a.total < 2 ^ 63 ∧ r = a.total :=
  sum64_eq_ok (by simpa using fun m _ ↦ h m)

theorem generating_nonneg (ha : a.Nonneg) (hb : b.Nonneg) : ∀ p ∈ generating a b, 0 ≤ p.1 * p.2 := by
  simp only [generating, List.mem_cons, List.not_mem_nil, or_false]
  rintro p (rfl | rfl | rfl | rfl | rfl)
  all_goals exact Int.mul_nonneg (ha _) (hb _)

theorem overcoming_nonneg (ha : a.Nonneg) (hb : b.Nonneg) : ∀ p ∈ overcoming a b, 0 ≤ p.1 * p.2 := by
  simp only [overcoming, List.mem_cons, List.not_mem_nil, or_false]
  rintro p (rfl | rfl | rfl | rfl | rfl)
  all_goals exact Int.mul_nonneg (ha _) (hb _)

theorem dot_nonneg {ps : List (ℤ × ℤ)} (h : ∀ p ∈ ps, 0 ≤ p.1 * p.2) : 0 ≤ dot ps :=
  List.sum_nonneg fun y hy ↦ by
    obtain ⟨q, hq, rfl⟩ := List.mem_map.mp hy
    exact h q hq

/-- The products of a cycle are part of the product of the totals. -/
theorem dot_generating_le (ha : a.Nonneg) (hb : b.Nonneg) : dot (generating a b) ≤ a.total * b.total := by
  have hle (m n : Material) : a m * b n ≤ a m * b.total := Int.mul_le_mul_of_nonneg_left (hb.le_total n) (ha m)
  have := hle .wood .herb; have := hle .herb .food; have := hle .food .gold
  have := hle .gold .fabric; have := hle .fabric .wood
  simp only [dot, generating, List.map_cons, List.map_nil, List.sum_cons, List.sum_nil]
  rw [total_eq (a := a)]
  linarith

theorem dot_overcoming_le (ha : a.Nonneg) (hb : b.Nonneg) : dot (overcoming a b) ≤ a.total * b.total := by
  have hle (m n : Material) : a m * b n ≤ a m * b.total := Int.mul_le_mul_of_nonneg_left (hb.le_total n) (ha m)
  have := hle .wood .food; have := hle .food .fabric; have := hle .fabric .herb
  have := hle .herb .gold; have := hle .gold .wood
  simp only [dot, overcoming, List.map_cons, List.map_nil, List.sum_cons, List.sum_nil]
  rw [total_eq (a := a)]
  linarith

/-- A cycle of five products is at most a quarter of the square of the sum, if its last number is the
least. -/
theorem cycle_le_of_least {v w x y z : ℤ} (hv : 0 ≤ v) (hw : 0 ≤ w) (hz : 0 ≤ z) (hzy : z ≤ y) :
    4 * (v * w + w * x + x * y + y * z + z * v) ≤ (v + w + x + y + z) ^ 2 := by
  have hsquare : 0 ≤ (v - w + x - y + z) ^ 2 := sq_nonneg _
  have hvy : 0 ≤ v * (y - z) := Int.mul_nonneg hv (by omega)
  have hwz : 0 ≤ w * z := Int.mul_nonneg hw hz
  nlinarith

/-- What is overcome is at most a quarter of the square of the total. -/
theorem four_mul_overcoming_le (ha : a.Nonneg) : 4 * dot (overcoming a a) ≤ a.total * a.total := by
  have hw := ha .wood; have hh := ha .herb; have hf := ha .food; have hg := ha .gold; have hb := ha .fabric
  simp only [dot, overcoming, List.map_cons, List.map_nil, List.sum_cons, List.sum_nil]
  rw [total_eq]
  -- somewhere in the cycle an amount is not above the one before it
  have hleast : a .gold ≤ a .herb ∨ a .wood ≤ a .gold ∨ a .food ≤ a .wood ∨ a .fabric ≤ a .food ∨
      a .herb ≤ a .fabric := by omega
  obtain h | h | h | h | h := hleast
  · have := cycle_le_of_least (x := a .fabric) hw hf hg h
    linarith
  · have := cycle_le_of_least (x := a .herb) hf hb hw h
    linarith
  · have := cycle_le_of_least (x := a .gold) hb hh hf h
    linarith
  · have := cycle_le_of_least (x := a .wood) hh hg hb h
    linarith
  · have := cycle_le_of_least (x := a .food) hg hw hh h
    linarith

/-- The surplus lies between the products of the totals. -/
theorem surplus_bounds (ha : a.Nonneg) (hb : b.Nonneg) :
    -(a.total * b.total) ≤ surplus a b ∧ surplus a b ≤ a.total * b.total := by
  have := dot_generating_le ha hb; have := dot_overcoming_le ha hb
  have := dot_nonneg (generating_nonneg ha hb); have := dot_nonneg (overcoming_nonneg ha hb)
  unfold surplus
  omega

theorem scales_of_zero (ha : a.Nonneg) (hb : b.Nonneg) (h : a.total * b.total = 0) : Scales (surplus a b) := by
  have := surplus_bounds ha hb
  unfold Scales
  omega

theorem bonus64_eq_ok {gen ovc scale : ℤ} : bonus64 gen ovc scale = .ok r ↔ Scales (gen - ovc) ∧ r = (25000 * (gen - ovc)).tdiv scale := by
  unfold bonus64 Scales
  split
  · simp only [bind_eq_ok, mul64_eq_ok, sub64_eq_ok, pure, Except.pure, Except.ok.injEq]
    unfold IsSigned
    constructor
    · rintro ⟨_, ⟨-, rfl⟩, _, ⟨-, rfl⟩, _, ⟨hfits, rfl⟩, rfl⟩
      exact ⟨by omega, by congr 1; ring⟩
    · rintro ⟨hscales, rfl⟩
      refine ⟨_, ⟨by omega, rfl⟩, _, ⟨by omega, rfl⟩, _, ⟨by omega, rfl⟩, ?_⟩
      congr 1
      ring
  · split
    · simp only [bind_eq_ok, mul64_eq_ok, sub64_eq_ok, pure, Except.pure, Except.ok.injEq]
      unfold IsSigned
      constructor
      · rintro ⟨_, ⟨-, rfl⟩, _, ⟨-, rfl⟩, _, ⟨hfits, rfl⟩, rfl⟩
        exact ⟨by omega, by rw [← Int.neg_tdiv]; congr 1; ring⟩
      · rintro ⟨hscales, rfl⟩
        refine ⟨_, ⟨by omega, rfl⟩, _, ⟨by omega, rfl⟩, _, ⟨by omega, rfl⟩, ?_⟩
        rw [← Int.neg_tdiv]
        congr 1
        ring
    · have heq : gen - ovc = 0 := by omega
      rw [heq, mul_zero, Int.zero_tdiv]
      simp only [pure, Except.pure, Except.ok.injEq]
      exact ⟨fun h ↦ ⟨by decide, h.symm⟩, fun h ↦ h.2.symm⟩

theorem harmony64_eq_ok (ha : a.Nonneg) (hb : b.Nonneg) : harmony64 a b a.total b.total = .ok r ↔
    (a.total * b.total < 2 ^ 63 ∧ Scales (surplus a b)) ∧ r = harmony a b := by
  have hg := dot_nonneg (generating_nonneg ha hb)
  have ho := dot_nonneg (overcoming_nonneg ha hb)
  have hgle := dot_generating_le ha hb
  have hole := dot_overcoming_le ha hb
  have hscale : 0 ≤ a.total * b.total := Int.mul_nonneg ha.total_nonneg hb.total_nonneg
  have hbonus (hfits : a.total * b.total < 2 ^ 63) : (if 0 < a.total * b.total then
      bonus64 (dot (generating a b)) (dot (overcoming a b)) (a.total * b.total) else pure 0) = .ok r ↔
      Scales (surplus a b) ∧ r = harmony a b := by
    unfold harmony
    split
    · exact bonus64_eq_ok
    · have hzero := scales_of_zero ha hb (by omega)
      simp only [pure, Except.pure, Except.ok.injEq, hzero, true_and, eq_comm]
  unfold harmony64
  simp only [bind_eq_ok, dot64_eq_ok (generating_nonneg ha hb), dot64_eq_ok (overcoming_nonneg ha hb), mul64_eq_ok]
  constructor
  · rintro ⟨_, ⟨-, rfl⟩, _, ⟨-, rfl⟩, _, ⟨hfits, rfl⟩, h⟩
    obtain ⟨hscales, hr⟩ := (hbonus hfits.2).mp h
    exact ⟨⟨hfits.2, hscales⟩, hr⟩
  · rintro ⟨⟨hfits, hscales⟩, hr⟩
    exact ⟨_, ⟨by omega, rfl⟩, _, ⟨by omega, rfl⟩, _, ⟨(isSigned_of_nonneg hscale).mpr hfits, rfl⟩,
      (hbonus hfits).mpr ⟨hscales, hr⟩⟩

theorem tdiv_bounds {x t k : ℤ} (ht : 0 < t) (hk : 0 ≤ k) (hlow : -(k * t) ≤ x) (hhigh : x ≤ k * t) :
    -k ≤ x.tdiv t ∧ x.tdiv t ≤ k := by
  obtain hx | hx := le_total 0 x
  · rw [Int.tdiv_eq_ediv_of_nonneg hx]
    have := Int.ediv_nonneg hx ht.le
    have := Int.ediv_le_of_le_mul ht hhigh
    omega
  · obtain ⟨y, rfl⟩ : ∃ y, x = -y := ⟨-x, (neg_neg x).symm⟩
    rw [Int.neg_tdiv, Int.tdiv_eq_ediv_of_nonneg (by omega)]
    have := Int.ediv_nonneg (by omega : 0 ≤ y) ht.le
    have := Int.ediv_le_of_le_mul ht (by omega : y ≤ k * t)
    omega

theorem harmony_bounds (ha : a.Nonneg) (hb : b.Nonneg) : -25000 ≤ harmony a b ∧ harmony a b ≤ 25000 := by
  obtain ⟨hlow, hhigh⟩ := surplus_bounds ha hb
  unfold harmony
  split
  · next hpos => exact tdiv_bounds hpos (by decide) (by omega) (by omega)
  · decide

/-- What is lost to suppression is less than the energy of the materials themselves. -/
theorem energy_bounds (ha : a.Nonneg) (hpos : 0 < a.total) (htotal : a.total < 2 ^ 63)
    (hscales : Scales (surplus a a)) :
    0 ≤ a.total + ((25000 * surplus a a).tdiv 10000).tdiv a.total ∧
      a.total + ((25000 * surplus a a).tdiv 10000).tdiv a.total < 2 ^ 63 := by
  have hquarter := four_mul_overcoming_le ha
  have hgen := dot_nonneg (generating_nonneg ha ha)
  have hlow : -(a.total * a.total) ≤ 4 * surplus a a := by
    unfold surplus
    omega
  obtain ⟨hscaleLow, hscaleHigh⟩ := hscales
  generalize surplus a a = d at *
  have htenth : (25000 * d).tdiv 10000 ≤ 2 ^ 50 ∧ -(a.total * a.total) ≤ (25000 * d).tdiv 10000 := by
    obtain hd | hd := le_total 0 d
    · rw [Int.tdiv_eq_ediv_of_nonneg (by omega)]
      have hsquare : 0 ≤ a.total * a.total := Int.mul_nonneg hpos.le hpos.le
      omega
    · obtain ⟨y, rfl⟩ : ∃ y, d = -y := ⟨-d, (neg_neg d).symm⟩
      rw [Int.mul_neg, Int.neg_tdiv, Int.tdiv_eq_ediv_of_nonneg (by omega)]
      omega
  generalize (25000 * d).tdiv 10000 = x at *
  obtain ⟨hhigh, hneg⟩ := htenth
  obtain hx | hx := le_total 0 x
  · rw [Int.tdiv_eq_ediv_of_nonneg hx]
    have hquot : 0 ≤ x / a.total := Int.ediv_nonneg hx hpos.le
    refine ⟨by omega, ?_⟩
    by_cases hlarge : 2 ^ 50 < a.total
    · rw [Int.ediv_eq_zero_of_lt hx (by omega)]
      omega
    · have : x / a.total ≤ x := Int.ediv_le_self _ hx
      omega
  · obtain ⟨y, rfl⟩ : ∃ y, x = -y := ⟨-x, (neg_neg x).symm⟩
    rw [Int.neg_tdiv, Int.tdiv_eq_ediv_of_nonneg (by omega)]
    have hquot : 0 ≤ y / a.total := Int.ediv_nonneg (by omega) hpos.le
    have hle : y / a.total ≤ a.total := Int.ediv_le_of_le_mul hpos (by omega)
    omega

/-- When the energy of a zone is computed as it stands. -/
def EnergyFits (zone : Elements) : Prop :=
  zone.total < 2 ^ 63 ∧ dot (generating zone zone) < 2 ^ 63 ∧ dot (overcoming zone zone) < 2 ^ 63 ∧
    Scales (surplus zone zone)

theorem energy_nonneg (ha : a.Nonneg) (hfits : EnergyFits a) : 0 ≤ energy a := by
  unfold energy
  split
  · next hpos => exact (energy_bounds ha hpos hfits.1 hfits.2.2.2).1
  · exact le_rfl

theorem calculateZoneSpiritualEnergy_eq_ok (ha : a.Nonneg) :
    calculateZoneSpiritualEnergy a = .ok r ↔ EnergyFits a ∧ r = energy a := by
  have hg := dot_nonneg (generating_nonneg ha ha)
  have ho := dot_nonneg (overcoming_nonneg ha ha)
  unfold calculateZoneSpiritualEnergy EnergyFits energy
  simp only [bind_eq_ok, total64_eq_ok ha, dot64_eq_ok (generating_nonneg ha ha),
    dot64_eq_ok (overcoming_nonneg ha ha)]
  have hbranch (hgl : dot (generating a a) < 2 ^ 63) (hol : dot (overcoming a a) < 2 ^ 63) (htotal : a.total < 2 ^ 63) :
      (if a.total > 0 then do
        let bonus ← mul64 (← mul64 5000 (← sub64 (dot (generating a a)) (dot (overcoming a a)))) 5
        add64 a.total ((bonus.tdiv 10000).tdiv a.total) else return 0) = .ok r ↔
      Scales (surplus a a) ∧
        r = if 0 < a.total then a.total + ((25000 * surplus a a).tdiv 10000).tdiv a.total else 0 := by
    split
    · next hpos =>
      have hscale : 5000 * (dot (generating a a) - dot (overcoming a a)) * 5 = 25000 * surplus a a := by
        unfold surplus
        ring
      simp only [bind_eq_ok, mul64_eq_ok, sub64_eq_ok, add64_eq_ok]
      constructor
      · rintro ⟨_, ⟨-, rfl⟩, _, ⟨-, rfl⟩, _, ⟨hfits, rfl⟩, -, rfl⟩
        rw [hscale] at hfits ⊢
        unfold IsSigned at hfits
        exact ⟨⟨by omega, hfits.2⟩, rfl⟩
      · rintro ⟨hscales, rfl⟩
        obtain ⟨hnonneg, hlt⟩ := energy_bounds ha hpos htotal hscales
        obtain ⟨hlow, hhigh⟩ := hscales
        refine ⟨_, ⟨?_, rfl⟩, _, ⟨?_, rfl⟩, _, ⟨?_, rfl⟩, ?_⟩
        · unfold IsSigned
          omega
        · unfold surplus at hlow hhigh
          unfold IsSigned
          omega
        · rw [hscale]
          exact ⟨hlow.le, hhigh⟩
        · rw [hscale]
          exact ⟨(isSigned_of_nonneg hnonneg).mpr hlt, rfl⟩
    · next hpos =>
      have hzero := scales_of_zero ha ha (by
        have : a.total = 0 := le_antisymm (not_lt.mp hpos) ha.total_nonneg
        rw [this, zero_mul])
      simp only [pure, Except.pure, Except.ok.injEq, hzero, true_and, eq_comm]
  constructor
  · rintro ⟨_, ⟨htotal, rfl⟩, _, ⟨hgl, rfl⟩, _, ⟨hol, rfl⟩, h⟩
    obtain ⟨hscales, hr⟩ := (hbranch hgl hol htotal).mp h
    exact ⟨⟨htotal, hgl, hol, hscales⟩, hr⟩
  · rintro ⟨⟨htotal, hgl, hol, hscales⟩, hr⟩
    exact ⟨_, ⟨htotal, rfl⟩, _, ⟨hgl, rfl⟩, _, ⟨hol, rfl⟩, (hbranch hgl hol htotal).mpr ⟨hscales, hr⟩⟩

/-- When the efficiency is computed as it stands. -/
def EfficiencyFits (p zone : Elements) : Prop :=
  p.total < 2 ^ 63 ∧ (p.total * p.total < 2 ^ 63 ∧ Scales (surplus p p)) ∧
    zone.total * p.total < 2 ^ 63 ∧ Scales (surplus zone p)

theorem harmony_of_zero (h : a.total * b.total = 0) : harmony a b = 0 := by
  rw [harmony, if_neg (by omega)]

theorem efficiency_pos (p zone : Elements) : 1000 ≤ efficiency p zone := le_max_right ..

theorem efficiency64_eq_ok (hb : b.Nonneg) (ha : a.Nonneg) (htotal : a.total < 2 ^ 63) :
    efficiency64 b a = .ok r ↔ EfficiencyFits b a ∧ r = efficiency b a := by
  have hown := harmony_bounds hb hb
  have hzone := harmony_bounds ha hb
  have hsum (x y : ℤ) : add64 x y = .ok (x + y) ↔ IsSigned 63 (x + y) := by simp [add64_eq_ok]
  unfold efficiency64
  simp only [bind_eq_ok, total64_eq_ok hb]
  obtain hpos | hzero := lt_or_eq_of_le hb.total_nonneg
  swap
  · have hprod : b.total * b.total = 0 := by rw [← hzero, zero_mul]
    have hprod' : a.total * b.total = 0 := by rw [← hzero, mul_zero]
    have hfits : EfficiencyFits b a := ⟨by omega, ⟨by omega, scales_of_zero hb hb hprod⟩, by omega,
      scales_of_zero ha hb hprod'⟩
    rw [efficiency, harmony_of_zero hprod, harmony_of_zero hprod']
    constructor
    · rintro ⟨_, ⟨-, rfl⟩, h⟩
      rw [if_neg (by omega)] at h
      exact ⟨hfits, (Except.ok.inj h).symm⟩
    · rintro ⟨-, rfl⟩
      exact ⟨_, ⟨by omega, rfl⟩, if_neg (by omega)⟩
  have hinner : (do
      let e ← add64 10000 (← harmony64 b b b.total b.total)
      let totalZ ← a.total64
      if totalZ > 0 then return max (← add64 e (← harmony64 a b totalZ b.total)) 1000
      else return max e 1000) = .ok r ↔ ((b.total * b.total < 2 ^ 63 ∧ Scales (surplus b b)) ∧
        a.total * b.total < 2 ^ 63 ∧ Scales (surplus a b)) ∧ r = efficiency b a := by
    simp only [bind_eq_ok, harmony64_eq_ok hb hb, add64_eq_ok, total64_eq_ok ha]
    constructor
    · rintro ⟨_, ⟨hfits, rfl⟩, _, ⟨-, rfl⟩, _, ⟨-, rfl⟩, h⟩
      split at h
      · simp only [bind_eq_ok, harmony64_eq_ok ha hb, add64_eq_ok] at h
        obtain ⟨_, ⟨hfits', rfl⟩, _, ⟨-, rfl⟩, h⟩ := h
        exact ⟨⟨hfits, hfits'⟩, (Except.ok.inj h).symm⟩
      · next hz =>
        have hprod : a.total * b.total = 0 := by
          rw [le_antisymm (not_lt.mp hz) ha.total_nonneg, zero_mul]
        refine ⟨⟨hfits, by omega, scales_of_zero ha hb hprod⟩, ?_⟩
        rw [efficiency, harmony_of_zero hprod, add_zero]
        exact (Except.ok.inj h).symm
    · rintro ⟨⟨hfits, hfits'⟩, rfl⟩
      refine ⟨_, ⟨hfits, rfl⟩, _, ⟨⟨by omega, by omega⟩, rfl⟩, _, ⟨htotal, rfl⟩, ?_⟩
      split
      · simp only [bind_eq_ok, harmony64_eq_ok ha hb, add64_eq_ok]
        exact ⟨_, ⟨hfits', rfl⟩, _, ⟨⟨by omega, by omega⟩, rfl⟩, rfl⟩
      · next hz =>
        have hprod : a.total * b.total = 0 := by
          rw [le_antisymm (not_lt.mp hz) ha.total_nonneg, zero_mul]
        rw [efficiency, harmony_of_zero hprod, add_zero]
        rfl
  constructor
  · rintro ⟨_, ⟨hlt, rfl⟩, h⟩
    rw [if_pos hpos] at h
    obtain ⟨hfits, hr⟩ := hinner.mp h
    exact ⟨⟨hlt, hfits⟩, hr⟩
  · rintro ⟨⟨hlt, hfits⟩, hr⟩
    refine ⟨_, ⟨hlt, rfl⟩, ?_⟩
    rw [if_pos hpos]
    exact hinner.mpr ⟨hfits, hr⟩

end Elements

namespace Cultivation

variable {c : Cultivation} {now blockHash : ℕ} {e : Elements}

theorem totalValue_eq : c.totalValue = toUnsigned 64 c.value := by
  have h := foldl_toUnsigned (n := 64) (f := fun p : Participant ↦ (p.cultivationValue : ℤ)) (fun _ ↦ rfl)
    c.participants 0
  rwa [zero_add] at h

theorem foldlM_materials_eq_ok {ps : List Participant} (h : ∀ p ∈ ps, p.materials.Nonneg) {x : Elements}
    (hx : ∀ m, 0 ≤ x m ∧ x m < 2 ^ 63) :
    ps.foldlM (fun sum p ↦ Material.forEach fun m ↦ add64 (sum m) (p.materials m)) x = .ok e ↔
      (∀ m, x m + (ps.map fun p ↦ p.materials m).sum < 2 ^ 63) ∧
        e = fun m ↦ x m + (ps.map fun p ↦ p.materials m).sum := by
  induction ps generalizing x with
  | nil =>
    simp only [List.map_nil, List.sum_nil, add_zero]
    exact ⟨fun h ↦ ⟨fun m ↦ (hx m).2, (Except.ok.inj h).symm⟩, fun h ↦ congrArg Except.ok h.2.symm⟩
  | cons p ps ih =>
    have hp := h p List.mem_cons_self
    have hps := fun q hq ↦ h q (List.mem_cons_of_mem p hq)
    have hsum (m : Material) : 0 ≤ (ps.map fun p ↦ p.materials m).sum := List.sum_nonneg fun y hy ↦ by
      obtain ⟨q, hq, rfl⟩ := List.mem_map.mp hy
      exact hps q hq m
    simp only [List.foldlM_cons, bind_eq_ok, Material.forEach_eq_ok, add64_eq_ok, List.map_cons, List.sum_cons,
      ← add_assoc]
    constructor
    · rintro ⟨y, hy, hrest⟩
      obtain rfl : y = fun m ↦ x m + p.materials m := funext fun m ↦ (hy m).2
      exact (ih hps fun m ↦ ⟨Int.add_nonneg (hx m).1 (hp m), (hy m).1.2⟩).mp hrest
    · rintro ⟨hfits, rfl⟩
      have hlt (m : Material) : x m + p.materials m < 2 ^ 63 := by
        have := hfits m
        have := hsum m
        omega
      have hnonneg (m : Material) : 0 ≤ x m + p.materials m := Int.add_nonneg (hx m).1 (hp m)
      exact ⟨fun m ↦ x m + p.materials m, fun m ↦ ⟨(isSigned_of_nonneg (hnonneg m)).mpr (hlt m), rfl⟩,
        (ih hps fun m ↦ ⟨hnonneg m, hlt m⟩).mpr ⟨hfits, rfl⟩⟩

theorem totalMaterials_eq_ok (h : ∀ p ∈ c.participants, p.materials.Nonneg) :
    c.totalMaterials = .ok e ↔ (∀ m, c.materials m < 2 ^ 63) ∧ e = c.materials := by
  have := foldlM_materials_eq_ok (e := e) h (x := fun _ ↦ 0) fun _ ↦ by decide
  simp only [zero_add] at this
  exact this

theorem materials_nonneg (h : ∀ p ∈ c.participants, p.materials.Nonneg) : Elements.Nonneg c.materials :=
  fun m ↦ List.sum_nonneg fun y hy ↦ by
    obtain ⟨q, hq, rfl⟩ := List.mem_map.mp hy
    exact h q hq m

/-- The reward is computed as its formula stands over the integers, and no product wraps on the way. -/
structure RewardsExactly (c : Cultivation) (now blockHash : ℕ) : Prop where
  computed : c.reward64 now blockHash = .ok (c.reward now blockHash)
  first : (c.zone.energy + c.value) * c.share blockHash < 2 ^ 64
  second : (c.zone.energy + c.value) * c.share blockHash * c.elapsed now < 2 ^ 64
  third : c.product now blockHash < 2 ^ 64

/-- When all intermediates have their place. -/
structure RewardFits (c : Cultivation) (now blockHash : ℕ) : Prop where
  energy : EnergyFits c.zone
  efficiency : EfficiencyFits c.materials c.zone
  product : c.product now blockHash < 2 ^ 64

theorem elapsed_pos (h : c.lastUpdateTime < now) : 0 < c.elapsed now := by
  unfold elapsed maxTimeBlockNum
  omega

theorem value_nonneg : 0 ≤ c.value := List.sum_nonneg fun y hy ↦ by
  obtain ⟨p, -, rfl⟩ := List.mem_map.mp hy
  exact Int.natCast_nonneg _

/-- With signed intermediates that fit, what is left of the product is divided. -/
theorem reward64_eq (hzone : c.zone.Nonneg) (hmaterials : ∀ p ∈ c.participants, p.materials.Nonneg)
    (henergy : EnergyFits c.zone) (hefficiency : EfficiencyFits c.materials c.zone) :
    c.reward64 now blockHash =
      .ok (toUnsigned 64 (c.product now blockHash) / maxTimeBlockNum / 10000 / 10000) := by
  have hn := (calculateZoneSpiritualEnergy_eq_ok hzone).mpr ⟨henergy, rfl⟩
  have hm := (totalMaterials_eq_ok hmaterials).mpr
    ⟨fun m ↦ ((materials_nonneg hmaterials).le_total m).trans_lt hefficiency.1, rfl⟩
  have he := (efficiency64_eq_ok (materials_nonneg hmaterials) hzone henergy.1).mpr ⟨hefficiency, rfl⟩
  have hproduct : toUnsigned 64 (toUnsigned 64 (toUnsigned 64 (toUnsigned 64 (c.zone.energy + c.totalValue) *
      c.share blockHash) * c.elapsed now) * efficiency c.materials c.zone) =
        toUnsigned 64 (c.product now blockHash) := by
    have hmul (x y : ℤ) : x % 2 ^ 64 * y % 2 ^ 64 = x * y % 2 ^ 64 := by
      rw [Int.mul_emod, Int.emod_emod, ← Int.mul_emod]
    rw [totalValue_eq, product]
    simp only [toUnsigned, Int.add_emod_emod, hmul]
  have hsmall (y : ℤ) : toSigned 63 (toUnsigned 64 y / maxTimeBlockNum / 10000 / 10000) =
      toUnsigned 64 y / maxTimeBlockNum / 10000 / 10000 := by
    obtain ⟨h0, hlt⟩ := toUnsigned_bounds 64 y
    apply toSigned_of_isSigned
    unfold IsSigned maxTimeBlockNum
    omega
  unfold reward64
  simp only [hn, hm, he, bind, Except.bind, pure, Except.pure, hproduct, hsmall]

/-- The reward is exact exactly when the intermediates of the energy, of the efficiency and of the
product fit. -/
theorem rewardsExactly_iff (hzone : c.zone.Nonneg) (hmaterials : ∀ p ∈ c.participants, p.materials.Nonneg)
    (hlast : c.lastUpdateTime < now) : c.RewardsExactly now blockHash ↔ c.RewardFits now blockHash := by
  constructor
  · rintro ⟨hcomputed, -⟩
    have hrun := hcomputed
    unfold reward64 at hrun
    simp only [bind_eq_ok] at hrun
    obtain ⟨_, hn, _, hm, _, he, -⟩ := hrun
    have henergy := ((calculateZoneSpiritualEnergy_eq_ok hzone).mp hn).1
    obtain ⟨-, rfl⟩ := (totalMaterials_eq_ok hmaterials).mp hm
    have hefficiency := ((efficiency64_eq_ok (materials_nonneg hmaterials) hzone henergy.1).mp he).1
    refine ⟨henergy, hefficiency, ?_⟩
    rw [reward64_eq hzone hmaterials henergy hefficiency] at hcomputed
    have heq := Except.ok.inj hcomputed
    unfold reward maxTimeBlockNum toUnsigned at heq
    by_contra hlarge
    omega
  · rintro ⟨henergy, hefficiency, hproduct⟩
    have hsum : 0 ≤ c.zone.energy + c.value := Int.add_nonneg (energy_nonneg hzone henergy) value_nonneg
    have hfirst : 0 ≤ (c.zone.energy + c.value) * c.share blockHash := Int.mul_nonneg hsum (Int.natCast_nonneg _)
    have hsecond : 0 ≤ (c.zone.energy + c.value) * c.share blockHash * c.elapsed now :=
      Int.mul_nonneg hfirst (Int.natCast_nonneg _)
    have helapsed : (1 : ℤ) ≤ c.elapsed now := by exact_mod_cast elapsed_pos hlast
    have he := efficiency_pos c.materials c.zone
    have hle₁ : (c.zone.energy + c.value) * c.share blockHash ≤
        (c.zone.energy + c.value) * c.share blockHash * c.elapsed now := le_mul_of_one_le_right hfirst helapsed
    have hle₂ : (c.zone.energy + c.value) * c.share blockHash * c.elapsed now ≤ c.product now blockHash :=
      le_mul_of_one_le_right hsecond (by omega)
    have hnonneg : 0 ≤ c.product now blockHash := hsecond.trans hle₂
    refine ⟨?_, by omega, by omega, hproduct⟩
    rw [reward64_eq hzone hmaterials henergy hefficiency, toUnsigned_of_lt hnonneg hproduct]
    rfl

/-- A cultivation of one NFA of as much wood as herbs, in a zone of nothing. -/
def grove (n : ℤ) : Cultivation where
  id := 0
  startTime := 1
  lastUpdateTime := 1
  participants := [⟨1000, fun
    | .wood => n
    | .herb => n
    | _ => 0⟩]
  zone := fun _ ↦ 0

theorem grove_nonneg {n : ℤ} (hn : 0 ≤ n) : ∀ p ∈ (grove n).participants, p.materials.Nonneg := by
  intro p hp
  obtain rfl := List.mem_singleton.mp hp
  intro m
  cases m
  all_goals first | exact hn | exact le_rfl

theorem grove_rewardsExactly : (grove 10).RewardsExactly 2 7 :=
  (rewardsExactly_iff (fun _ ↦ le_rfl) (grove_nonneg (by decide)) (by decide)).mpr
    { energy := by
        unfold EnergyFits Scales
        decide
      efficiency := by
        unfold EfficiencyFits Scales
        decide
      product := by decide +kernel }

/-- With a hundred units of each, the difference of the products no longer bears its factor. -/
theorem grove_overflows : ¬(grove 100000000).RewardsExactly 2 7 := by
  intro h
  have hrun : (grove 100000000).reward64 2 7 = .error "signed overflow" := by rfl
  have hcomputed := h.computed
  rw [hrun] at hcomputed
  cases hcomputed

end Cultivation

end Taiyi.CultivationReward
