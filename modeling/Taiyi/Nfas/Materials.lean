import Mathlib.Algebra.Order.BigOperators.Group.List
import Mathlib.Algebra.BigOperators.Ring.List
import Mathlib.Data.Int.Init
import Taiyi.Library.Words
import Taiyi.Protocol.Price

set_option autoImplicit false

namespace Taiyi.Nfas

open Library.Attempt Library.Signed Library.Words Protocol

inductive Material
  | gold | food | wood | fabric | herb
  deriving DecidableEq

def qiSymbol : ℕ := 0

namespace Material

def symbol : Material → ℕ
  | gold => 1
  | food => 2
  | wood => 3
  | fabric => 4
  | herb => 5

/-- The QI for a million units, in millions. -/
def worth : Material → ℤ
  | gold => 5
  | food => 3
  | wood => 2
  | fabric => 3
  | herb => 4

/-- `TAIYI_GOLD_QI_PRICE` and its siblings. -/
def qiPrice (m : Material) : Price where
  base := ⟨m.worth * 1000000, qiSymbol, by cases m <;> decide⟩
  quote := ⟨1000000, m.symbol, by decide⟩
  base_pos := by cases m <;> decide
  quote_pos := (by decide : (0 : ℤ) < 1000000)
  symbols := by cases m <;> decide

/-- What is added to the seed for a material. -/
def salt : Material → ℕ
  | gold => 30011
  | food => 30223
  | wood => 30253
  | fabric => 30271
  | herb => 30341

/-- The materials in the order of the source. -/
def all : List Material := [gold, food, wood, fabric, herb]

theorem mem_all (m : Material) : m ∈ all := by cases m <;> decide

/-- A computation for every material in turn, which stops at the first that fails. -/
def forEach {α : Type} (f : Material → Except String α) : Except String (Material → α) := do
  let g ← f gold
  let o ← f food
  let w ← f wood
  let b ← f fabric
  let h ← f herb
  return fun
    | gold => g
    | food => o
    | wood => w
    | fabric => b
    | herb => h

end Material

/-- `hasher::hash`. -/
def hashByte (byte hash : ℕ) : ℕ := (byte ^^^ hash) * 16777619 % 2 ^ 32

def hash (fourBytes : ℕ) : ℕ :=
  (List.range 4).foldl (fun hash i ↦ hashByte (fourBytes / 256 ^ i % 256) hash) 2166136261

/-- What an NFA consists of, its symbol's `min_equivalent_qi` and the treasury. -/
structure Materials where
  minEquivalentQi : ℕ
  material : Material → Asset
  treasury : Material → ℤ
  symbol_eq : ∀ m, (material m).symbol = m.symbol

namespace Materials

variable (s : Materials)

def materialQis : Except String (Material → Asset) := Material.forEach fun m ↦ mul (s.material m) m.qiPrice

def totalQi (qi : Material → Asset) : Except String ℤ :=
  Material.all.foldlM (fun total m ↦ add64 total (qi m).amount) 0

def getMaterialQi : Except String ℤ := do totalQi (← s.materialQis)

/-- Whether the materials are worth enough, despite its name. -/
def isNfaMaterialEquivalentQiInsufficient : Except String Bool := do
  return toUnsigned 64 (← s.getMaterialQi) ≥ s.minEquivalentQi

/-- What is taken of one material. An amount that is not positive is left alone. -/
def draw (seed : ℕ) (base total : ℤ) (qi : Material → Asset) (m : Material) : Except String ℤ := do
  let consumeQiValue := Int.tdiv (← mul64 base (qi m).amount) total
  if consumeQiValue > 0 then
    let modulus := toUnsigned 32 consumeQiValue
    if modulus = 0 then .error "division by zero"
    else
      let drawn := hash ((seed + m.salt) % 2 ^ 32) % modulus
      let consumed ← mul (.narrow drawn qiSymbol) m.qiPrice
      return max 0 (min (s.material m).amount consumed.amount)
  else return 0

/-- The drawn amounts go from the NFA to the treasury. -/
def transfer (consumed : Material → ℤ) : Materials where
  minEquivalentQi := s.minEquivalentQi
  material := fun m ↦ .narrow ((s.material m).amount - consumed m) m.symbol
  treasury := fun m ↦ s.treasury m + consumed m
  symbol_eq := fun _ ↦ rfl

def consumeNfaMaterialRandom (seed : ℕ) : Except String Materials := do
  let base : ℤ := (s.minEquivalentQi / 50 : ℕ)
  if base = 0 then return s
  else
    let qi ← s.materialQis
    let total ← totalQi qi
    if total ≤ 0 then return s
    else return s.transfer (← Material.forEach (s.draw seed base total qi))

end Materials

section Arithmetic

variable {m : Material} {x : Asset} {α : Type} {f : Material → Except String α} {g : Material → α}

theorem Material.forEach_eq_ok : forEach f = .ok g ↔ ∀ m, f m = .ok (g m) := by
  simp only [forEach, bind_eq_ok]
  constructor
  · rintro ⟨_, hg, _, ho, _, hw, _, hb, _, hh, h⟩ m
    cases h
    cases m <;> assumption
  · intro h
    refine ⟨_, h gold, _, h food, _, h wood, _, h fabric, _, h herb, congrArg Except.ok (funext fun m ↦ ?_)⟩
    cases m <;> rfl

theorem Material.worth_pos (m : Material) : 0 < m.worth := by cases m <;> decide

/-- The price turns units of a material into what they are worth. -/
theorem mul_qiPrice (hsymbol : x.symbol = m.symbol) (hx : 0 ≤ x.amount) :
    mul x m.qiPrice = if 2 ^ 64 ≤ m.worth * x.amount then .error "result.hi == 0"
      else .ok (.narrow (m.worth * x.amount) qiSymbol) := by
  have hne : ¬x.symbol = m.qiPrice.base.symbol := hsymbol ▸ m.qiPrice.symbols.symm
  rw [mul, if_neg hne, if_pos (show x.symbol = m.qiPrice.quote.symbol from hsymbol), convert_nonneg hx m.qiPrice.quote_pos m.qiPrice.base_pos]
  have hquot : x.amount * m.qiPrice.base.amount / m.qiPrice.quote.amount = m.worth * x.amount := by
    change x.amount * (m.worth * 1000000) / 1000000 = m.worth * x.amount
    rw [← mul_assoc, Int.mul_ediv_cancel _ (by decide), mul_comm]
  rw [hquot]
  rfl

/-- What QI buy of a material. -/
theorem mul_qi {c : ℤ} (h0 : 0 ≤ c) (hc : c < 2 ^ 63) :
    ∃ q, mul (.narrow c qiSymbol) m.qiPrice = .ok q ∧ q.amount = c / m.worth := by
  have hamount : (Asset.narrow c qiSymbol).amount = c := toSigned_of_isSigned ⟨by omega, hc⟩
  have hquot : c * m.qiPrice.quote.amount / m.qiPrice.base.amount = c / m.worth := by
    change c * 1000000 / (m.worth * 1000000) = c / m.worth
    exact Int.mul_ediv_mul_of_pos_left _ _ (by decide)
  have hle : c / m.worth ≤ c := Int.ediv_le_self _ h0
  have hnonneg : 0 ≤ c / m.worth := Int.ediv_nonneg h0 m.worth_pos.le
  rw [mul, if_pos (by rfl : (Asset.narrow c qiSymbol).symbol = m.qiPrice.base.symbol),
    convert_nonneg (le_of_le_of_eq h0 hamount.symm) m.qiPrice.base_pos m.qiPrice.quote_pos, hamount, hquot,
    if_neg (by omega)]
  exact ⟨_, rfl, toSigned_of_isSigned ⟨by omega, by omega⟩⟩

end Arithmetic

namespace Materials

variable {s t : Materials} {seed : ℕ} {base total : ℤ} {qi : Material → Asset} {m : Material}

/-- What the materials are worth in QI, over the integers. -/
def worthOf (s : Materials) (m : Material) : ℤ := m.worth * (s.material m).amount

/-- The part of `min_equivalent_qi` that is consumed at most. -/
def fraction (s : Materials) : ℤ := (s.minEquivalentQi / 50 : ℕ)

/-- What was taken of each material has gone to the treasury, and it is worth no more than the
fraction. -/
structure Consumed (s t : Materials) (taken : Material → ℤ) : Prop where
  taken_nonneg : ∀ m, 0 ≤ taken m
  left : ∀ m, (t.material m).amount = (s.material m).amount - taken m
  left_nonneg : ∀ m, 0 ≤ (t.material m).amount
  treasury : ∀ m, t.treasury m = s.treasury m + taken m
  worth_le : (Material.all.map fun m ↦ m.worth * taken m).sum ≤ s.fraction

/-- No conversion of the call loses a bit, no product of it overflows, no modulus is zero, and the
materials end where they should. -/
def ConsumesSafely (s : Materials) (seed : ℕ) : Prop :=
  (s.fraction ≠ 0 → ∀ m q, mul (s.material m) m.qiPrice = .ok q → q.amount = s.worthOf m) ∧
    ∃ t taken, s.consumeNfaMaterialRandom seed = .ok t ∧ Consumed s t taken

theorem totalQi_eq (h : totalQi qi = .ok total) : total = (Material.all.map fun m ↦ (qi m).amount).sum := by
  simp only [totalQi, Material.all, List.foldlM_cons, List.foldlM_nil, bind_eq_ok, add64_eq_ok] at h
  obtain ⟨_, ⟨-, rfl⟩, _, ⟨-, rfl⟩, _, ⟨-, rfl⟩, _, ⟨-, rfl⟩, _, ⟨-, rfl⟩, h⟩ := h
  cases h
  simp [Material.all]
  ring

/-- The check of the callers converts every material and adds the results up. -/
theorem conversions_of_check (h : s.isNfaMaterialEquivalentQiInsufficient = .ok true) :
    ∃ qi total, s.materialQis = .ok qi ∧ totalQi qi = .ok total ∧
      (s.minEquivalentQi : ℤ) ≤ toUnsigned 64 total := by
  obtain ⟨v, hv, h⟩ := bind_eq_ok.mp h
  obtain ⟨qi, hqi, htotal⟩ := bind_eq_ok.mp hv
  refine ⟨qi, v, hqi, htotal, ?_⟩
  simpa [pure, Except.pure] using h

theorem sum_nonneg {f : Material → ℤ} (h : ∀ m, 0 ≤ f m) : 0 ≤ (Material.all.map f).sum :=
  List.sum_nonneg (by simpa using fun m _ ↦ h m)

theorem le_sum {f : Material → ℤ} (h : ∀ m, 0 ≤ f m) (m : Material) : f m ≤ (Material.all.map f).sum :=
  List.single_le_sum (by simpa using fun m _ ↦ h m) _ (List.mem_map_of_mem (Material.mem_all m))

/-- With exact conversions the total is at least `min_equivalent_qi`. -/
theorem total_of_check (hnonneg : ∀ m, 0 ≤ s.worthOf m) (hexact : ∀ m, (qi m).amount = s.worthOf m)
    (htotal : totalQi qi = .ok total) (hle : (s.minEquivalentQi : ℤ) ≤ toUnsigned 64 total) :
    total = (Material.all.map s.worthOf).sum ∧ 50 * s.fraction ≤ total := by
  have heq : total = (Material.all.map s.worthOf).sum := by
    rw [totalQi_eq htotal]
    simp only [hexact]
  have h0 : 0 ≤ total := heq ▸ sum_nonneg hnonneg
  refine ⟨heq, ?_⟩
  unfold fraction
  unfold toUnsigned at hle
  omega

/-- The budget of a material has no more than 32 bits if its product has no more than 63. -/
theorem quotient_lt {q : ℤ} (hq : 0 ≤ q) (hqt : q ≤ total) (hbase : 0 < base) (hle : 50 * base ≤ total)
    (hfits : base * q < 2 ^ 63) : base * q / total < 2 ^ 32 := by
  have htotal : 0 < total := by omega
  by_contra hge
  have hprod : 2 ^ 32 * total ≤ base * q := Int.mul_le_of_le_ediv htotal (not_lt.mp hge)
  have hbaseLarge : 2 ^ 32 ≤ base := by
    have : base * q ≤ base * total := Int.mul_le_mul_of_nonneg_left hqt hbase.le
    exact Int.le_of_mul_le_mul_right (hprod.trans this) htotal
  nlinarith

theorem draw_ok (seed : ℕ) (hq : (qi m).amount = s.worthOf m) (h0 : 0 ≤ (s.material m).amount)
    (hqt : s.worthOf m ≤ total) (hbase : 0 < base) (hle : 50 * base ≤ total)
    (hfits : base * s.worthOf m < 2 ^ 63) :
    ∃ c, s.draw seed base total qi m = .ok c ∧ 0 ≤ c ∧ c ≤ (s.material m).amount ∧
      m.worth * c * total ≤ base * s.worthOf m := by
  have htotal : 0 < total := by omega
  have hworth : 0 ≤ s.worthOf m := Int.mul_nonneg m.worth_pos.le h0
  have hprod : 0 ≤ base * s.worthOf m := Int.mul_nonneg hbase.le hworth
  have hmul : mul64 base (qi m).amount = .ok (base * s.worthOf m) :=
    mul64_eq_ok.mpr ⟨hq ▸ ⟨by omega, hfits⟩, by rw [hq]⟩
  have hlt := quotient_lt hworth hqt hbase hle hfits
  have hback : base * s.worthOf m / total * total ≤ base * s.worthOf m := Int.ediv_mul_le _ htotal.ne'
  unfold draw
  rw [hmul]
  change ∃ c, (if (base * s.worthOf m).tdiv total > 0 then _ else _) = _ ∧ _
  rw [Int.tdiv_eq_ediv_of_nonneg hprod]
  generalize base * s.worthOf m / total = budget at *
  split
  swap
  · exact ⟨0, rfl, le_rfl, h0, by simpa using hprod⟩
  next hpos =>
  rw [toUnsigned_of_lt hpos.le hlt]
  simp only [if_neg hpos.ne']
  have hdrawn0 : 0 ≤ (hash ((seed + m.salt) % 2 ^ 32) : ℤ) % budget := Int.emod_nonneg _ hpos.ne'
  have hdrawn : (hash ((seed + m.salt) % 2 ^ 32) : ℤ) % budget < budget := Int.emod_lt_of_pos _ hpos
  generalize (hash ((seed + m.salt) % 2 ^ 32) : ℤ) % budget = drawn at *
  obtain ⟨consumed, hconsumed, hamount⟩ := mul_qi (m := m) hdrawn0 (by omega)
  have hbuys : m.worth * (drawn / m.worth) ≤ drawn := Int.mul_ediv_self_le m.worth_pos.ne'
  rw [hconsumed]
  refine ⟨max 0 (min (s.material m).amount consumed.amount), rfl, le_max_left .., max_le h0 (min_le_left ..), ?_⟩
  have hquot : 0 ≤ drawn / m.worth := Int.ediv_nonneg hdrawn0 m.worth_pos.le
  have htaken : max 0 (min (s.material m).amount consumed.amount) ≤ drawn / m.worth := by omega
  have hcost : m.worth * max 0 (min (s.material m).amount consumed.amount) ≤ budget :=
    (Int.mul_le_mul_of_nonneg_left htaken m.worth_pos.le).trans (hbuys.trans hdrawn.le)
  exact (Int.mul_le_mul_of_nonneg_right hcost htotal.le).trans hback

/-- Draws that each keep to their part of the base are taken as they are. -/
theorem consumed_transfer {taken : Material → ℤ} (htotal : 0 < (Material.all.map s.worthOf).sum)
    (htaken : ∀ m, 0 ≤ taken m ∧ taken m ≤ (s.material m).amount ∧
      m.worth * taken m * (Material.all.map s.worthOf).sum ≤ s.fraction * s.worthOf m) :
    Consumed s (s.transfer taken) taken := by
  have hleft (m : Material) : ((s.transfer taken).material m).amount = (s.material m).amount - taken m := by
    have hfits := (s.material m).fits
    unfold IsSigned at hfits
    obtain ⟨h0, hle, -⟩ := htaken m
    exact toSigned_of_isSigned ⟨by omega, by omega⟩
  refine ⟨fun m ↦ (htaken m).1, hleft, fun m ↦ ?_, fun _ ↦ rfl, ?_⟩
  · rw [hleft]
    exact sub_nonneg.mpr (htaken m).2.1
  · generalize hT : (Material.all.map s.worthOf).sum = T at htotal htaken
    have hsum : (Material.all.map fun m ↦ m.worth * taken m).sum * T ≤
        (Material.all.map fun m ↦ s.fraction * s.worthOf m).sum := by
      rw [← List.sum_map_mul_right]
      exact List.sum_le_sum fun m _ ↦ (htaken m).2.2
    rw [List.sum_map_mul_left, hT] at hsum
    exact Int.le_of_mul_le_mul_right hsum htotal

theorem worthOf_nonneg (hnonneg : ∀ m, 0 ≤ (s.material m).amount) (m : Material) : 0 ≤ s.worthOf m :=
  Int.mul_nonneg m.worth_pos.le (hnonneg m)

/-- With enough materials a call is safe exactly when the fraction times the worth of each material
fits 64 bits. -/
theorem consume_safely_iff (s : Materials) (seed : ℕ) (hnonneg : ∀ m, 0 ≤ (s.material m).amount)
    (hcheck : s.isNfaMaterialEquivalentQiInsufficient = .ok true) :
    s.ConsumesSafely seed ↔ ∀ m, s.fraction * s.worthOf m < 2 ^ 63 := by
  have hworth := worthOf_nonneg hnonneg
  obtain ⟨qi, total, hqi, htotal, hle⟩ := conversions_of_check hcheck
  have hmul := Material.forEach_eq_ok.mp hqi
  by_cases hbase : s.fraction = 0
  · refine iff_of_true ⟨fun h ↦ absurd hbase h, s, 0, ?_, fun _ ↦ le_rfl, fun _ ↦ (sub_zero _).symm, hnonneg,
      fun _ ↦ (add_zero _).symm, ?_⟩ fun m ↦ by rw [hbase, zero_mul]; decide
    · exact if_pos hbase
    · rw [hbase]
      decide
  have hbasePos : 0 < s.fraction := lt_of_le_of_ne (Int.natCast_nonneg _) (Ne.symm hbase)
  have hrun : s.consumeNfaMaterialRandom seed = if total ≤ 0 then .ok s else do
      return s.transfer (← Material.forEach (s.draw seed s.fraction total qi)) := by
    change (if s.fraction = 0 then _ else _) = _
    rw [if_neg hbase, hqi]
    change (totalQi qi >>= _) = _
    rw [htotal]
    rfl
  constructor
  · rintro ⟨hexact, t, taken, ht, -⟩ m
    have hexact (m : Material) : (qi m).amount = s.worthOf m := hexact hbase m _ (hmul m)
    obtain ⟨-, hle⟩ := total_of_check hworth hexact htotal hle
    rw [hrun, if_neg (by omega)] at ht
    obtain ⟨_, hdraws, -⟩ := bind_eq_ok.mp ht
    obtain ⟨_, hproduct, -⟩ := bind_eq_ok.mp (Material.forEach_eq_ok.mp hdraws m)
    rw [← hexact]
    exact (mul64_eq_ok.mp hproduct).1.2
  · intro hfits
    have hexact (m : Material) (q : Asset) (hq : mul (s.material m) m.qiPrice = .ok q) : q.amount = s.worthOf m := by
      have hlt : s.worthOf m < 2 ^ 63 :=
        (le_mul_of_one_le_left (hworth m) hbasePos).trans_lt (hfits m)
      have hsmall : ¬2 ^ 64 ≤ m.worth * (s.material m).amount := by
        unfold worthOf at hlt
        omega
      rw [mul_qiPrice (s.symbol_eq m) (hnonneg m), if_neg hsmall] at hq
      cases hq
      exact toSigned_of_isSigned ⟨by have := hworth m; unfold worthOf at this; omega, hlt⟩
    refine ⟨fun _ ↦ hexact, ?_⟩
    obtain ⟨heq, hle⟩ := total_of_check hworth (fun m ↦ hexact m _ (hmul m)) htotal hle
    have hdraw (m : Material) := draw_ok seed (hexact m _ (hmul m)) (hnonneg m)
      (heq ▸ le_sum hworth m) hbasePos hle (hfits m)
    choose taken htaken using hdraw
    refine ⟨s.transfer taken, taken, ?_, ?_⟩
    · rw [hrun, if_neg (by omega), Material.forEach_eq_ok.mpr fun m ↦ (htaken m).1]
      rfl
    · exact consumed_transfer (heq ▸ by omega) fun m ↦ heq ▸ (htaken m).2

/-- An NFA of gold whose symbol asks for this much QI. -/
def golden (minEquivalentQi : ℕ) (gold : ℤ) : Materials where
  minEquivalentQi := minEquivalentQi
  material := fun m ↦ .narrow (if m = .gold then gold else 0) m.symbol
  treasury := fun _ ↦ 0
  symbol_eq := fun _ ↦ rfl

theorem golden_safely : (golden 1000 200).ConsumesSafely 7 :=
  (consume_safely_iff (golden 1000 200) 7 (by intro m; cases m <;> decide) (by decide +kernel)).mpr
    (by intro m; cases m <;> decide)

/-- `2 ^ 32` QI a time of an NFA worth fifty times that: the product is too large for 64 bits. -/
theorem golden_overflows : (golden (50 * 2 ^ 32) (10 * 2 ^ 32)).isNfaMaterialEquivalentQiInsufficient = .ok true ∧
    ¬(golden (50 * 2 ^ 32) (10 * 2 ^ 32)).ConsumesSafely 7 := by
  refine ⟨by decide +kernel, ?_⟩
  rintro ⟨-, t, taken, ht, -⟩
  have hrun : (golden (50 * 2 ^ 32) (10 * 2 ^ 32)).consumeNfaMaterialRandom 7 = .error "signed overflow" := by
    rfl
  rw [hrun] at ht
  cases ht

end Materials

end Taiyi.Nfas
