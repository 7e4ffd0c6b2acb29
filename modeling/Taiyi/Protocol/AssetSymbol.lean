import Mathlib.Data.Nat.Bitwise
import Taiyi.Library.Digits

set_option autoImplicit false

namespace Taiyi.Protocol

open Library.Digits

def taiyiFaiShift : ℕ := 5

def sgtMaxFai : ℕ := 99999999

def sgtMinFai : ℕ := 1

def taiyiAssetMaxDecimals : ℕ := 12

def sgtAssetNumPrecisionMask : ℕ := 0xF

def sgtAssetNumControlMask : ℕ := 0x10

def sgtAssetNumQiMask : ℕ := 0x20

/-- The legacy symbols. -/
inductive Legacy
  | yang
  | yin
  | qi
  | gold
  | food
  | wood
  | fabric
  | herb
  deriving DecidableEq

namespace Legacy

def all : List Legacy := [yang, yin, qi, gold, food, wood, fabric, herb]

/-- `TAIYI_FAI_YIN` and the others. -/
def fai : Legacy → ℕ
  | yin => 1
  | yang => 2
  | qi => 3
  | gold => 4
  | food => 5
  | wood => 6
  | fabric => 7
  | herb => 8

/-- `TAIYI_PRECISION_YIN` and the others. -/
def precision : Legacy → ℕ
  | yin | yang => 3
  | qi | gold | food | wood | fabric | herb => 6

/-- `TAIYI_ASSET_NUM_YIN` and the others. -/
def assetNum (l : Legacy) : ℕ :=
  ((sgtMaxFai + l.fai) <<< taiyiFaiShift ||| l.precision) % 2 ^ 32

/-- The characters of `YIN_SYMBOL_U64` and the others, of which `FABRIC` has the first four. -/
def characters : Legacy → List Char
  | yang => ['Y', 'A', 'N', 'G']
  | yin => ['Y', 'I', 'N']
  | qi => ['Q', 'I']
  | gold => ['G', 'O', 'L', 'D']
  | food => ['F', 'O', 'O', 'D']
  | wood => ['W', 'O', 'O', 'D']
  | fabric => ['F', 'A', 'B', 'R']
  | herb => ['H', 'E', 'R', 'B']

/-- `YIN_SYMBOL_SER` and the others. -/
def ser (l : Legacy) : ℕ :=
  l.precision ||| word (l.characters.map Char.toUInt8) <<< 8

/-- A `switch` over the legacy symbols by one of their numbers. -/
def ofNumber (number : Legacy → ℕ) (n : ℕ) : Option Legacy :=
  all.find? fun l ↦ number l = n

section OfNumber

variable {number : Legacy → ℕ} {n : ℕ}

theorem mem_all (l : Legacy) : l ∈ all := by
  cases l <;> decide

theorem ofNumber_eq_some (h : Function.Injective number) {l : Legacy} :
    ofNumber number n = some l ↔ number l = n := by
  constructor
  · intro hf
    simpa using List.find?_some hf
  · rintro rfl
    cases hf : ofNumber number (number l) with
    | none => simpa using List.find?_eq_none.mp hf l (mem_all l)
    | some l' => rw [h (by simpa using List.find?_some hf : number l' = number l)]

theorem ofNumber_eq_none : ofNumber number n = none ↔ ∀ l, number l ≠ n := by
  simp [ofNumber, mem_all]

end OfNumber

theorem assetNum_injective : Function.Injective assetNum := by
  intro l l' h
  cases l <;> cases l' <;> first | rfl | exact absurd h (by decide)

theorem assetNum_lt (l : Legacy) : l.assetNum < 2 ^ 32 := Nat.mod_lt _ (by decide)

theorem fai_injective : Function.Injective fai := by
  intro l l' h
  cases l <;> cases l' <;> first | rfl | exact absurd h (by decide)

/-- The asset number of a legacy symbol is beyond the ones of all other FAI, and has no control
bit. -/
theorem assetNum_eq (l : Legacy) : assetNum l = (sgtMaxFai + l.fai) * 32 + l.precision := by
  cases l <;> decide

theorem fai_bounds (l : Legacy) : 1 ≤ l.fai ∧ l.fai ≤ 8 := by
  cases l <;> decide

theorem precision_lt (l : Legacy) : l.precision < 16 ∧ l.precision ≤ taiyiAssetMaxDecimals := by
  cases l <;> decide

end Legacy

/-- An `asset_symbol_type`. -/
structure AssetSymbol where
  assetNum : ℕ
  fits : assetNum < 2 ^ 32
  deriving DecidableEq

namespace AssetSymbol

/-- `from_asset_num`. -/
def fromAssetNum (n : ℕ) : AssetSymbol :=
  ⟨n % 2 ^ 32, Nat.mod_lt _ (by decide)⟩

theorem ext_num {s t : AssetSymbol} (h : s.assetNum = t.assetNum) : s = t := by
  cases s
  cases t
  simpa using h

theorem fromAssetNum_eq {n : ℕ} {s : AssetSymbol} (h : n < 2 ^ 32) :
    fromAssetNum n = s ↔ n = s.assetNum := by
  constructor
  · rintro rfl
    exact (Nat.mod_eq_of_lt h).symm
  · exact fun hs ↦ ext_num ((Nat.mod_eq_of_lt h).trans hs)

/-- The legacy symbol that the asset number is the one of. -/
def legacy (s : AssetSymbol) : Option Legacy :=
  Legacy.ofNumber Legacy.assetNum s.assetNum

inductive Space
  | legacySpace
  | faiSpace
  deriving DecidableEq

def space (s : AssetSymbol) : Space :=
  match s.legacy with
  | some _ => .legacySpace
  | none => .faiSpace

def decimals (s : AssetSymbol) : ℕ :=
  s.assetNum &&& sgtAssetNumPrecisionMask

/-- The symbol itself if it is the one of a QI. -/
def isQi (s : AssetSymbol) : Bool :=
  match s.legacy with
  | some .qi => true
  | some _ => false
  | none => s.assetNum &&& sgtAssetNumQiMask ≠ 0

def getPairedSymbol (s : AssetSymbol) : AssetSymbol :=
  match s.legacy with
  | some .yang => fromAssetNum Legacy.qi.assetNum
  | some .qi => fromAssetNum Legacy.yang.assetNum
  | some _ => s
  | none => fromAssetNum (s.assetNum ^^^ sgtAssetNumQiMask)

def validate (s : AssetSymbol) : Except String Unit :=
  match s.legacy with
  | some _ => .ok ()
  | none =>
    let faiDataDigits := s.assetNum >>> taiyiFaiShift
    let fai1bit := s.assetNum &&& sgtAssetNumControlMask
    let faiDecimalPlaces := s.assetNum &&& sgtAssetNumPrecisionMask
    if sgtMinFai ≤ faiDataDigits ∧ faiDataDigits ≤ sgtMaxFai ∧ fai1bit = sgtAssetNumControlMask ∧
        faiDecimalPlaces ≤ taiyiAssetMaxDecimals then .ok ()
    else .error "Cannot determine space for asset"

/-- A symbol that passes `validate`. -/
def Valid (s : AssetSymbol) : Prop := s.validate = .ok ()

instance (s : AssetSymbol) : Decidable s.Valid :=
  inferInstanceAs (Decidable (s.validate = .ok ()))

theorem legacy_eq_some {s : AssetSymbol} {l : Legacy} : s.legacy = some l ↔ l.assetNum = s.assetNum :=
  Legacy.ofNumber_eq_some Legacy.assetNum_injective

theorem legacy_eq_none {s : AssetSymbol} : s.legacy = none ↔ ∀ l : Legacy, l.assetNum ≠ s.assetNum :=
  Legacy.ofNumber_eq_none

theorem decimals_eq (s : AssetSymbol) : s.decimals = s.assetNum % 16 :=
  Nat.and_two_pow_sub_one_eq_mod s.assetNum 4

theorem shift_eq (s : AssetSymbol) : s.assetNum >>> taiyiFaiShift = s.assetNum / 32 :=
  Nat.shiftRight_eq_div_pow s.assetNum 5

theorem control_iff (n : ℕ) : n &&& sgtAssetNumControlMask = sgtAssetNumControlMask ↔ n / 16 % 2 = 1 := by
  have h : n &&& 2 ^ 4 = (n.testBit 4).toNat * 2 ^ 4 := Nat.and_two_pow n 4
  rw [Nat.testBit_eq_decide_div_mod_eq] at h
  change n &&& 2 ^ 4 = 2 ^ 4 ↔ _
  rw [h]
  simp

/-- What passes `validate` is a legacy symbol or a FAI with its decimals. -/
theorem valid_iff {s : AssetSymbol} : s.Valid ↔ s.legacy ≠ none ∨
    ∃ d p, sgtMinFai ≤ d ∧ d ≤ sgtMaxFai ∧ p ≤ taiyiAssetMaxDecimals ∧
      s.assetNum = d * 32 + 16 + p := by
  unfold Valid validate
  cases hl : s.legacy with
  | some l => simp
  | none =>
    simp only [ne_eq, not_true_eq_false, false_or, ite_eq_left_iff, reduceCtorEq, imp_false, not_not,
      control_iff, shift_eq]
    have hd : s.assetNum &&& sgtAssetNumPrecisionMask = s.assetNum % 16 := decimals_eq s
    rw [hd]
    constructor
    · rintro ⟨hmin, hmax, hbit, hp⟩
      exact ⟨s.assetNum / 32, s.assetNum % 16, hmin, hmax, hp, by omega⟩
    · rintro ⟨d, p, hmin, hmax, hp, hn⟩
      have hp16 : p < 16 := hp.trans_lt (by decide)
      have h32 : s.assetNum / 32 = d := by omega
      have h16 : s.assetNum % 16 = p := by omega
      exact ⟨h32 ▸ hmin, h32 ▸ hmax, by omega, h16 ▸ hp⟩

section Paired

variable {s : AssetSymbol} {l : Legacy}

theorem isQi_legacy (h : s.legacy = some l) : s.isQi = decide (l = .qi) := by
  rw [isQi, h]
  cases l <;> rfl

theorem isQi_fai (h : s.legacy = none) : s.isQi = s.assetNum.testBit 5 := by
  have hand : s.assetNum &&& 2 ^ 5 = (s.assetNum.testBit 5).toNat * 2 ^ 5 := Nat.and_two_pow _ 5
  have hmask : sgtAssetNumQiMask = 2 ^ 5 := rfl
  rw [isQi, h]
  simp only [hmask, hand]
  cases s.assetNum.testBit 5 <;> rfl

theorem paired_num (h : s.legacy = none) : s.getPairedSymbol.assetNum = s.assetNum ^^^ 2 ^ 5 := by
  rw [getPairedSymbol, h]
  exact Nat.mod_eq_of_lt (Nat.xor_lt_two_pow s.fits (by decide))

/-- The bit of QI leads from a legacy symbol to another one. -/
theorem legacy_toggle (l : Legacy) : ∃ l' : Legacy, l'.assetNum = l.assetNum ^^^ 2 ^ 5 := by
  cases l
  · exact ⟨.yin, by decide⟩
  · exact ⟨.yang, by decide⟩
  · exact ⟨.gold, by decide⟩
  · exact ⟨.qi, by decide⟩
  · exact ⟨.wood, by decide⟩
  · exact ⟨.food, by decide⟩
  · exact ⟨.herb, by decide⟩
  · exact ⟨.fabric, by decide⟩

theorem paired_legacy (h : s.legacy = none) : s.getPairedSymbol.legacy = none := by
  rw [legacy_eq_none]
  intro l hl
  obtain ⟨l', hl'⟩ := legacy_toggle l
  rw [hl, paired_num h, Nat.xor_xor_cancel_right] at hl'
  exact legacy_eq_none.mp h l' hl'

theorem paired_paired (h : s.legacy = none) : s.getPairedSymbol.getPairedSymbol = s := by
  refine ext_num ?_
  rw [paired_num (paired_legacy h), paired_num h, Nat.xor_xor_cancel_right]

/-- The QI of a FAI is the pair of a symbol that is none. -/
theorem isQi_paired (h : s.legacy = none) : s.getPairedSymbol.isQi = !s.isQi := by
  rw [isQi_fai (paired_legacy h), isQi_fai h, paired_num h, Nat.testBit_xor, Nat.testBit_two_pow_self,
    Bool.xor_true]

end Paired

end AssetSymbol

end Taiyi.Protocol
