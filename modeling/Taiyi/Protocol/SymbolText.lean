import Mathlib.Data.FinEnum
import Mathlib.Data.List.TakeWhile
import Taiyi.Protocol.AssetSymbol

set_option autoImplicit false

namespace Taiyi.Protocol

open Library.Digits

namespace AssetSymbol

/-- The table of the Damm algorithm, in tens. -/
def dammTable : List ℕ := [
  0, 30, 10, 70, 50, 90, 80, 60, 40, 20,
  70, 0, 90, 20, 10, 50, 40, 80, 60, 30,
  40, 20, 0, 60, 80, 70, 10, 30, 50, 90,
  10, 70, 50, 0, 90, 80, 30, 40, 20, 60,
  60, 10, 20, 30, 0, 40, 50, 90, 70, 80,
  30, 60, 70, 40, 20, 0, 90, 50, 80, 10,
  50, 80, 60, 90, 70, 20, 0, 10, 30, 40,
  80, 90, 40, 50, 30, 60, 20, 0, 10, 70,
  90, 40, 30, 80, 60, 10, 70, 20, 0, 50,
  20, 50, 80, 10, 40, 30, 60, 70, 90, 0]

/-- One step of the checksum, `x = t[x+d]`. -/
def dammStep (x d : ℕ) : ℕ := dammTable.getD (x + d) 0

def dammChecksum8digit (value : ℕ) : Except String ℕ :=
  if value < 100000000 then
    let q0 := value / 10
    let d0 := value % 10
    let q1 := q0 / 10
    let d1 := q0 % 10
    let q2 := q1 / 10
    let d2 := q1 % 10
    let q3 := q2 / 10
    let d3 := q2 % 10
    let q4 := q3 / 10
    let d4 := q3 % 10
    let q5 := q4 / 10
    let d5 := q4 % 10
    let d6 := q5 % 10
    let d7 := q5 / 10
    .ok ([d6, d5, d4, d3, d2, d1, d0].foldl dammStep (dammTable.getD d7 0) / 10)
  else .error "value < 100000000"

def assetNumFromFai (fai decimalPlaces : ℕ) : Except String ℕ :=
  let faiCheckDigit := fai % 10
  let faiDataDigits := fai / 10
  if sgtMinFai ≤ faiDataDigits ∧ faiDataDigits ≤ sgtMaxFai then
    match dammChecksum8digit faiDataDigits with
    | .error e => .error e
    | .ok checksum =>
      if faiCheckDigit = checksum then
        match Legacy.ofNumber Legacy.fai faiDataDigits with
        | some l =>
          if decimalPlaces = l.precision then .ok l.assetNum
          else .error "decimal_places == TAIYI_PRECISION"
        | none =>
          if decimalPlaces ≤ taiyiAssetMaxDecimals then
            .ok (faiDataDigits <<< taiyiFaiShift ||| sgtAssetNumControlMask ||| decimalPlaces)
          else .error "Invalid decimal_places"
      else .error "Invalid check digit"
  else .error "FAI out of range"

def fromFai (fai decimalPlaces : ℕ) : Except String AssetSymbol :=
  (assetNumFromFai fai decimalPlaces).map fromAssetNum

/-- The digits of a FAI in front of its check digit. -/
def faiDataDigits (s : AssetSymbol) : ℕ :=
  match s.legacy with
  | some l => l.fai
  | none => s.assetNum >>> taiyiFaiShift

def toFai (s : AssetSymbol) : Except String ℕ :=
  match dammChecksum8digit s.faiDataDigits with
  | .error e => .error e
  | .ok faiCheckDigit => .ok (s.faiDataDigits * 10 + faiCheckDigit)

def atSign : UInt8 := '@'.toUInt8

def toFaiString (s : AssetSymbol) : Except String (List UInt8) :=
  match s.toFai with
  | .error e => .error e
  | .ok x =>
    let x1 := x / 10
    let x2 := x1 / 10
    let x3 := x2 / 10
    let x4 := x3 / 10
    let x5 := x4 / 10
    let x6 := x5 / 10
    let x7 := x6 / 10
    let x8 := x7 / 10
    .ok [atSign, atSign, char x8, char (x7 % 10), char (x6 % 10), char (x5 % 10), char (x4 % 10),
      char (x3 % 10), char (x2 % 10), char (x1 % 10), char (x % 10)]

/-- `boost::lexical_cast< uint32_t >`: it reads a number with an optional sign, and a number with
a minus as its two's complement. -/
structure LexicalCast (cast : List UInt8 → Option ℕ) : Prop where
  digits : ∀ s, s ≠ [] → (∀ c ∈ s, isDigit c = true) → decimal s < 2 ^ 32 → cast s = some (decimal s)
  signed : ∀ s v, cast s = some v → ∃ sign ds, s = sign ++ ds ∧ ds ≠ [] ∧
    (∀ c ∈ ds, isDigit c = true) ∧ decimal ds < 2 ^ 32 ∧
    ((sign = [] ∨ sign = ['+'.toUInt8]) ∧ v = decimal ds ∨
      sign = ['-'.toUInt8] ∧ v = (2 ^ 32 - decimal ds) % 2 ^ 32)

/-- What a `const char*` into the string shows of it. -/
def cStr (str : List UInt8) : List UInt8 :=
  str.takeWhile (· ≠ 0)

def fromFaiString (cast : List UInt8 → Option ℕ) (str : List UInt8) (decimalPlaces : ℕ) :
    Except String AssetSymbol :=
  let p := cStr str
  if p.length ≠ 11 then .error "Incorrect FAI string length"
  else if ¬(p.getD 0 0 = atSign ∧ p.getD 1 0 = atSign) then .error "Invalid FAI string prefix"
  else
    match cast (p.drop 2) with
    | none => .error "bad_lexical_cast"
    | some fai => fromFai fai decimalPlaces

/-- The values that an `fc::variant` takes here. -/
inductive Variant
  | uint64 (n : ℕ)
  | string (s : List UInt8)
  | object (fields : List (String × Variant))
  | other

def Variant.find (fields : List (String × Variant)) (key : String) : Option Variant :=
  (fields.find? fun f ↦ f.1 = key).map Prod.snd

def toVariant (s : AssetSymbol) : Except String Variant :=
  s.toFaiString.map fun fai ↦ .object [("fai", .string fai), ("decimals", .uint64 s.decimals)]

def fromVariant (cast : List UInt8 → Option ℕ) : Variant → Except String AssetSymbol
  | .object fields =>
    match Variant.find fields "fai" with
    | none => .error "Expected key 'fai'."
    | some (.string fai) =>
      match Variant.find fields "decimals" with
      | none => .error "Expected key 'decimals'."
      | some (.uint64 decimals) =>
        if decimals ≤ taiyiAssetMaxDecimals then fromFaiString cast fai decimals
        else .error "Expected decimals to be less than or equal to 12"
      | some _ => .error "Expected an unsigned integer type for value 'decimals'."
    | some _ => .error "Expected a string type for value 'fai'."
  | _ => .error "Asset symbol is expected to be an object."

section Fai

variable {s t : AssetSymbol} {n p : ℕ}

theorem dammTable_le (i : ℕ) : dammTable.getD i 0 ≤ 90 := by
  have hall : ∀ x ∈ dammTable, x ≤ 90 := by decide
  rw [List.getD_eq_getElem?_getD]
  cases h : dammTable[i]? with
  | none => exact Nat.zero_le _
  | some x => exact hall x (List.mem_of_getElem? h)

theorem dammChecksum_ok (h : n ≤ sgtMaxFai) : ∃ c < 10, dammChecksum8digit n = .ok c := by
  have hn : n < 100000000 := Nat.lt_succ_of_le h
  simp only [dammChecksum8digit, if_pos hn]
  refine ⟨_, ?_, rfl⟩
  simp only [List.foldl_cons, List.foldl_nil]
  exact Nat.div_lt_of_lt_mul (Nat.lt_of_le_of_lt (dammTable_le _) (by decide))

/-- The data digits of a valid symbol have a check digit. -/
theorem Valid.faiDataDigits_bounds (h : s.Valid) :
    sgtMinFai ≤ s.faiDataDigits ∧ s.faiDataDigits ≤ sgtMaxFai := by
  unfold faiDataDigits
  cases hl : s.legacy with
  | some l =>
    obtain ⟨hmin, hmax⟩ := l.fai_bounds
    exact ⟨hmin, hmax.trans (by decide)⟩
  | none =>
    obtain ⟨d, p, hmin, hmax, hp, hn⟩ := (valid_iff.mp h).resolve_left (by simp [hl])
    have hp12 : p ≤ 12 := hp
    have hd : s.assetNum >>> taiyiFaiShift = d := by
      rw [shift_eq]
      omega
    exact ⟨hd ▸ hmin, hd ▸ hmax⟩

theorem Valid.toFai_ok (h : s.Valid) :
    ∃ c < 10, dammChecksum8digit s.faiDataDigits = .ok c ∧ s.toFai = .ok (s.faiDataDigits * 10 + c) := by
  obtain ⟨c, hc, hd⟩ := dammChecksum_ok h.faiDataDigits_bounds.2
  refine ⟨c, hc, hd, ?_⟩
  rw [toFai, hd]

theorem Valid.decimals_le (h : s.Valid) : s.decimals ≤ taiyiAssetMaxDecimals := by
  rw [decimals_eq]
  cases hl : s.legacy with
  | some l =>
    have hn := legacy_eq_some.mp hl
    rw [Legacy.assetNum_eq] at hn
    obtain ⟨hlt, hle⟩ := l.precision_lt
    have hmod : s.assetNum % 16 = l.precision := by omega
    exact hmod ▸ hle
  | none =>
    obtain ⟨d, p, -, -, hp, hn⟩ := (valid_iff.mp h).resolve_left (by simp [hl])
    have hp12 : p < 16 := hp.trans_lt (by decide)
    have hmod : s.assetNum % 16 = p := by omega
    exact hmod ▸ hp

/-- The number that the fields of a FAI are packed into. -/
theorem packed_eq (d : ℕ) (h : p ≤ taiyiAssetMaxDecimals) :
    d <<< taiyiFaiShift ||| sgtAssetNumControlMask ||| p = d * 32 + 16 + p := by
  have hp : p < 16 := h.trans_lt (by decide)
  have hlow : 2 ^ 4 * 1 + p = 2 ^ 4 * 1 ||| p := Nat.two_pow_add_eq_or_of_lt hp 1
  have hhigh : d <<< 5 + (16 + p) = d <<< 5 ||| (16 + p) := Nat.shiftLeft_add_eq_or_of_lt (by omega) d
  have hshift : d <<< 5 = d * 32 := Nat.shiftLeft_eq d 5
  calc d <<< 5 ||| 16 ||| p = d <<< 5 ||| (16 ||| p) := Nat.or_assoc _ _ _
    _ = d <<< 5 ||| (16 + p) := by rw [show 16 ||| p = 16 + p from hlow.symm]
    _ = d * 32 + 16 + p := by rw [← hhigh, hshift, Nat.add_assoc]

/-- The symbol that is read from a FAI whose check digit is right. -/
theorem fromFai_eq {d c : ℕ} (hmin : sgtMinFai ≤ d) (hmax : d ≤ sgtMaxFai) (hc : c < 10)
    (hd : dammChecksum8digit d = .ok c) : fromFai (d * 10 + c) p =
      match Legacy.ofNumber Legacy.fai d with
      | some l => if p = l.precision then .ok (fromAssetNum l.assetNum)
        else .error "decimal_places == TAIYI_PRECISION"
      | none => if p ≤ taiyiAssetMaxDecimals then .ok (fromAssetNum (d * 32 + 16 + p))
        else .error "Invalid decimal_places" := by
  have hdiv : (d * 10 + c) / 10 = d := by omega
  have hmod : (d * 10 + c) % 10 = c := by omega
  simp only [fromFai, assetNumFromFai, hdiv, hmod, hd, if_pos (And.intro hmin hmax), ↓reduceIte]
  cases Legacy.ofNumber Legacy.fai d with
  | some l =>
    simp only
    split <;> rfl
  | none =>
    by_cases hp : p ≤ taiyiAssetMaxDecimals
    · simp only [if_pos hp, packed_eq d hp]
      rfl
    · simp only [if_neg hp]
      rfl

/-- The digits of the symbol are those of a legacy symbol, though it is none. -/
def Aliased (s : AssetSymbol) : Prop :=
  s.legacy = none ∧ ∃ l : Legacy, l.fai = s.faiDataDigits

/-- Reading the FAI of a symbol with its decimals. -/
theorem fromFai_toFai_iff (h : s.Valid) {x : ℕ} (hx : s.toFai = .ok x) :
    fromFai x s.decimals = .ok s ↔ ¬s.Aliased := by
  obtain ⟨hmin, hmax⟩ := h.faiDataDigits_bounds
  obtain ⟨c, hc, hd, hfai⟩ := h.toFai_ok
  have hle := h.decimals_le
  rw [hx, Except.ok.injEq] at hfai
  rw [hfai, fromFai_eq hmin hmax hc hd]
  cases hl : s.legacy with
  | some l =>
    have hn := legacy_eq_some.mp hl
    have hdigits : s.faiDataDigits = l.fai := by rw [faiDataDigits, hl]
    have hnum : s.assetNum = (sgtMaxFai + l.fai) * 32 + l.precision := hn ▸ l.assetNum_eq
    obtain ⟨hlt, -⟩ := l.precision_lt
    have hprec : s.decimals = l.precision := by
      rw [decimals_eq]
      omega
    rw [hdigits, (Legacy.ofNumber_eq_some Legacy.fai_injective).mpr rfl]
    simp only [hprec, ↓reduceIte, Except.ok.injEq]
    refine iff_of_true ((fromAssetNum_eq (hn ▸ s.fits)).mpr hn) fun ha ↦ ?_
    rw [ha.1] at hl
    cases hl
  | none =>
    obtain ⟨d, p, hdmin, hdmax, hp, hn⟩ := (valid_iff.mp h).resolve_left (by simp [hl])
    have hp16 : p < 16 := hp.trans_lt (by decide)
    have hdigits : s.faiDataDigits = d := by
      rw [faiDataDigits, hl]
      simp only [shift_eq]
      omega
    have hdec : s.decimals = p := by
      rw [decimals_eq]
      omega
    cases hf : Legacy.ofNumber Legacy.fai s.faiDataDigits with
    | none =>
      simp only [hdigits, hdec, if_pos hp, ← hn, Except.ok.injEq]
      refine iff_of_true ((fromAssetNum_eq s.fits).mpr rfl) fun ha ↦ ?_
      obtain ⟨-, l, hlf⟩ := ha
      exact Legacy.ofNumber_eq_none.mp hf l hlf
    | some l =>
      refine iff_of_false (fun heq ↦ ?_) fun hna ↦ hna ⟨hl, l, (Legacy.ofNumber_eq_some Legacy.fai_injective).mp hf⟩
      simp only at heq
      split at heq
      · rw [Except.ok.injEq, fromAssetNum_eq l.assetNum_lt] at heq
        exact legacy_eq_none.mp hl l heq
      · cases heq

end Fai

section Text

variable {s t : AssetSymbol} {cast : List UInt8 → Option ℕ} {p : ℕ}

/-- The string of a FAI. -/
def spell (x : ℕ) : List UInt8 :=
  [atSign, atSign] ++ (low 10 9 x).reverse.map char

theorem toFaiString_eq {x : ℕ} (h : s.toFai = .ok x) (hx : x < 10 ^ 9) :
    s.toFaiString = .ok (spell x) := by
  have h8 : x / 10 / 10 / 10 / 10 / 10 / 10 / 10 / 10 % 10 = x / 10 / 10 / 10 / 10 / 10 / 10 / 10 / 10 := by
    omega
  simp only [toFaiString, h, spell, low, h8, List.reverse_cons, List.reverse_nil, List.nil_append,
    List.cons_append, List.map_cons, List.map_nil]

/-- Reading nine digits reads the FAI that they spell. -/
theorem fromFaiString_digits (hcast : LexicalCast cast) {ds : List UInt8} (hlen : ds.length = 9)
    (hdigits : ∀ c ∈ ds, isDigit c = true) :
    fromFaiString cast ([atSign, atSign] ++ ds) p = fromFai (decimal ds) p := by
  have hzero : ∀ c ∈ [atSign, atSign] ++ ds, c ≠ 0 := by
    intro c hc
    rcases List.mem_append.mp hc with hc | hc
    · have hat : c = atSign := by simpa using hc
      rw [hat]
      decide
    · rintro rfl
      exact absurd (hdigits 0 hc) (by decide)
  have hstr : cStr ([atSign, atSign] ++ ds) = [atSign, atSign] ++ ds :=
    List.takeWhile_eq_self_iff.mpr fun c hc ↦ by simpa using hzero c hc
  have hlt : decimal ds < 10 ^ 9 := hlen ▸ decimal_lt hdigits
  have hne : ds ≠ [] := List.length_pos_iff.mp (by omega)
  have hread := hcast.digits ds hne hdigits (by omega)
  have hlen' : ([atSign, atSign] ++ ds).length = 11 := by
    rw [List.length_append, hlen]
    rfl
  have hdrop : ([atSign, atSign] ++ ds).drop 2 = ds := rfl
  simp only [fromFaiString, hstr, hlen', ne_eq, not_true_eq_false, ↓reduceIte, hdrop, hread]
  rfl

/-- Reading the string of a FAI reads the FAI. -/
theorem fromFaiString_spell (hcast : LexicalCast cast) {x : ℕ} (hx : x < 10 ^ 9) :
    fromFaiString cast (spell x) p = fromFai x p := by
  have hlen : ((low 10 9 x).reverse.map char).length = 9 := by
    rw [List.length_map, List.length_reverse, length_low]
  rw [spell, fromFaiString_digits hcast hlen (isDigit_low 9 x), decimal_low hx]

/-- The symbol is read back from its string and from its object. -/
structure RoundTrips (cast : List UInt8 → Option ℕ) (s : AssetSymbol) : Prop where
  string : ∃ str, s.toFaiString = .ok str ∧ fromFaiString cast str s.decimals = .ok s
  object : ∃ v, s.toVariant = .ok v ∧ fromVariant cast v = .ok s

theorem roundTrips_iff (hcast : LexicalCast cast) (h : s.Valid) : RoundTrips cast s ↔ ¬s.Aliased := by
  obtain ⟨c, hc, hd, hfai⟩ := h.toFai_ok
  have hmax : s.faiDataDigits ≤ 99999999 := h.faiDataDigits_bounds.2
  have hlt : s.faiDataDigits * 10 + c < 10 ^ 9 := by omega
  have hstr := toFaiString_eq hfai hlt
  have hread := fromFai_toFai_iff h hfai
  rw [← fromFaiString_spell hcast hlt] at hread
  constructor
  · rintro ⟨⟨str, hs, hok⟩, -⟩
    rw [hstr, Except.ok.injEq] at hs
    exact hread.mp (hs ▸ hok)
  · intro hna
    have hok := hread.mpr hna
    refine ⟨⟨_, hstr, hok⟩, _, by rw [toVariant, hstr]; rfl, ?_⟩
    simp only [fromVariant, Variant.find, List.find?, String.reduceEq, decide_true, decide_false,
      Option.map_some, if_pos h.decimals_le, hok]

/-- The FAI of a legacy symbol with its decimals, packed like any other. -/
def Twins (s t : AssetSymbol) : Prop :=
  ∃ l, s.legacy = some l ∧
    t.assetNum = l.fai <<< taiyiFaiShift ||| sgtAssetNumControlMask ||| l.precision

/-- The texts of two symbols tell them apart. -/
def Distinct (s t : AssetSymbol) : Prop :=
  s.toFai ≠ t.toFai ∨ s.decimals ≠ t.decimals

theorem legacy_num {l : Legacy} (h : s.legacy = some l) : s.faiDataDigits = l.fai ∧
    s.decimals = l.precision ∧ s.assetNum = (sgtMaxFai + l.fai) * 32 + l.precision := by
  have hn : s.assetNum = (sgtMaxFai + l.fai) * 32 + l.precision :=
    (legacy_eq_some.mp h).symm.trans l.assetNum_eq
  obtain ⟨hlt, -⟩ := l.precision_lt
  refine ⟨by rw [faiDataDigits, h], ?_, hn⟩
  rw [decimals_eq]
  omega

theorem Valid.plain_num (hv : s.Valid) (h : s.legacy = none) :
    s.assetNum = s.faiDataDigits * 32 + 16 + s.decimals := by
  obtain ⟨d, p, -, -, hp, hn⟩ := (valid_iff.mp hv).resolve_left (by simp [h])
  have hp16 : p < 16 := hp.trans_lt (by decide)
  rw [faiDataDigits, h, decimals_eq]
  simp only [shift_eq]
  omega

/-- The texts of two symbols agree when those of their data digits and their decimals do. -/
theorem not_distinct_iff (hs : s.Valid) (ht : t.Valid) :
    ¬Distinct s t ↔ s.faiDataDigits = t.faiDataDigits ∧ s.decimals = t.decimals := by
  obtain ⟨c, hc, hd, hfai⟩ := hs.toFai_ok
  obtain ⟨c', hc', hd', hfai'⟩ := ht.toFai_ok
  rw [Distinct, not_or, not_ne_iff, not_ne_iff, hfai, hfai', Except.ok.injEq]
  constructor
  · rintro ⟨hx, hp⟩
    exact ⟨by omega, hp⟩
  · rintro ⟨hx, hp⟩
    rw [hx, hd', Except.ok.injEq] at hd
    exact ⟨by omega, hp⟩

theorem twins_iff {l : Legacy} (hl : s.legacy = some l) (hv : t.Valid) (ht : t.legacy = none) :
    Twins s t ↔ s.faiDataDigits = t.faiDataDigits ∧ s.decimals = t.decimals := by
  obtain ⟨hd, hp, -⟩ := legacy_num hl
  have hn := hv.plain_num ht
  obtain ⟨hlt, hle⟩ := l.precision_lt
  have hdec : t.decimals < 16 := hv.decimals_le.trans_lt (by decide)
  rw [hd, hp]
  constructor
  · rintro ⟨l', hl', ht'⟩
    rw [hl, Option.some.injEq] at hl'
    rw [← hl', packed_eq _ hle] at ht'
    omega
  · rintro ⟨hd', hp'⟩
    refine ⟨l, hl, ?_⟩
    rw [packed_eq _ hle, hd', hp', hn]

theorem Twins.legacy {l : Legacy} (h : Twins s t) (ht : t.legacy = some l) : False := by
  obtain ⟨l', -, hn⟩ := h
  obtain ⟨-, -, ht⟩ := legacy_num ht
  obtain ⟨-, hle⟩ := l'.precision_lt
  have hmax : sgtMaxFai = 99999999 := rfl
  have h8 := l'.fai_bounds.2
  have hle' : l'.precision ≤ 12 := hle
  rw [packed_eq _ hle] at hn
  omega

/-- The texts of two valid symbols agree for twins alone. -/
theorem distinct_iff (hs : s.Valid) (ht : t.Valid) (hne : s ≠ t) :
    Distinct s t ↔ ¬(Twins s t ∨ Twins t s) := by
  rw [← not_iff_not, not_not, not_distinct_iff hs ht]
  cases hl : s.legacy with
  | some l =>
    rw [or_iff_left fun h ↦ h.legacy hl]
    cases hl' : t.legacy with
    | some l' =>
      refine iff_of_false (fun h ↦ hne (ext_num ?_)) fun h ↦ h.legacy hl'
      obtain ⟨hd, -, -⟩ := legacy_num hl
      obtain ⟨hd', -, -⟩ := legacy_num hl'
      have hll : l = l' := Legacy.fai_injective (by rw [← hd, ← hd', h.1])
      rw [← legacy_eq_some.mp hl, ← legacy_eq_some.mp hl', hll]
    | none => exact (twins_iff hl ht hl').symm
  | none =>
    have hst : ¬Twins s t := by
      rintro ⟨l, hl', -⟩
      rw [hl] at hl'
      cases hl'
    rw [or_iff_right hst]
    cases hl' : t.legacy with
    | some l' =>
      rw [twins_iff hl' hs hl]
      exact and_congr eq_comm eq_comm
    | none =>
      refine iff_of_false (fun h ↦ hne (ext_num ?_)) ?_
      · rw [hs.plain_num hl, ht.plain_num hl', h.1, h.2]
      · rintro ⟨l, hl'', -⟩
        rw [hl'] at hl''
        cases hl''

end Text

section Reject

variable {cast : List UInt8 → Option ℕ}

/-- A FAI string of the right length whose check digit is right. -/
structure Checked (p : List UInt8) : Prop where
  length : p.length = 11
  check : ∃ plus body c, p = [atSign, atSign] ++ (plus ++ (body ++ [c])) ∧
    (plus = [] ∨ plus = ['+'.toUInt8]) ∧ (∀ d ∈ body, isDigit d = true) ∧ isDigit c = true ∧
    dammChecksum8digit (decimal body) = .ok (digit c)

/-- A FAI that is read has its data digits in range and its check digit right. -/
theorem fromFai_ok {fai p : ℕ} {s : AssetSymbol} (h : fromFai fai p = .ok s) :
    sgtMinFai ≤ fai / 10 ∧ fai / 10 ≤ sgtMaxFai ∧ dammChecksum8digit (fai / 10) = .ok (fai % 10) := by
  unfold fromFai assetNumFromFai at h
  simp only at h
  split at h
  · next hrange =>
    split at h
    · cases h
    · next checksum hd =>
      split at h
      · next hc => exact ⟨hrange.1, hrange.2, hc ▸ hd⟩
      · cases h
  · cases h

theorem fromFaiString_ok (hcast : LexicalCast cast) {str : List UInt8} {p : ℕ} {s : AssetSymbol}
    (h : fromFaiString cast str p = .ok s) : Checked (cStr str) := by
  unfold fromFaiString at h
  simp only at h
  split at h
  · cases h
  next hlen =>
  split at h
  · cases h
  next hat =>
  split at h
  · cases h
  next fai hread =>
  rw [not_not] at hlen hat
  obtain ⟨hmin, hmax, hcheck⟩ := fromFai_ok h
  obtain ⟨sign, ds, hdrop, hne, hdigits, hlt, hsign⟩ := hcast.signed _ _ hread
  obtain ⟨body, c, rfl⟩ := (List.eq_nil_or_concat' ds).resolve_left hne
  have hc : isDigit c = true := hdigits c (List.mem_append_right _ List.mem_cons_self)
  have hc10 := digit_lt hc
  have hvalue := decimal_concat body c
  have hp : cStr str = [atSign, atSign] ++ (cStr str).drop 2 := by
    match hm : cStr str with
    | [] | [_] => simp [hm] at hlen
    | a :: b :: rest =>
      simp only [hm, List.getD_cons_zero, List.getD_cons_succ] at hat
      rw [hat.1, hat.2]
      rfl
  rcases hsign with ⟨hplus, rfl⟩ | ⟨rfl, hminus⟩
  · refine ⟨hlen, sign, body, c, hdrop ▸ hp, hplus,
      fun d hd ↦ hdigits d (List.mem_append_left _ hd), hc, ?_⟩
    have hdiv : decimal (body ++ [c]) / 10 = decimal body := by omega
    have hmod : decimal (body ++ [c]) % 10 = digit c := by omega
    rwa [hdiv, hmod] at hcheck
  -- a number with a minus is out of range
  · have hds : (body ++ [c]).length = 8 := by
      have := congrArg List.length hdrop
      rw [List.length_drop, List.length_append, hlen, List.length_singleton] at this
      omega
    have hsmall := decimal_lt hdigits
    have hmax' : fai / 10 ≤ 99999999 := hmax
    have hmin' : 1 ≤ fai / 10 := hmin
    rw [hds] at hsmall
    by_cases hzero : decimal (body ++ [c]) = 0
    · rw [hzero, Nat.sub_zero, Nat.mod_self] at hminus
      omega
    · rw [Nat.mod_eq_of_lt (by omega)] at hminus
      omega

/-- A number without a sign. -/
def readDigits (ds : List UInt8) : Option ℕ :=
  if ds ≠ [] ∧ (∀ d ∈ ds, isDigit d = true) ∧ decimal ds < 2 ^ 32 then some (decimal ds) else none

theorem readDigits_eq_some {ds : List UInt8} {v : ℕ} : readDigits ds = some v ↔
    (ds ≠ [] ∧ (∀ d ∈ ds, isDigit d = true) ∧ decimal ds < 2 ^ 32) ∧ v = decimal ds := by
  rw [readDigits, Option.ite_none_right_eq_some, Option.some.injEq, eq_comm (a := v)]

/-- A number with an optional sign. -/
def readNumber : List UInt8 → Option ℕ
  | [] => none
  | c :: ds =>
    if c = '-'.toUInt8 then (readDigits ds).map fun v ↦ (2 ^ 32 - v) % 2 ^ 32
    else if c = '+'.toUInt8 then readDigits ds
    else readDigits (c :: ds)

theorem lexicalCast_readNumber : LexicalCast readNumber := by
  constructor
  · intro s hne hdigits hlt
    match s with
    | [] => exact absurd rfl hne
    | c :: ds =>
      have hc := hdigits c List.mem_cons_self
      have hminus : c ≠ '-'.toUInt8 := by
        rintro rfl
        exact absurd hc (by decide)
      have hplus : c ≠ '+'.toUInt8 := by
        rintro rfl
        exact absurd hc (by decide)
      rw [readNumber, if_neg hminus, if_neg hplus]
      exact readDigits_eq_some.mpr ⟨⟨hne, hdigits, hlt⟩, rfl⟩
  · intro s v h
    match s with
    | [] => cases h
    | c :: ds =>
      rw [readNumber] at h
      split at h
      · next hminus =>
        obtain ⟨w, hw, rfl⟩ := Option.map_eq_some_iff.mp h
        obtain ⟨⟨hne, hdigits, hlt⟩, rfl⟩ := readDigits_eq_some.mp hw
        exact ⟨[c], ds, rfl, hne, hdigits, hlt, .inr ⟨by rw [hminus], rfl⟩⟩
      · split at h
        · next hplus =>
          obtain ⟨⟨hne, hdigits, hlt⟩, rfl⟩ := readDigits_eq_some.mp h
          exact ⟨[c], ds, rfl, hne, hdigits, hlt, .inl ⟨.inr (by rw [hplus]), rfl⟩⟩
        · obtain ⟨⟨hne, hdigits, hlt⟩, rfl⟩ := readDigits_eq_some.mp h
          exact ⟨[], c :: ds, rfl, hne, hdigits, hlt, .inl ⟨.inl rfl, rfl⟩⟩

end Reject

/-- A symbol is read back unless it is none of the legacy symbols but has the digits of one; two
symbols share their FAI and decimals when one is legacy and the other has its digits; and no
string of another length or with another check digit is read. -/
theorem symbolText_iff {cast : List UInt8 → Option ℕ} (hcast : LexicalCast cast) :
    (∀ s : AssetSymbol, s.Valid → (RoundTrips cast s ↔ ¬s.Aliased)) ∧
    (∀ s t : AssetSymbol, s.Valid → t.Valid → s ≠ t → (Distinct s t ↔ ¬(Twins s t ∨ Twins t s))) ∧
    ∀ str p, ¬Checked (cStr str) → ∃ e, fromFaiString cast str p = .error e := by
  refine ⟨fun _ h ↦ roundTrips_iff hcast h, fun _ _ hs ht hne ↦ distinct_iff hs ht hne, ?_⟩
  intro str p hnot
  cases h : fromFaiString cast str p with
  | error e => exact ⟨e, rfl⟩
  | ok s => exact absurd (fromFaiString_ok hcast h) hnot

theorem symbolText_gold : RoundTrips readNumber (fromAssetNum Legacy.gold.assetNum) ∧
    ∃ e, fromFaiString readNumber [atSign, atSign] 6 = .error e := by
  have h := symbolText_iff lexicalCast_readNumber
  exact ⟨(h.1 _ (by decide)).mpr fun ha ↦ absurd ha.1 (by decide),
    h.2.2 _ _ fun hc ↦ absurd hc.length (by decide)⟩

/-- The data digits of YIN with the control bit: the string of this symbol reads as YIN. -/
theorem not_roundTrips_aliased : ¬∀ s : AssetSymbol, s.Valid → RoundTrips readNumber s := by
  intro h
  have hv : (fromAssetNum 51).Valid := by decide
  refine (roundTrips_iff lexicalCast_readNumber hv).mp (h _ hv) ⟨by decide, .yin, by decide⟩

end AssetSymbol

end Taiyi.Protocol
