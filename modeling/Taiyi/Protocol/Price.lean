import Taiyi.Library.Words

set_option autoImplicit false

namespace Taiyi.Protocol

open Library.Words

/-- An `int64_t` with its symbol. -/
structure Asset where
  amount : ℤ
  symbol : ℕ
  fits : IsSigned 63 amount
  deriving DecidableEq

/-- The asset of an unsigned result, of which the amount keeps 64 bits. -/
def Asset.narrow (result : ℤ) (symbol : ℕ) : Asset :=
  ⟨toSigned 63 result, symbol, isSigned_toSigned 63 result⟩

/-- A price that passes `price::validate`, as its constructor asserts. -/
structure Price where
  base : Asset
  quote : Asset
  base_pos : 0 < base.amount
  quote_pos : 0 < quote.amount
  symbols : base.symbol ≠ quote.symbol

/-- A branch of `asset * price`, from one side of the price to the other. -/
def convert (a : Asset) (this other : Asset) : Except String Asset :=
  if this.amount ≤ 0 then .error "amount.value > 0"
  else
    let result := toUnsigned 128 (toUnsigned 128 a.amount * toUnsigned 128 other.amount) / toUnsigned 128 this.amount
    if result / 2 ^ 64 ≠ 0 then .error "result.hi == 0"
    else .ok (.narrow result other.symbol)

/-- `operator * ( const asset& a, const price& b )`. -/
def mul (a : Asset) (b : Price) : Except String Asset :=
  if a.symbol = b.base.symbol then convert a b.base b.quote
  else if a.symbol = b.quote.symbol then convert a b.quote b.base
  else .error "invalid asset * price"

section Convert

variable {a b this other : Asset}

/-- The quotient that has no place in an `int64_t` but passes the test of its high half. -/
def Narrowed (a this other : Asset) : Prop :=
  2 ^ 63 * this.amount ≤ a.amount * other.amount ∧ a.amount * other.amount < 2 ^ 64 * this.amount

theorem product_bounds (hother : 0 < other.amount) :
    -2 ^ 126 ≤ a.amount * other.amount ∧ a.amount * other.amount < 2 ^ 126 := by
  have ha := a.fits
  have ho := other.fits
  unfold IsSigned at ha ho
  constructor <;> nlinarith

/-- An amount that is not negative is converted to the quotient, if its high half is zero. -/
theorem convert_nonneg (ha : 0 ≤ a.amount) (hthis : 0 < this.amount) (hother : 0 < other.amount) :
    convert a this other = if 2 ^ 64 ≤ a.amount * other.amount / this.amount then .error "result.hi == 0"
      else .ok (.narrow (a.amount * other.amount / this.amount) other.symbol) := by
  have hfa := a.fits
  have hft := this.fits
  have hfo := other.fits
  have hp := product_bounds (a := a) hother
  have hnonneg : 0 ≤ a.amount * other.amount := Int.mul_nonneg ha hother.le
  have hq : 0 ≤ a.amount * other.amount / this.amount := Int.ediv_nonneg hnonneg hthis.le
  unfold IsSigned at hfa hft hfo
  rw [convert, if_neg (by omega), toUnsigned_of_lt ha (by omega),
    toUnsigned_of_lt hother.le (by omega), toUnsigned_of_lt hnonneg (by omega),
    toUnsigned_of_lt hthis.le (by omega)]
  dsimp only
  by_cases h : 2 ^ 64 ≤ a.amount * other.amount / this.amount
  · rw [if_pos h, if_pos (by omega)]
  · rw [if_neg h, if_neg (by omega)]

/-- The high half of a negative amount is never zero. -/
theorem convert_neg (ha : a.amount < 0) (hthis : 0 < this.amount) (hother : 0 < other.amount) :
    convert a this other = .error "result.hi == 0" := by
  have hfa := a.fits
  have hft := this.fits
  have hfo := other.fits
  have hp := product_bounds (a := a) hother
  have hneg : a.amount * other.amount < 0 := Int.mul_neg_of_neg_of_pos ha hother
  unfold IsSigned at hfa hft hfo
  have hwrapped : toUnsigned 128 ((a.amount + 2 ^ 128) * other.amount) = a.amount * other.amount + 2 ^ 128 := by
    rw [← toUnsigned_of_neg hneg (by omega), toUnsigned, toUnsigned, add_mul, Int.add_mul_emod_self_left]
  rw [convert, if_neg (by omega), toUnsigned_of_neg ha (by omega),
    toUnsigned_of_lt hother.le (by omega), hwrapped, toUnsigned_of_lt hthis.le (by omega)]
  have hlarge : 2 ^ 64 ≤ (a.amount * other.amount + 2 ^ 128) / this.amount :=
    Int.le_ediv_of_mul_le hthis (by omega)
  dsimp only
  rw [if_pos (by omega)]

/-- What a conversion gives is the exact quotient, unless that is cut down to 64 bits. -/
theorem convert_exact (hthis : 0 < this.amount) (hother : 0 < other.amount)
    (hnot : ¬Narrowed a this other) (h : convert a this other = .ok b) :
    0 ≤ a.amount ∧ b.symbol = other.symbol ∧ b.amount = a.amount * other.amount / this.amount := by
  by_cases ha : 0 ≤ a.amount
  · have hq : 0 ≤ a.amount * other.amount / this.amount :=
      Int.ediv_nonneg (Int.mul_nonneg ha hother.le) hthis.le
    rw [convert_nonneg ha hthis hother] at h
    split at h
    · cases h
    · next hlt =>
      cases h
      refine ⟨ha, rfl, toSigned_of_isSigned ⟨by omega, ?_⟩⟩
      by_contra hge
      refine hnot ⟨?_, ?_⟩
      · have := Int.mul_le_of_le_ediv hthis (Int.not_lt.mp hge)
        linarith
      · have := Int.lt_mul_of_ediv_lt hthis (Int.not_le.mp hlt)
        linarith
  · rw [convert_neg (by omega) hthis hother] at h
    cases h

/-- A quotient that is cut down comes out negative. -/
theorem convert_narrowed (hthis : 0 < this.amount) (hother : 0 < other.amount)
    (h : Narrowed a this other) : ∃ b, convert a this other = .ok b ∧ b.amount < 0 := by
  obtain ⟨hge, hlt⟩ := h
  have ha : 0 ≤ a.amount := by
    by_contra hneg
    have : a.amount * other.amount < 0 := Int.mul_neg_of_neg_of_pos (by omega) hother
    omega
  have hq : 2 ^ 63 ≤ a.amount * other.amount / this.amount :=
    Int.le_ediv_of_mul_le hthis (by linarith)
  have hq' : a.amount * other.amount / this.amount < 2 ^ 64 :=
    Int.ediv_lt_of_lt_mul hthis (by linarith)
  have hperiod : toSigned 63 (a.amount * other.amount / this.amount) =
      a.amount * other.amount / this.amount - 2 ^ 64 := toSigned_of_period ⟨by omega, by omega⟩
  refine ⟨_, by rw [convert_nonneg ha hthis hother, if_neg (by omega)], ?_⟩
  change toSigned 63 _ < 0
  omega

end Convert

section Mul

variable {a : Asset} {p : Price}

/-- The side of the price with the symbol of the asset. -/
def side (a : Asset) (p : Price) : Asset := if a.symbol = p.base.symbol then p.base else p.quote

def otherSide (a : Asset) (p : Price) : Asset := if a.symbol = p.base.symbol then p.quote else p.base

theorem side_pos : 0 < (side a p).amount := by
  unfold side
  split
  · exact p.base_pos
  · exact p.quote_pos

theorem otherSide_pos : 0 < (otherSide a p).amount := by
  unfold otherSide
  split
  · exact p.quote_pos
  · exact p.base_pos

theorem mul_eq (h : a.symbol = p.base.symbol ∨ a.symbol = p.quote.symbol) :
    mul a p = convert a (side a p) (otherSide a p) := by
  unfold mul side otherSide
  split
  · rfl
  · next hne => rw [if_pos (h.resolve_left hne)]

/-- An asset on the other side of the price finds the sides exchanged. -/
theorem sides_back {b : Asset} (hb : b.symbol = (otherSide a p).symbol) :
    (b.symbol = p.base.symbol ∨ b.symbol = p.quote.symbol) ∧
      side b p = otherSide a p ∧ otherSide b p = side a p := by
  unfold otherSide at hb
  split at hb
  · next ha =>
    have hne : b.symbol ≠ p.base.symbol := hb ▸ p.symbols.symm
    refine ⟨.inr hb, ?_, ?_⟩
    · rw [side, if_neg hne, otherSide, if_pos ha]
    · rw [otherSide, if_neg hne, side, if_pos ha]
  · next ha =>
    refine ⟨.inl hb, ?_, ?_⟩
    · rw [side, if_pos hb, otherSide, if_neg ha]
    · rw [otherSide, if_pos hb, side, if_neg ha]

/-- A conversion gives the exact quotient, and back no more than there was, exactly when the
quotient is not one of those between `2 ^ 63` and `2 ^ 64`. -/
theorem mul_exact (h : a.symbol = p.base.symbol ∨ a.symbol = p.quote.symbol) :
    (∀ b, mul a p = .ok b →
      (b.symbol = (otherSide a p).symbol ∧
        b.amount = a.amount * (otherSide a p).amount / (side a p).amount ∧
        0 ≤ b.amount ∧ b.amount ≤ 2 ^ 63 - 1) ∧
      ∀ c, mul b p = .ok c → c.amount ≤ a.amount) ↔
    ¬Narrowed a (side a p) (otherSide a p) := by
  rw [mul_eq h]
  constructor
  · intro hall hnarrowed
    obtain ⟨b, hb, hneg⟩ := convert_narrowed side_pos otherSide_pos hnarrowed
    have := (hall b hb).1.2.2.1
    omega
  · intro hnot b hb
    obtain ⟨ha, hsymbol, hamount⟩ := convert_exact side_pos otherSide_pos hnot hb
    have hfits := b.fits
    unfold IsSigned at hfits
    have hnonneg : 0 ≤ b.amount := by
      rw [hamount]
      exact Int.ediv_nonneg (Int.mul_nonneg ha otherSide_pos.le) side_pos.le
    refine ⟨⟨hsymbol, hamount, hnonneg, by omega⟩, fun c hc ↦ ?_⟩
    obtain ⟨hside, hthis, hother⟩ := sides_back hsymbol
    rw [mul_eq hside, hthis, hother] at hc
    have hback : b.amount * (side a p).amount ≤ a.amount * (otherSide a p).amount := by
      rw [hamount]
      exact Int.ediv_mul_le _ (ne_of_gt side_pos)
    have hle : b.amount * (side a p).amount / (otherSide a p).amount ≤ a.amount :=
      Int.ediv_le_of_le_mul otherSide_pos hback
    have hfa := a.fits
    unfold IsSigned at hfa
    have hnot' : ¬Narrowed b (otherSide a p) (side a p) := by
      rintro ⟨hge, -⟩
      have := Int.le_ediv_of_mul_le (otherSide_pos (a := a) (p := p)) (by linarith :
        2 ^ 63 * (otherSide a p).amount ≤ b.amount * (side a p).amount)
      omega
    rw [(convert_exact otherSide_pos side_pos hnot' hc).2.2]
    exact hle

/-- A price of three units for one. -/
def threeForOne : Price where
  base := ⟨3, 0, by decide⟩
  quote := ⟨1, 1, by decide⟩
  base_pos := by decide
  quote_pos := by decide
  symbols := by decide

theorem mul_exact_ten : mul ⟨10, 1, by decide⟩ threeForOne = .ok ⟨30, 0, by decide⟩ ∧
    ∀ c, mul ⟨30, 0, by decide⟩ threeForOne = .ok c → c.amount ≤ 10 := by
  have hmul : mul ⟨10, 1, by decide⟩ threeForOne = .ok ⟨30, 0, by decide⟩ := by decide +kernel
  have hexact := (mul_exact (a := ⟨10, 1, by decide⟩) (p := threeForOne) (.inr rfl)).mpr (by
    rintro ⟨hge, -⟩
    exact absurd hge (by decide))
  exact ⟨hmul, (hexact _ hmul).2⟩

/-- Three times `2 ^ 62` passes the test of the high half and comes out negative. -/
theorem mul_negative : ¬∀ b, mul ⟨2 ^ 62, 1, by decide⟩ threeForOne = .ok b → 0 ≤ b.amount := by
  intro h
  have hb : mul ⟨2 ^ 62, 1, by decide⟩ threeForOne = .ok ⟨-2 ^ 62, 0, by decide⟩ := by decide +kernel
  exact absurd (h _ hb) (by decide)

end Mul

end Taiyi.Protocol
