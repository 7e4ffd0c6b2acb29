import Taiyi.Library.CheckDigit
import Taiyi.Protocol.SymbolText

set_option autoImplicit false

namespace Taiyi.Protocol.AssetSymbol

open Library.CheckDigit Library.Digits

/-- The operation that the table holds, in digits. -/
def dammOp (x d : Fin 10) : Fin 10 := Fin.ofNat 10 (dammStep (10 * x) d / 10)

theorem dammStep_eq : ∀ x d : Fin 10, dammStep (10 * x) d = 10 * dammOp x d := by decide

/-- The quasigroup of the table is totally anti-symmetric. -/
theorem dammOp_detecting : Detecting dammOp where
  left := by decide
  right := by decide
  swap := by decide +kernel

theorem dammOp_self : ∀ a, dammOp a a = 0 := by decide

/-- The digit of a character. -/
def digitOf (c : UInt8) : Fin 10 := Fin.ofNat 10 (digit c)

section Word

variable {ds es : List UInt8} {c : UInt8} {n : ℕ}

theorem digitOf_eq (h : isDigit c = true) : (digitOf c : ℕ) = digit c := Nat.mod_eq_of_lt (digit_lt h)

theorem digitOf_inj {d : UInt8} (hc : isDigit c = true) (hd : isDigit d = true)
    (h : digitOf c = digitOf d) : c = d := by
  have hval : digit c = digit d := by rw [← digitOf_eq hc, ← digitOf_eq hd, h]
  simp only [isDigit, Bool.and_eq_true, decide_eq_true_eq, UInt8.le_iff_toNat_le] at hc hd
  have h0 : '0'.toUInt8.toNat = 48 := rfl
  have h0' : '0'.toNat = 48 := rfl
  rw [digit, digit] at hval
  apply UInt8.toNat_inj.mp
  omega

theorem mistyped_digits (h : Mistyped ds es) (hd : ∀ c ∈ ds, isDigit c = true)
    (he : ∀ c ∈ es, isDigit c = true) : Mistyped (ds.map digitOf) (es.map digitOf) :=
  h.map fun a ha b hb hab ↦ digitOf_inj (hd a ha) (he b hb) hab

/-- The steps keep to the tens of the table. -/
theorem foldl_dammStep (h : ∀ c ∈ ds, isDigit c = true) (x : Fin 10) :
    (ds.map digit).foldl dammStep (10 * x) = 10 * (ds.map digitOf).foldl dammOp x := by
  induction ds generalizing x with
  | nil => rfl
  | cons c ds ih =>
    obtain ⟨hc, hds⟩ := List.forall_mem_cons.mp h
    rw [List.map_cons, List.foldl_cons, ← digitOf_eq hc, dammStep_eq, ih hds, List.map_cons, List.foldl_cons]

/-- The checksum folds the eight digits, the first one first. -/
theorem dammChecksum8digit_eq (h : n < 10 ^ 8) :
    dammChecksum8digit n = .ok ((low 10 8 n).reverse.foldl dammStep 0 / 10) := by
  have h7 : n / 10 / 10 / 10 / 10 / 10 / 10 / 10 % 10 = n / 10 / 10 / 10 / 10 / 10 / 10 / 10 := by omega
  have hlt : n < 100000000 := h
  have hzero : ∀ d, dammStep 0 d = dammTable.getD d 0 := fun d ↦ congrArg (dammTable.getD · 0) (Nat.zero_add d)
  simp only [dammChecksum8digit, if_pos hlt, low, List.reverse_cons, List.reverse_nil, List.nil_append,
    List.cons_append, List.foldl_cons, List.foldl_nil, h7, hzero]

theorem dammChecksum8digit_digits (hlen : ds.length = 8) (h : ∀ c ∈ ds, isDigit c = true) :
    dammChecksum8digit (decimal ds) = .ok ((ds.map digitOf).foldl dammOp 0 : Fin 10) := by
  have hlow : low 10 8 (decimal ds) = (ds.map digit).reverse := by
    have hdigits : ∀ d ∈ (ds.map digit).reverse, d < 10 := by
      intro d hd
      obtain ⟨c, hc, rfl⟩ := List.mem_map.mp (List.mem_reverse.mp hd)
      exact digit_lt (h c hc)
    have hlow := low_ofDigits hdigits
    rwa [List.length_reverse, List.length_map, hlen] at hlow
  have hfold := foldl_dammStep h 0
  rw [dammChecksum8digit_eq (hlen ▸ decimal_lt h), hlow, List.reverse_reverse]
  change (ds.map digit).foldl dammStep 0 = _ at hfold
  rw [hfold, Nat.mul_div_cancel_left _ (by decide)]

/-- The nine digits of a symbol that is read fold to zero. -/
theorem foldl_of_fromFaiString {cast : List UInt8 → Option ℕ} {p : ℕ} {s : AssetSymbol}
    (hcast : LexicalCast cast) (hlen : ds.length = 9) (h : ∀ c ∈ ds, isDigit c = true)
    (hread : fromFaiString cast ([atSign, atSign] ++ ds) p = .ok s) :
    (ds.map digitOf).foldl dammOp 0 = 0 := by
  rw [fromFaiString_digits hcast hlen h] at hread
  obtain ⟨-, -, hcheck⟩ := fromFai_ok hread
  have hne : ds ≠ [] := List.length_pos_iff.mp (by omega)
  obtain ⟨body, c, rfl⟩ := (List.eq_nil_or_concat' ds).resolve_left hne
  have hbody : ∀ d ∈ body, isDigit d = true := fun d hd ↦ h d (List.mem_append_left _ hd)
  have hc : isDigit c = true := h c (List.mem_append_right _ List.mem_cons_self)
  have hlen' : body.length = 8 := by simpa using hlen
  have hlt := digit_lt hc
  have hvalue := decimal_concat body c
  have hdiv : decimal (body ++ [c]) / 10 = decimal body := by omega
  have hmod : decimal (body ++ [c]) % 10 = digit c := by omega
  rw [hdiv, hmod, dammChecksum8digit_digits hlen' hbody, Except.ok.injEq, ← digitOf_eq hc] at hcheck
  rw [List.map_append, List.map_singleton]
  exact (dammOp_detecting.foldl_concat dammOp_self).mpr (Fin.ext hcheck)

end Word

/-- The check digit of eight digits changes with a single digit and with two neighbours that are
swapped, and no symbol is read from a FAI string with such a slip in one that is read. -/
theorem damm_detects {cast : List UInt8 → Option ℕ} (hcast : LexicalCast cast) :
    (∀ ds es : List UInt8, ds.length = 8 → (∀ c ∈ ds, isDigit c = true) →
      (∀ c ∈ es, isDigit c = true) → Mistyped ds es →
      ∃ c c', dammChecksum8digit (decimal ds) = .ok c ∧ dammChecksum8digit (decimal es) = .ok c' ∧
        c ≠ c') ∧
    ∀ ds es : List UInt8, ds.length = 9 → (∀ c ∈ ds, isDigit c = true) →
      (∀ c ∈ es, isDigit c = true) → Mistyped ds es →
      ∀ p s, fromFaiString cast ([atSign, atSign] ++ ds) p = .ok s →
        ∀ p', ∃ e, fromFaiString cast ([atSign, atSign] ++ es) p' = .error e := by
  constructor
  · intro ds es hlen hds hes hm
    refine ⟨_, _, dammChecksum8digit_digits hlen hds,
      dammChecksum8digit_digits (hm.length_eq ▸ hlen) hes, fun he ↦ ?_⟩
    exact dammOp_detecting.foldl_ne (mistyped_digits hm hds hes) (Fin.ext he)
  · intro ds es hlen hds hes hm p s hread p'
    cases hread' : fromFaiString cast ([atSign, atSign] ++ es) p' with
    | error e => exact ⟨e, rfl⟩
    | ok s' =>
      have hzero := foldl_of_fromFaiString hcast hlen hds hread
      have hzero' := foldl_of_fromFaiString hcast (hm.length_eq ▸ hlen) hes hread'
      exact absurd (hzero.trans hzero'.symm)
        (dammOp_detecting.foldl_ne (mistyped_digits hm hds hes))

set_option maxRecDepth 4000 in
/-- The FAI of gold with its last two digits in the other order. -/
theorem damm_detects_gold :
    ∃ e, fromFaiString readNumber ([atSign, atSign] ++ [48, 48, 48, 48, 48, 48, 48, 53, 52]) 6 =
      .error e := by
  have hm : Mistyped ([48, 48, 48, 48, 48, 48, 48, 52, 53] : List UInt8)
      [48, 48, 48, 48, 48, 48, 48, 53, 52] := .swap [48, 48, 48, 48, 48, 48, 48] [] (by decide)
  exact (damm_detects lexicalCast_readNumber).2 _ _ rfl (by decide) (by decide) hm 6
    (fromAssetNum Legacy.gold.assetNum) (by rfl) 6

end Taiyi.Protocol.AssetSymbol
