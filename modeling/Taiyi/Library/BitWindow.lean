import Mathlib

set_option autoImplicit false

namespace Taiyi.Library.BitWindow

variable {w : ℕ} {x : BitVec w} {b : Bool} {P : ℤ → Prop} {top : ℤ}

/-- Adding below a shift puts the bit in the free place. -/
theorem shiftLeft_add (x : BitVec w) (b : Bool) : x <<< 1 + BitVec.ofNat w b.toNat = x.shiftConcat b := by
  apply BitVec.eq_of_toNat_eq
  rw [BitVec.toNat_add, BitVec.toNat_shiftLeft, BitVec.toNat_ofNat, BitVec.toNat_shiftConcat,
    Nat.add_mod_mod, Nat.mod_add_mod]

theorem toNat_cpop_eq_card (x : BitVec w) :
    x.cpop.toNat = ((Finset.range w).filter fun i ↦ x.getLsbD i).card := by
  have hrec (n : ℕ) : x.cpopNatRec n 0 = ((Finset.range n).filter fun i ↦ x.getLsbD i).card := by
    induction n with
    | zero => rfl
    | succ n ih =>
      rw [BitVec.cpopNatRec_succ, BitVec.cpopNatRec_eq, ih, Finset.range_add_one,
        Finset.filter_insert]
      cases x.getLsbD n <;> simp
  rw [BitVec.toNat_cpop, hrec]

/-- The bit shifted out is the one that stops counting. -/
theorem toNat_cpop_shiftConcat (x : BitVec (w + 1)) (b : Bool) :
    (x.shiftConcat b).cpop.toNat + x.msb.toNat = x.cpop.toNat + b.toNat := by
  have hlow (n : ℕ) (hn : n ≤ w) :
      (x.shiftConcat b).cpopNatRec (n + 1) 0 = x.cpopNatRec n 0 + b.toNat := by
    induction n with
    | zero => simp
    | succ n ih =>
      rw [BitVec.cpopNatRec_succ, BitVec.cpopNatRec_eq, ih (by omega), BitVec.cpopNatRec_succ,
        BitVec.cpopNatRec_eq (x := x) (_ + _), BitVec.getLsbD_shiftConcat]
      simp [show n + 1 < w + 1 by omega]
      omega
  rw [BitVec.toNat_cpop, BitVec.toNat_cpop, hlow w le_rfl, BitVec.cpopNatRec_succ,
    BitVec.cpopNatRec_eq (x := x) (_ + _), BitVec.msb_eq_getLsbD_last, Nat.add_sub_cancel]
  omega

/-- Bit `i` of `x` tells of the point `i` places below `top`. -/
def Shows (P : ℤ → Prop) (top : ℤ) (x : BitVec w) : Prop :=
  ∀ i < w, x.getLsbD i = true ↔ P (top - i)

theorem Shows.shiftConcat (h : Shows P top x) (hb : b = true ↔ P (top + 1)) :
    Shows P (top + 1) (x.shiftConcat b) := by
  intro i hi
  rw [BitVec.getLsbD_shiftConcat]
  cases i with
  | zero => simpa [hi] using hb
  | succ i =>
    have htop : top + 1 - ((i + 1 : ℕ) : ℤ) = top - i := by omega
    rw [htop, ← h i (by omega)]
    simp [hi]

theorem Shows.congr {Q : ℤ → Prop} (h : Shows P top x) (hQ : ∀ p ≤ top, P p ↔ Q p) :
    Shows Q top x := fun i hi ↦ (h i hi).trans (hQ _ (by omega))

/-- A word that shows the points of an interval counts those with the property. -/
theorem Shows.toNat_cpop [DecidablePred P] (h : Shows P top x) :
    x.cpop.toNat = ((Finset.Ioc (top - w) top).filter P).card := by
  rw [toNat_cpop_eq_card]
  refine Finset.card_bij (fun i _ ↦ top - i) ?_ ?_ ?_
  · intro i hi
    obtain ⟨hw, hbit⟩ := Finset.mem_filter.mp hi
    have hlt := Finset.mem_range.mp hw
    exact Finset.mem_filter.mpr ⟨Finset.mem_Ioc.mpr (by omega), (h i hlt).mp hbit⟩
  · intro i _ j _ hij
    omega
  · intro p hp
    obtain ⟨hmem, hP⟩ := Finset.mem_filter.mp hp
    obtain ⟨hlow, hhigh⟩ := Finset.mem_Ioc.mp hmem
    have hp' : top - ((top - p).toNat : ℤ) = p := by omega
    refine ⟨(top - p).toNat, Finset.mem_filter.mpr ⟨Finset.mem_range.mpr (by omega), ?_⟩, hp'⟩
    exact (h _ (by omega)).mpr (hp'.symm ▸ hP)

end Taiyi.Library.BitWindow
