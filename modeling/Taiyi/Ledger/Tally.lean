import Mathlib.Tactic.Ring
import Taiyi.Ledger.Adored
import Taiyi.Ledger.Proxies

set_option autoImplicit false

namespace Taiyi.Ledger

open Library Library.IdMap Library.Frame Library.Outcome Checked

/-- Whether a cell is among others, as a number. -/
def ind (c : Cell) (l : List Cell) : ℤ := if c ∈ l then 1 else 0

section Ind

variable {c x : Cell} {l : List Cell}

theorem ind_nil : ind c [] = 0 := if_neg List.not_mem_nil

theorem ind_cons (h : x ∉ l) : ind c (x :: l) = ind c [x] + ind c l := by
  unfold ind
  by_cases hc : c = x
  · subst hc
    simp [h]
  · simp [hc]

end Ind

namespace State

/-- What is counted in a cell. -/
def count (s : State) (c : Cell) : ℤ := (s.adored c).getD 0

/-- The QI of the accounts that adore through a cell. -/
def qiIn (s : State) (behind : ℕ → List Cell) (c : Cell) : ℤ :=
  rowSum (fun a acc ↦ acc.assets.qi * ind c (behind a)) s.accounts

/-- The QI of the accounts that an account is the proxy of over some hops. -/
def qiBelow (s : State) (a hops : ℕ) : ℤ :=
  rowSum (fun b acc ↦ if hop s.proxies hops b = some a then acc.assets.qi else 0) s.accounts

end State

/-- Each cell counts the QI of the accounts that adore through it, and of no others. -/
def Tallied (s : State) : Prop := ∀ c, s.count c = s.qiIn s.behind c

/-- Proxies and adored simings exist, and an account with a proxy adores nobody itself. -/
structure Linked (s : State) : Prop where
  proxies : ∀ a p, s.proxies a = some p → p ∈ s.accounts
  simings : ∀ a w, w ∈ (s.account a).adores → w ∈ s.simings
  free : ∀ a p, s.proxies a = some p → (s.account a).adores = ∅

/-- What `validate_invariants` asks of the adores can be asked of the books. -/
structure Audited (s : State) : Prop where
  tallied : Tallied s
  linked : Linked s

section Cells

variable {s t : State} {a b p left : ℕ} {c : Cell} {i : Fin 4}

theorem proxies_eq (s : State) (a : ℕ) : s.proxies a = (s.adoring a).1 := rfl

theorem hop_not_mem (hleft : left + 1 ≤ taiyiMaxProxyRecursionDepth) :
    Cell.proxied p (Checked.hop left) ∉ s.cells left a := fun hmem ↦ by
  have hlt := hop_lt_of_mem (Nat.le_of_succ_le hleft) hmem
  simp only [Checked.hop] at hlt
  omega

theorem Linked.isSome (h : Linked s) (hc : c ∈ s.cells left a) : (s.adored c).isSome = true := by
  have hsiming : ∀ a, c ∈ (s.adoring a).2.toList.map Cell.siming → (s.adored c).isSome = true := by
    intro a hc
    obtain ⟨w, hw, rfl⟩ := List.mem_map.mp hc
    have hin := h.simings a w (Std.ExtTreeSet.mem_toList.mp hw)
    rw [State.adored, Option.isSome_map]
    exact (Std.ExtTreeMap.mem_iff_isSome_getElem?).mp hin
  induction left generalizing a with
  | zero =>
    rw [State.cells] at hc
    split at hc
    · exact hsiming a hc
    · cases hc
  | succ left ih =>
    rw [State.cells] at hc
    split at hc
    · exact hsiming a hc
    · next p hp =>
      rcases List.mem_cons.mp hc with rfl | hc
      · rw [State.adored, Option.isSome_map]
        exact (Std.ExtTreeMap.mem_iff_isSome_getElem?).mp (h.proxies a p hp)
      · exact ih hc

theorem mem_cells_proxied (hleft : left ≤ taiyiMaxProxyRecursionDepth) :
    .proxied p i ∈ s.cells left b ↔ taiyiMaxProxyRecursionDepth ≤ i + left ∧
      Library.hop s.proxies (i + left + 1 - taiyiMaxProxyRecursionDepth) b = some p := by
  have hsimings : ∀ l : List ℕ, .proxied p i ∉ l.map Cell.siming := by simp
  have hi := i.isLt
  have hdepth : taiyiMaxProxyRecursionDepth = 4 := rfl
  induction left generalizing b with
  | zero =>
    have hno : .proxied p i ∉ s.cells 0 b := by
      rw [State.cells]
      split
      · exact hsimings _
      · exact List.not_mem_nil
    refine iff_of_false hno fun h ↦ ?_
    omega
  | succ left ih =>
    rw [State.cells]
    split
    · next hnone =>
      refine iff_of_false (hsimings _) ?_
      rintro ⟨hle, hp⟩
      obtain ⟨k, hk⟩ : ∃ k, i + (left + 1) + 1 - taiyiMaxProxyRecursionDepth = k + 1 :=
        ⟨i + (left + 1) - taiyiMaxProxyRecursionDepth, by omega⟩
      rw [hk, Library.hop, proxies_eq, hnone] at hp
      cases hp
    · next q hq =>
      have hih : Cell.proxied p i ∈ s.cells left q ↔ taiyiMaxProxyRecursionDepth ≤ i + left ∧
          Library.hop s.proxies (i + left + 1 - taiyiMaxProxyRecursionDepth) q = some p :=
        ih (Nat.le_of_succ_le hleft)
      have hhead : i = Checked.hop left ↔ (i : ℕ) + (left + 1) = taiyiMaxProxyRecursionDepth := by
        rw [Fin.ext_iff]
        simp only [Checked.hop]
        omega
      rw [List.mem_cons, Cell.proxied.injEq, hhead, hih]
      constructor
      · rintro (⟨rfl, hi'⟩ | ⟨hle, hp⟩)
        · rw [show i + (left + 1) + 1 - taiyiMaxProxyRecursionDepth = 0 + 1 by omega, Library.hop,
            proxies_eq, hq]
          exact ⟨by omega, rfl⟩
        · refine ⟨by omega, ?_⟩
          rw [show i + (left + 1) + 1 - taiyiMaxProxyRecursionDepth =
            i + left + 1 - taiyiMaxProxyRecursionDepth + 1 by omega, Library.hop, proxies_eq, hq]
          exact hp
      · rintro ⟨hle, hp⟩
        rw [show i + (left + 1) + 1 - taiyiMaxProxyRecursionDepth =
          i + (left + 1) - taiyiMaxProxyRecursionDepth + 1 by omega, Library.hop, proxies_eq, hq,
          Option.bind_some] at hp
        by_cases hlast : (i : ℕ) + (left + 1) = taiyiMaxProxyRecursionDepth
        · rw [hlast, Nat.sub_self] at hp
          exact .inl ⟨(Option.some.inj hp).symm, hlast⟩
        · refine .inr ⟨by omega, ?_⟩
          rwa [show i + left + 1 - taiyiMaxProxyRecursionDepth =
            i + (left + 1) - taiyiMaxProxyRecursionDepth by omega]

/-- Where an account adores otherwise than before: what is counted behind those that it is a proxy
of changes by what is behind it itself after as many hops. -/
theorem ind_cells_rewired (hs : Acyclic s.proxies) (hother : ∀ b, b ≠ a → t.adoring b = s.adoring b)
    (hleft : left ≤ taiyiMaxProxyRecursionDepth) (b : ℕ) (c : Cell) :
    ind c (t.cells left b) = ind c (s.cells left b) + ∑ j ∈ Finset.range (left + 1),
      if Library.hop s.proxies j b = some a then
        ind c (t.cells (left - j) a) - ind c (s.cells (left - j) a) else 0 := by
  induction left generalizing b with
  | zero =>
    rw [Finset.sum_range_one, Library.hop]
    by_cases hb : b = a
    · rw [hb, if_pos rfl]
      ring
    · rw [if_neg fun he ↦ hb (Option.some.inj he), add_zero, State.cells, State.cells, hother b hb]
  | succ left ih =>
    rw [Finset.sum_range_succ', Library.hop]
    by_cases hb : b = a
    · subst hb
      rw [if_pos rfl, Finset.sum_eq_zero fun j _ ↦ if_neg (hs.hop_ne b j), Nat.sub_zero]
      ring
    · rw [if_neg fun he ↦ hb (Option.some.inj he), add_zero]
      cases hp : (s.adoring b).1 with
      | none =>
        have hcells : ∀ u : State, u.adoring b = s.adoring b →
            u.cells (left + 1) b = (s.adoring b).2.toList.map .siming := fun u hu ↦ by
          rw [State.cells, hu, hp]
        rw [Finset.sum_eq_zero fun j _ ↦ if_neg (by
          rw [Library.hop, proxies_eq, hp, Option.bind_none]
          exact (Option.some_ne_none a).symm), add_zero, hcells t (hother b hb), hcells s rfl]
      | some p =>
        have hcells : ∀ u : State, u.adoring b = s.adoring b →
            u.cells (left + 1) b = .proxied p (Checked.hop left) :: u.cells left p := fun u hu ↦ by
          rw [State.cells, hu, hp]
        have hsteps : ∀ j, Library.hop s.proxies (j + 1) b = Library.hop s.proxies j p := fun j ↦ by
          rw [Library.hop, proxies_eq, hp, Option.bind_some]
        rw [hcells t (hother b hb), hcells s rfl, ind_cons (hop_not_mem hleft),
          ind_cons (hop_not_mem hleft), ih (Nat.le_of_succ_le hleft) p, add_assoc]
        simp only [hsteps, Nat.add_sub_add_right]

end Cells

section Array

variable {s t : State} {a left : ℕ} {delta : Fin 5 → ℤ} {c : Cell} {u : Unit}

/-- What an array of changes adds to a cell, with `left` hops to go: each amount where its own hops
still lead. -/
def State.spread (s : State) (delta : Fin 5 → ℤ) (left a : ℕ) (c : Cell) : ℤ :=
  ∑ j : Fin 5, if (j : ℕ) ≤ left then delta j * ind c (s.cells (left - j) a) else 0

theorem settleArray_eq (hleft : left ≤ taiyiMaxProxyRecursionDepth) (l : List Cell) :
    settleArray delta (taiyiMaxProxyRecursionDepth - left) * ind c l =
      ∑ j : Fin 5, if (j : ℕ) ≤ left then delta j * ind c l else 0 := by
  rw [settleArray, Finset.sum_mul]
  refine Finset.sum_congr rfl fun j _ ↦ ?_
  have hiff : (j : ℕ) + (taiyiMaxProxyRecursionDepth - left) ≤ taiyiMaxProxyRecursionDepth ↔
      (j : ℕ) ≤ left := by omega
  simp only [hiff, ite_mul, zero_mul]

/-- The first proxy gets the amounts that still have a hop to go. -/
theorem shifted_eq (hleft : left + 1 ≤ taiyiMaxProxyRecursionDepth) (p : ℕ) (i : Fin 4) :
    shifted delta (taiyiMaxProxyRecursionDepth - (left + 1)) i = ∑ j : Fin 5,
      if (j : ℕ) ≤ left then
        delta j * ind (.proxied p i) [.proxied p (Checked.hop (left - j))] else 0 := by
  have hterm : ∀ j : Fin 5, (if (j : ℕ) ≤ left then
      delta j * ind (.proxied p i) [.proxied p (Checked.hop (left - j))] else 0) =
      if (j : ℕ) + (taiyiMaxProxyRecursionDepth - (left + 1)) = i then delta j else 0 := by
    intro j
    have hi := i.isLt
    have hdepth : taiyiMaxProxyRecursionDepth = 4 := rfl
    by_cases hj : (j : ℕ) ≤ left
    · have hhop : i = Checked.hop (left - j) ↔
          (j : ℕ) + (taiyiMaxProxyRecursionDepth - (left + 1)) = i := by
        rw [Fin.ext_iff]
        simp only [Checked.hop]
        omega
      simp [hj, ind, hhop]
    · rw [if_neg hj, if_neg (by omega)]
  simp only [hterm]
  unfold shifted
  split
  · next hd =>
    rw [Finset.sum_eq_single ⟨i - (taiyiMaxProxyRecursionDepth - (left + 1)), sub_lt_five _ _⟩]
    · rw [if_pos (Nat.sub_add_cancel hd)]
    · intro j _ hne
      refine if_neg fun he ↦ hne (Fin.ext ?_)
      simp only
      omega
    · exact fun h ↦ absurd (Finset.mem_univ _) h
  · next hd => exact (Finset.sum_eq_zero fun j _ ↦ if_neg (by omega)).symm

theorem raised_eq (delta : ℤ) (l : List Cell) (f : Cell → Option ℤ) (c : Cell) :
    raised delta l f c = (f c).map (· + delta * ind c l) := by
  unfold raised ind
  simp only [mul_ite, mul_one, mul_zero]

/-- What a cell gains when an account is credited. -/
def gains (p : ℕ) (x : Fin 4 → ℤ) : Cell → ℤ
  | .proxied q i => if p = q then x i else 0
  | .siming _ => 0

theorem adored_creditArray {p depth : ℕ}
    (h : (modifyAccount p (Account.creditArray delta depth)).run s = .ok u t) (c : Cell) :
    t.adored c = (s.adored c).map (· + gains p (shifted delta depth) c) := by
  obtain ⟨acc, hacc, rfl⟩ := modifyIn_ok.mp h
  cases c with
  | siming w => cases hw : s.simings[w]? <;> simp [State.adored, gains, hw]
  | proxied q i =>
    simp only [State.adored, getElem?_insert, gains]
    by_cases hq : p = q
    · subst hq
      simp [hacc, Account.creditArray_eq, Account.credited]
    · cases hq' : s.accounts[q]? <;> simp [hq]

theorem cells_of_none (h : (s.adoring a).1 = none) (left : ℕ) :
    s.cells left a = (s.adoring a).2.toList.map .siming := by
  cases left with
  | zero => rw [State.cells, if_pos h]
  | succ left => rw [State.cells, h]

theorem spread_of_none (hleft : left ≤ taiyiMaxProxyRecursionDepth) (h : (s.adoring a).1 = none) :
    s.spread delta left a c = settleArray delta (taiyiMaxProxyRecursionDepth - left) *
      ind c ((s.adoring a).2.toList.map .siming) := by
  rw [settleArray_eq hleft]
  simp only [State.spread, cells_of_none h]

/-- Over a proxy everything goes one hop farther. -/
theorem spread_of_some {p : ℕ} (hleft : left + 1 ≤ taiyiMaxProxyRecursionDepth)
    (h : (s.adoring a).1 = some p) : s.spread delta (left + 1) a c =
      gains p (shifted delta (taiyiMaxProxyRecursionDepth - (left + 1))) c +
        s.spread delta left p c := by
  have hfirst : gains p (shifted delta (taiyiMaxProxyRecursionDepth - (left + 1))) c =
      ∑ j : Fin 5, if (j : ℕ) ≤ left then
        delta j * ind c [.proxied p (Checked.hop (left - j))] else 0 := by
    cases c with
    | siming w => simp [gains, ind]
    | proxied q i =>
      by_cases hq : p = q
      · subst hq
        rw [gains, if_pos rfl, shifted_eq hleft p]
      · simp [gains, ind, hq, Ne.symm hq]
  rw [hfirst, State.spread, State.spread, ← Finset.sum_add_distrib]
  refine Finset.sum_congr rfl fun j _ ↦ ?_
  by_cases hj : (j : ℕ) ≤ left
  · have hcells : s.cells (left + 1 - j) a =
        .proxied p (Checked.hop (left - j)) :: s.cells (left - j) p := by
      rw [Nat.sub_add_comm hj, State.cells, h]
    rw [if_pos hj, if_pos hj, if_pos (Nat.le_succ_of_le hj), hcells,
      ind_cons (hop_not_mem (by omega)), mul_add]
  · rw [if_neg hj, if_neg hj, add_zero]
    split
    · next hj' =>
      have hz : left + 1 - (j : ℕ) = 0 := by omega
      rw [hz, State.cells, if_neg (by simp [h]), ind_nil, mul_zero]
    · rfl

theorem spread_congr (h : t.adoring = s.adoring) :
    t.spread delta left a c = s.spread delta left a c := by
  simp only [State.spread, cells_congr h]

/-- Each amount of the array is counted behind the account as if it came from as many hops away. -/
theorem adored_propagateArray (hleft : left ≤ taiyiMaxProxyRecursionDepth)
    (h : (propagate (Account.creditArray delta) (settleArray delta) left a).run s = .ok u t)
    (c : Cell) : t.adored c = (s.adored c).map (· + s.spread delta left a c) := by
  induction left generalizing a s with
  | zero =>
    obtain ⟨acc, s₁, hget, h₁⟩ := bind_ok.mp h
    obtain ⟨hacc, rfl⟩ := account_of_getAccount hget
    have hproxy : (s₁.adoring a).1 = acc.proxy := congrArg Account.proxy hacc
    split at h₁
    · next hp =>
      rw [spread_of_none hleft (hproxy.trans hp), adored_adjustSimingAdores h₁, raised_eq]
      rfl
    · next hp =>
      have hcells : s₁.cells 0 a = [] := by rw [State.cells, hproxy, if_neg hp]
      have hnone : s₁.spread delta 0 a c = 0 := by simp [State.spread, hcells, ind_nil]
      cases h₁
      rw [hnone]
      simp
  | succ left ih =>
    obtain ⟨acc, s₁, hget, h₁⟩ := bind_ok.mp h
    obtain ⟨hacc, rfl⟩ := account_of_getAccount hget
    have hproxy : (s₁.adoring a).1 = acc.proxy := congrArg Account.proxy hacc
    cases hp : acc.proxy with
    | none =>
      rw [hp] at h₁
      rw [spread_of_none hleft (hproxy.trans hp), adored_adjustSimingAdores h₁, raised_eq]
    | some p =>
      rw [hp] at h₁
      obtain ⟨_, s₂, hmod, h₂⟩ := bind_ok.mp h₁
      have hadoring : s₂.adoring = s₁.adoring := adoring_of_modifyAccount hmod fun _ ↦ ⟨rfl, rfl⟩
      rw [ih (Nat.le_of_succ_le hleft) h₂, adored_creditArray hmod, spread_congr hadoring,
        spread_of_some hleft (hproxy.trans hp), Option.map_map]
      congr 1
      funext x
      exact add_assoc _ _ _

end Array


section Rewire

variable {s t : State} {a b hops : ℕ} {c : Cell} {delta : Fin 5 → ℤ} {d : ℤ} {u : Unit}

theorem count_of_adored (h : t.adored c = (s.adored c).map (· + d))
    (hd : s.adored c = none → d = 0) : t.count c = s.count c + d := by
  rw [State.count, State.count, h]
  cases hc : s.adored c with
  | none =>
    rw [hd hc]
    rfl
  | some x => rfl

theorem account_qi (s : State) (a : ℕ) :
    ((s.accounts[a]?).map fun acc ↦ acc.assets.qi).getD 0 = (s.account a).assets.qi := by
  rw [State.account]
  cases s.accounts[a]? <;> rfl

theorem Tallied.proxied (h : Tallied s) (a : ℕ) (i : Fin 4) :
    (s.account a).proxiedVsfAdores i = s.qiIn s.behind (.proxied a i) := by
  rw [← h, State.count, State.adored, State.account]
  cases s.accounts[a]? <;> rfl

/-- The array of an account is the QI that it is the proxy of over no hop, one hop and so on. -/
theorem Tallied.shares (h : Tallied s) (a : ℕ) (j : Fin 5) :
    s.qiBelow a j = (s.account a).shares j := by
  cases j using Fin.cases with
  | zero =>
    have hrow : ∀ b : ℕ, ∀ acc : Account, (if Library.hop s.proxies 0 b = some a then
        acc.assets.qi else 0) = if b = a then acc.assets.qi else 0 := by
      intro b acc
      simp only [Library.hop, Option.some.injEq]
    rw [State.qiBelow, Fin.val_zero]
    simp only [hrow]
    rw [rowSum_single, account_qi]
    rfl
  | succ i =>
    have hmem : ∀ b, .proxied a i ∈ s.behind b ↔ Library.hop s.proxies (i + 1) b = some a := by
      intro b
      have hhops : (i : ℕ) + taiyiMaxProxyRecursionDepth + 1 - taiyiMaxProxyRecursionDepth =
        i + 1 := by omega
      rw [State.behind, mem_cells_proxied le_rfl, and_iff_right (Nat.le_add_left _ _), hhops]
    change s.qiBelow a (i + 1) = (s.account a).proxiedVsfAdores i
    rw [h.proxied, State.qiBelow, State.qiIn]
    simp only [ind, hmem, mul_ite, mul_one, mul_zero]

/-- Where an account adores otherwise than before and its array moves along, the cells still count
what is behind them. -/
theorem tallied_rewire (h : Tallied s) (hs : Acyclic s.proxies) (hls : Linked s) (hlt : Linked t)
    (hother : ∀ b, b ≠ a → t.adoring b = s.adoring b)
    (hqi : ∀ b : ℕ, (t.accounts[b]?).map (fun acc ↦ acc.assets.qi) =
      (s.accounts[b]?).map fun acc ↦ acc.assets.qi)
    (hmoved : ∀ c, t.adored c = (s.adored c).map (· +
      (t.spread (s.account a).shares taiyiMaxProxyRecursionDepth a c -
        s.spread (s.account a).shares taiyiMaxProxyRecursionDepth a c))) : Tallied t := by
  intro c
  have hgone : ∀ v : State, Linked v → ((v.adored c).isSome = (s.adored c).isSome) →
      s.adored c = none → ∀ left, ind c (v.cells left a) = 0 := by
    intro v hv hsome hnone left
    refine if_neg fun hc ↦ ?_
    have := hv.isSome hc
    rw [hsome, hnone] at this
    cases this
  have hnothing : s.adored c = none →
      t.spread (s.account a).shares taiyiMaxProxyRecursionDepth a c -
        s.spread (s.account a).shares taiyiMaxProxyRecursionDepth a c = 0 := by
    intro hnone
    have ht := hgone t hlt (by rw [hmoved, Option.isSome_map]) hnone
    have hs := hgone s hls rfl hnone
    simp only [State.spread, ht, hs, mul_zero, ite_self, Finset.sum_const_zero, sub_zero]
  have hsum : ∀ v : State, v.spread (s.account a).shares taiyiMaxProxyRecursionDepth a c =
      ∑ j : Fin 5, s.qiBelow a j * ind c (v.cells (taiyiMaxProxyRecursionDepth - j) a) := by
    intro v
    refine Finset.sum_congr rfl fun j _ ↦ ?_
    have hj : (j : ℕ) ≤ taiyiMaxProxyRecursionDepth := Nat.le_of_lt_succ j.isLt
    rw [if_pos hj, h.shares]
  have hcells : ∀ b, ind c (t.behind b) = ind c (s.behind b) + ∑ j : Fin 5,
      if Library.hop s.proxies j b = some a then
        ind c (t.cells (taiyiMaxProxyRecursionDepth - j) a) -
          ind c (s.cells (taiyiMaxProxyRecursionDepth - j) a) else 0 := by
    intro b
    rw [State.behind, ind_cells_rewired hs hother le_rfl, Finset.sum_range]
    rfl
  rw [count_of_adored (hmoved c) hnothing, h c, hsum, hsum, ← Finset.sum_sub_distrib]
  have hrows : t.qiIn t.behind c =
      rowSum (fun b acc ↦ acc.assets.qi * ind c (t.behind b)) s.accounts :=
    rowSum_congr (fun b x ↦ x * ind c (t.behind b)) hqi
  have hterm : ∀ (b : ℕ) (acc : Account), acc.assets.qi * ind c (t.behind b) =
      acc.assets.qi * ind c (s.behind b) + ∑ j : Fin 5,
        (ind c (t.cells (taiyiMaxProxyRecursionDepth - j) a) -
          ind c (s.cells (taiyiMaxProxyRecursionDepth - j) a)) *
        if Library.hop s.proxies j b = some a then acc.assets.qi else 0 := by
    intro b acc
    rw [hcells, mul_add, Finset.mul_sum]
    congr 1
    refine Finset.sum_congr rfl fun j _ ↦ ?_
    split <;> ring
  rw [hrows]
  simp only [hterm]
  rw [rowSum_add, rowSum_sum]
  congr 1
  refine Finset.sum_congr rfl fun j _ ↦ ?_
  rw [rowSum_mul, State.qiBelow]
  ring

end Rewire

section Relinks

variable {s t m : State} {a b left : ℕ} {c : Cell} {delta : Fin 5 → ℤ} {u : Unit}
  {proxy : Option ℕ}

/-- The QI of each account there is. -/
def State.qiRows (s : State) (b : ℕ) : Option ℤ := (s.accounts[b]?).map fun acc ↦ acc.assets.qi

/-- An account adores otherwise than before, and nothing is counted anew. -/
structure Relinks (s t : State) (a : ℕ) : Prop where
  adored : t.adored = s.adored
  qi : t.qiRows = s.qiRows
  others : ∀ b, b ≠ a → t.adoring b = s.adoring b

theorem Relinks.trans (h : Relinks s m a) (h' : Relinks m t a) : Relinks s t a where
  adored := h'.adored.trans h.adored
  qi := h'.qi.trans h.qi
  others b hb := (h'.others b hb).trans (h.others b hb)

theorem qiRows_insert {acc v : Account} (hacc : s.accounts[a]? = some acc)
    (hv : v.assets.qi = acc.assets.qi) :
    State.qiRows { s with accounts := s.accounts.insert a v } = s.qiRows := by
  funext b
  simp only [State.qiRows, getElem?_insert]
  split
  · next hb => rw [← hb, hacc, Option.map_some, Option.map_some, hv]
  · rfl

theorem relinks_modifyAccount {f : Account → Account} (h : (modifyAccount a f).run s = .ok u t)
    (hf : ∀ acc, (f acc).proxiedVsfAdores = acc.proxiedVsfAdores ∧ (f acc).assets = acc.assets) :
    Relinks s t a ∧ t.account a = f (s.account a) := by
  obtain ⟨hafter, -⟩ := modifyAccount_ok h
  refine ⟨⟨(adored_of_modifyAccount h fun acc ↦ (hf acc).1).1, ?_, fun b hb ↦ ?_⟩, ?_⟩
  · obtain ⟨acc, hacc, rfl⟩ := modifyIn_ok.mp h
    exact qiRows_insert hacc (congrArg Purse.qi (hf acc).2)
  · rw [State.adoring, State.adoring, hafter b, if_neg (Ne.symm hb)]
  · rw [hafter a, if_pos rfl]

theorem adjustProxiedArray_ok (h : (adjustProxiedArray a delta).run s = .ok u t) :
    (∀ c, t.adored c = (s.adored c).map (· + s.spread delta taiyiMaxProxyRecursionDepth a c)) ∧
      t.adoring = s.adoring ∧ t.qiRows = s.qiRows := by
  have hview : Moves (Same fun s : State ↦ (s.adoring, s.qiRows)) (adjustProxiedArray a delta) := by
    refine moves_propagate (fun p depth ↦ moves_modifyIn fun s acc hacc ↦ Prod.ext ?_ ?_) fun _ _ ↦
      moves_modifyIn fun _ _ _ ↦ rfl
    · funext b
      dsimp only
      rw [State.adoring, account_insert hacc rfl b]
      split <;> rfl
    · exact qiRows_insert hacc rfl
  have hsame := hview.keeps s u t h
  exact ⟨adored_propagateArray le_rfl h, congrArg Prod.fst hsame, congrArg Prod.snd hsame⟩

theorem spread_neg : s.spread (fun i ↦ -delta i) left a c = -s.spread delta left a c := by
  simp only [State.spread, ← Finset.sum_neg_distrib]
  refine Finset.sum_congr rfl fun j _ ↦ ?_
  split <;> ring

theorem spread_of_free (h : s.adoring a = (none, ∅)) : s.spread delta left a c = 0 := by
  have hcells : ∀ left, s.cells left a = [] := fun left ↦ by
    rw [cells_of_none (congrArg Prod.fst h), h]
    rfl
  simp only [State.spread, hcells, ind_nil, mul_zero, ite_self, Finset.sum_const_zero]

/-- The cells there are do not change with what they count. -/
theorem Linked.relinked (hl : Linked s) (hcells : ∀ c, (t.adored c).isSome = (s.adored c).isSome)
    (hother : ∀ b, b ≠ a → t.adoring b = s.adoring b)
    (hproxy : ∀ p, t.proxies a = some p → p ∈ s.accounts ∧ (t.account a).adores = ∅)
    (hadores : ∀ w ∈ (t.account a).adores, w ∈ s.simings) : Linked t := by
  have haccounts : ∀ {p}, p ∈ s.accounts → p ∈ t.accounts := fun hp ↦
    mem_accounts_iff.mpr ((hcells _).trans (mem_accounts_iff.mp hp))
  have hsimings : ∀ {w}, w ∈ s.simings → w ∈ t.simings := by
    intro w hw
    have hsome := hcells (.siming w)
    simp only [State.adored, Option.isSome_map] at hsome
    exact Std.ExtTreeMap.mem_iff_isSome_getElem?.mpr
      (hsome.trans (Std.ExtTreeMap.mem_iff_isSome_getElem?.mp hw))
  have hkept : ∀ {b}, b ≠ a →
      t.proxies b = s.proxies b ∧ (t.account b).adores = (s.account b).adores := fun hb ↦
    ⟨congrArg Prod.fst (hother _ hb), congrArg Prod.snd (hother _ hb)⟩
  refine ⟨fun b p hp ↦ haccounts ?_, fun b w hw ↦ hsimings ?_, fun b p hp ↦ ?_⟩
  · by_cases hb : b = a
    · exact (hproxy p (hb ▸ hp)).1
    · exact hl.proxies b p ((hkept hb).1 ▸ hp)
  · by_cases hb : b = a
    · exact hadores w (hb ▸ hw)
    · exact hl.simings b w ((hkept hb).2 ▸ hw)
  · by_cases hb : b = a
    · exact hb ▸ (hproxy p (hb ▸ hp)).2
    · rw [(hkept hb).2]
      exact hl.free b p ((hkept hb).1 ▸ hp)

/-- Where one account adores otherwise and its array moved along, the books are right again. -/
theorem audited_rewired {adores : IdSet} (h : Audited s) (hs : Acyclic s.proxies)
    (hother : ∀ b, b ≠ a → t.adoring b = s.adoring b) (hqi : t.qiRows = s.qiRows)
    (hat : t.adoring a = (proxy, adores))
    (hproxy : ∀ p, proxy = some p → p ∈ s.accounts ∧ adores = ∅)
    (hadores : ∀ w ∈ adores, w ∈ s.simings)
    (hmoved : ∀ c, t.adored c = (s.adored c).map (· +
      (t.spread (s.account a).shares taiyiMaxProxyRecursionDepth a c -
        s.spread (s.account a).shares taiyiMaxProxyRecursionDepth a c))) : Audited t := by
  have hcells : ∀ c, (t.adored c).isSome = (s.adored c).isSome := fun c ↦ by
    rw [hmoved, Option.isSome_map]
  have hkept : t.proxies a = proxy ∧ (t.account a).adores = adores :=
    ⟨congrArg Prod.fst hat, congrArg Prod.snd hat⟩
  have hlt : Linked t := by
    apply h.linked.relinked hcells hother
    · intro p hp
      rw [hkept.2]
      exact hproxy p (hkept.1 ▸ hp)
    · rwa [hkept.2]
  exact ⟨tallied_rewire h.tallied hs h.linked hlt hother (congrFun hqi) hmoved, hlt⟩

/-- An account that takes its array back and adores nobody any more. -/
theorem audited_withdrawn (h : Audited s) (hs : Acyclic s.proxies)
    (hneg : (adjustProxiedArray a fun i ↦ -(s.account a).shares i).run s = .ok u m)
    (hlink : Relinks m t a) (hfree : t.adoring a = (none, ∅)) : Audited t := by
  obtain ⟨hadored, hadoring, hqi⟩ := adjustProxiedArray_ok hneg
  apply audited_rewired h hs (fun b hb ↦ by rw [hlink.others b hb, hadoring])
    (hlink.qi.trans hqi) hfree
  · intro p hp
    cases hp
  · intro w hw
    exact absurd hw Std.ExtTreeSet.not_mem_empty
  · intro c
    rw [hlink.adored, hadored, spread_of_free hfree, spread_neg, zero_sub]

theorem audited_accountSimingProxy (h : Audited s) (hs : Acyclic s.proxies)
    (hrun : (accountSimingProxy a proxy).run s = .ok u t) : Audited t := by
  obtain ⟨hself, h₁⟩ := after_require hrun
  obtain ⟨acc, s₀, hacc, h₂⟩ := bind_ok.mp h₁
  obtain ⟨rfl, rfl⟩ := account_of_getAccount hacc
  obtain ⟨hchange, h₃⟩ := after_require h₂
  obtain ⟨-, h₄⟩ := after_require h₃
  obtain ⟨_, s₁, hneg, hrest⟩ := bind_ok.mp h₄
  cases proxy with
  | none =>
    obtain ⟨hlink, hself⟩ := relinks_modifyAccount hrest fun _ ↦ ⟨rfl, rfl⟩
    obtain ⟨p, hp⟩ := Option.ne_none_iff_exists'.mp hchange
    have hsame : (s₁.account a).adores = (s₀.account a).adores :=
      congrArg Prod.snd (congrFun (adjustProxiedArray_ok hneg).2.1 a)
    refine audited_withdrawn h hs hneg hlink ?_
    rw [State.adoring, hself]
    exact Prod.ext rfl (hsame.trans (h.linked.free a p hp))
  | some p =>
    obtain ⟨pacc, s₂, hp, h₅⟩ := bind_ok.mp hrest
    obtain ⟨hp, rfl⟩ := getAccount_ok.mp hp
    obtain ⟨_, s₃, hcheck, h₆⟩ := bind_ok.mp h₅
    obtain rfl := (checkProxyLoop_spec hcheck).1
    obtain ⟨_, s₄, hclear, h₇⟩ := bind_ok.mp h₆
    obtain ⟨_, m, hset, hadd⟩ := bind_ok.mp h₇
    obtain ⟨hadored, hadoring, hqi⟩ := adjustProxiedArray_ok hneg
    obtain ⟨hadded, hkept, hsame⟩ := adjustProxiedArray_ok hadd
    obtain ⟨hlink₁, hself₁⟩ := relinks_modifyAccount hclear fun _ ↦ ⟨rfl, rfl⟩
    obtain ⟨hlink₂, hself₂⟩ := relinks_modifyAccount hset fun _ ↦ ⟨rfl, rfl⟩
    have hlink := hlink₁.trans hlink₂
    have hat : t.adoring a = (some p, ∅) := by
      rw [hkept, State.adoring, hself₂, hself₁]
    apply audited_rewired h hs (fun b hb ↦ by rw [hkept, hlink.others b hb, hadoring])
      (hsame.trans (hlink.qi.trans hqi)) hat
    · intro q hq
      have hin : p ∈ s₃.accounts := (mem_iff_getElem? _ _).mpr ⟨pacc, hp⟩
      rw [← Option.some.inj hq, mem_accounts_iff, ← Option.isSome_map, ← hadored,
        ← mem_accounts_iff]
      exact ⟨hin, rfl⟩
    · intro w hw
      exact absurd hw Std.ExtTreeSet.not_mem_empty
    · intro c
      rw [hadded, hlink.adored, hadored, spread_congr hkept, spread_neg, Option.map_map]
      congr 1
      funext x
      simp only [Function.comp_apply]
      ring

theorem ind_erase {w : ℕ} {l : IdSet} (h : w ∈ l) :
    ind c ((l.erase w).toList.map .siming) = ind c (l.toList.map .siming) - ind c [.siming w] := by
  unfold ind
  cases c with
  | proxied p i => simp
  | siming v =>
    by_cases hv : v = w
    · subst hv
      simp [h]
    · simp [hv, Ne.symm hv]

theorem ind_insert {w : ℕ} {l : IdSet} (h : w ∉ l) :
    ind c ((l.insert w).toList.map .siming) = ind c (l.toList.map .siming) + ind c [.siming w] := by
  unfold ind
  cases c with
  | proxied p i => simp
  | siming v =>
    by_cases hv : v = w
    · subst hv
      simp [h]
    · simp [hv, Ne.symm hv]

theorem settleArray_shares (acc : Account) : settleArray acc.shares 0 = acc.simingAdoreWeight := by
  simp [settleArray, Account.shares, Account.simingAdoreWeight, Fin.sum_univ_succ,
    taiyiMaxProxyRecursionDepth]

theorem adjustSimingAdore_adored {w : ℕ} {delta : ℤ}
    (h : (adjustSimingAdore w delta).run s = .ok u t) :
    (∀ c, t.adored c = (s.adored c).map (· + delta * ind c [.siming w])) ∧ t.adoring = s.adoring ∧
      t.qiRows = s.qiRows := by
  have hview : Moves (Same State.accounts) (adjustSimingAdore w delta) :=
    moves_adjustSimingAdore fun _ _ ↦ moves_modifyIn fun _ _ _ ↦ rfl
  have hsame := hview.keeps s u t h
  refine ⟨fun c ↦ ?_, ?_, ?_⟩
  · rw [adored_adjustSimingAdore h, raised_eq]
  · funext b
    rw [State.adoring, State.account, hsame]
    rfl
  · funext b
    rw [State.qiRows, hsame]
    rfl

/-- An account without a proxy adores one siming more or less. -/
theorem audited_adoring {w : ℕ} {delta : ℤ} (adores : IdSet) (h : Audited s)
    (hs : Acyclic s.proxies) (hp : (s.account a).proxy = none)
    (hadjust : (adjustSimingAdore w delta).run s = .ok u m) (hlink : Relinks m t a)
    (hat : t.adoring a = (none, adores)) (hin : ∀ v ∈ adores, v ∈ s.simings)
    (hdelta : ∀ c, delta * ind c [.siming w] = (s.account a).simingAdoreWeight *
      (ind c (adores.toList.map .siming) - ind c ((s.account a).adores.toList.map .siming))) :
    Audited t := by
  obtain ⟨hadored, hadoring, hqi⟩ := adjustSimingAdore_adored hadjust
  apply audited_rewired h hs (fun b hb ↦ by rw [hlink.others b hb, hadoring])
    (hlink.qi.trans hqi) hat
  · intro p hp
    cases hp
  · exact hin
  · intro c
    have hnone : t.proxies a = none := congrArg Prod.fst hat
    rw [hlink.adored, hadored, hdelta, spread_of_none le_rfl hnone, spread_of_none le_rfl hp, hat,
      Nat.sub_self, settleArray_shares, mul_sub]
    rfl

theorem audited_accountSimingAdore {w : ℕ} {approve : Bool} (h : Audited s)
    (hs : Acyclic s.proxies)
    (hrun : (accountSimingAdore a w approve).run s = .ok u t) : Audited t := by
  obtain ⟨acc, s₀, hacc, h₁⟩ := bind_ok.mp hrun
  obtain ⟨rfl, rfl⟩ := account_of_getAccount hacc
  obtain ⟨hp, h₂⟩ := after_require h₁
  obtain ⟨-, h₃⟩ := after_require h₂
  obtain ⟨o, s₁, ho, h₄⟩ := bind_ok.mp h₃
  obtain ⟨ho, rfl⟩ := getSiming_ok.mp ho
  split at h₄
  · next hw =>
    obtain ⟨-, h₅⟩ := after_require h₄
    obtain ⟨_, m, hadjust, hset⟩ := bind_ok.mp h₅
    obtain ⟨hlink, hself⟩ := relinks_modifyAccount hset fun _ ↦ ⟨rfl, rfl⟩
    have hsame := congrFun (adjustSimingAdore_adored hadjust).2.1 a
    refine audited_adoring ((s₁.account a).adores.erase w) h hs hp hadjust hlink ?_
      (fun v hv ↦ h.linked.simings a v (Std.ExtTreeSet.mem_of_mem_erase hv)) fun c ↦ ?_
    · rw [State.adoring, hself]
      exact Prod.ext ((congrArg Prod.fst hsame).trans hp)
        (congrArg (fun x : Option ℕ × IdSet ↦ x.2.erase w) hsame)
    · rw [ind_erase hw]
      ring
  · next hw =>
    obtain ⟨-, h₅⟩ := after_require h₄
    obtain ⟨-, h₆⟩ := after_require h₅
    obtain ⟨_, m, hadjust, hset⟩ := bind_ok.mp h₆
    obtain ⟨hlink, hself⟩ := relinks_modifyAccount hset fun _ ↦ ⟨rfl, rfl⟩
    have hsame := congrFun (adjustSimingAdore_adored hadjust).2.1 a
    refine audited_adoring ((s₁.account a).adores.insert w) h hs hp hadjust hlink ?_
      (fun v hv ↦ ?_) fun c ↦ ?_
    · rw [State.adoring, hself]
      exact Prod.ext ((congrArg Prod.fst hsame).trans hp)
        (congrArg (fun x : Option ℕ × IdSet ↦ x.2.insert w) hsame)
    · rcases Std.ExtTreeSet.mem_insert.mp hv with hv | hv
      · rw [← Nat.compare_eq_eq.mp hv]
        exact (mem_iff_getElem? _ _).mpr ⟨o, ho⟩
      · exact h.linked.simings a v hv
    · rw [ind_insert hw]
      ring

theorem audited_declineAccount (h : Audited s) (hs : Acyclic s.proxies)
    (hrun : (declineAccount a).run s = .ok u t) : Audited t := by
  obtain ⟨acc, s₀, hacc, h₁⟩ := bind_ok.mp hrun
  obtain ⟨rfl, rfl⟩ := account_of_getAccount hacc
  obtain ⟨_, s₁, hneg, h₂⟩ := bind_ok.mp h₁
  obtain ⟨_, s₂, hclear, h₃⟩ := bind_ok.mp h₂
  obtain ⟨_, s₃, hset, h₄⟩ := bind_ok.mp h₃
  obtain ⟨hlink₁, hself₁⟩ := relinks_modifyAccount hclear fun _ ↦ ⟨rfl, rfl⟩
  obtain ⟨hlink₂, hself₂⟩ := relinks_modifyAccount hset fun _ ↦ ⟨rfl, rfl⟩
  cases h₄
  refine audited_withdrawn h hs hneg
    (hlink₁.trans ⟨hlink₂.adored, hlink₂.qi, hlink₂.others⟩) ?_
  change s₃.adoring a = _
  rw [State.adoring, hself₂, hself₁]

theorem audited_processDeclineAdoringRights (h : Audited s) (hs : Acyclic s.proxies)
    (hrun : processDeclineAdoringRights.run s = .ok u t) : Audited t := by
  have hloop := Library.Outcome.forM_preserves
    (fun s : State ↦ Audited s ∧ Acyclic s.proxies) (fun a s s' hs hr ↦
      ⟨audited_declineAccount hs.1 hs.2 hr,
        (frames_declineAccount acyclic_decline : KeepsAcyclic _).ends hr hs.2⟩)
    ⟨h, hs⟩ (after_get hrun)
  exact hloop.1

end Relinks

end Taiyi.Ledger
