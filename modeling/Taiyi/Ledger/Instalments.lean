import Mathlib.Tactic.Linarith
import Taiyi.Ledger.Adored
import Taiyi.Ledger.PowerDown

set_option autoImplicit false

namespace Taiyi.Ledger

open Library.IdMap Library.Frame Library.Outcome Library.Wp Checked

section Watched

variable (adjust : ℕ → ℤ → Call Unit)

def vestPartWith (toWithdraw : ℤ) (r : ℕ × Route) : Call Unit := do
  let toDeposit := r.2.part toWithdraw
  if 0 < toDeposit then
    modifyAccount r.1 fun a ↦ { a with assets := a.assets.add toDeposit .qi }
    adjust r.1 toDeposit

/-- What a turn does once the routes have got their parts. -/
def settleTurnWith (fromAccount : ℕ) (a : Account) : Call Unit := do
  let toWithdraw := a.dueAmount
  let toConvert := toWithdraw - parts a.yangRoutes toWithdraw - parts a.vestRoutes toWithdraw
  require (0 ≤ toConvert) "Deposited more qi than were supposed to be withdrawn"
  let convertedYang ← qiToYang toConvert
  modifyAccount fromAccount fun a ↦ a.afterWithdrawal toWithdraw convertedYang
  modifyProps fun p ↦ { p with totalQi := p.totalQi - toConvert }
  if 0 < toWithdraw then adjust fromAccount (-toWithdraw)

/-- `withdrawTurn` with another way to change the adores. -/
def withdrawTurnWith (fromAccount : ℕ) : Call Unit := do
  let a ← getAccount fromAccount
  a.vestRoutes.forM (vestPartWith adjust a.dueAmount)
  a.yangRoutes.forM (convertPart a.dueAmount)
  settleTurnWith adjust fromAccount a

def withdrawFromWith : ℕ → Option ℕ → Call Unit
  | 0, _ => throw "more turns than there are withdrawals due"
  | _ + 1, none => pure ()
  | turns + 1, some fromAccount => do
    let a ← getAccount fromAccount
    let s ← get
    if a.nextQiWithdrawalTime ≤ s.props.time then
      let current := nextWithdrawal s (some (a.nextQiWithdrawalTime, fromAccount))
      withdrawTurnWith adjust fromAccount
      withdrawFromWith turns current

def processQiWithdrawalsWith : Call Unit := do
  let s ← get
  withdrawFromWith adjust (turnsLeft s + 1) (nextWithdrawal s none)

end Watched

theorem withdrawTurnWith_eq (b : ℕ) :
    withdrawTurnWith adjustProxiedSimingAdores b = withdrawTurn b := rfl

/-- A value between nothing and all the QI there is. -/
def Within (total x : ℤ) : Prop := 0 ≤ x ∧ x ≤ total

instance {total x : ℤ} : Decidable (Within total x) := inferInstanceAs (Decidable (_ ∧ _))

/-- The change of adores, stopped where a value would leave its bounds. -/
def watchAdores (a : ℕ) (delta : ℤ) : Call Unit := do
  let s ← get
  adjustProxied (Within s.props.totalQi) delta taiyiMaxProxyRecursionDepth a

/-- The step with every change of adores watched. -/
def watchedWithdrawals : Call Unit := processQiWithdrawalsWith watchAdores

section Refinement

theorem refines_watchAdores (a : ℕ) (delta : ℤ) :
    Refines (watchAdores a delta) (adjustProxiedSimingAdores a delta) :=
  .drop (fun _ _ _ h ↦ by cases h; rfl) fun _ ↦ refines_adjustProxied a delta

variable {adjust adjust' : ℕ → ℤ → Call Unit} (h : ∀ a delta, Refines (adjust a delta) (adjust' a delta))
include h

theorem refines_vestPart (due : ℤ) (r : ℕ × Route) :
    Refines (vestPartWith adjust due r) (vestPartWith adjust' due r) :=
  .ite (.bind (.refl _) fun _ ↦ h _ _) (.refl _)

theorem refines_withdrawTurn (b : ℕ) :
    Refines (withdrawTurnWith adjust b) (withdrawTurnWith adjust' b) :=
  .bind (.refl _) fun _ ↦ .bind (.forM (refines_vestPart h _) _) fun _ ↦ .bind (.refl _) fun _ ↦
    .bind (.refl _) fun _ ↦ .bind (.refl _) fun _ ↦ .bind (.refl _) fun _ ↦ .bind (.refl _) fun _ ↦
    .ite (h _ _) (.refl _)

end Refinement

section Change

variable {s t : State} {a : ℕ} {delta : ℤ}

theorem completes_watchAdores :
    Completes (watchAdores a delta) s ↔ a ∈ s.accounts ∧
      ∀ c ∈ s.behind a, ∃ x, s.adored c = some x ∧ Within s.props.totalQi (x + delta) := by
  rw [Completes, watchAdores, wp_bind, wp_get]
  refine (completes_adjustProxied (Nat.le_refl _)).trans (carries_iff fun x hx ↦ ?_)
  have := hx.2
  omega

end Change

section Routes

variable {s t u : State} {due : ℤ} {vest yang : List (ℕ × Route)} {r : ℕ × Route}

/-- What the deposits along some routes add to what is counted. -/
def gain (s : State) (due : ℤ) (routes : List (ℕ × Route)) (c : Cell) : ℤ :=
  (routes.map fun r ↦ if c ∈ s.behind r.1 then r.2.part due else 0).sum

/-- What an account gets along some routes. -/
def received (value : ℤ → ℤ) (due : ℤ) (routes : List (ℕ × Route)) (a : ℕ) : ℤ :=
  (routes.map fun r ↦ if r.1 = a then value (r.2.part due) else 0).sum

/-- An account that got its parts. -/
def Account.routed (a : Account) (qi yang : ℤ) : Account :=
  { a with assets := (a.assets.add qi .qi).add yang .yang }

/-- The state when the parts have gone along some routes. -/
structure Routed (s : State) (due : ℤ) (vest yang : List (ℕ × Route)) (t : State) : Prop where
  props : t.props = { s.props with totalQi := s.props.totalQi - parts yang due }
  adored : ∀ c, t.adored c = (s.adored c).map (· + gain s due vest c)
  bare : ∀ a, t.bare a = (s.bare a).routed (received id due vest a) (received (· / 1000) due yang a)

theorem gain_concat (c : Cell) : gain s due (vest ++ [r]) c =
    gain s due vest c + if c ∈ s.behind r.1 then r.2.part due else 0 := by simp [gain]

theorem received_concat (value : ℤ → ℤ) (a : ℕ) : received value due (vest ++ [r]) a =
    received value due vest a + if r.1 = a then value (r.2.part due) else 0 := by simp [received]

theorem parts_concat : parts (yang ++ [r]) due = parts yang due + r.2.part due := by simp [parts]

namespace Routed

theorem start : Routed s due [] [] s := by
  refine ⟨?_, fun c ↦ ?_, fun a ↦ ?_⟩
  · simp [parts]
  · cases h : s.adored c <;> simp [gain]
  · simp [Account.routed, received, Purse.add]

theorem adoring (h : Routed s due vest yang t) : t.adoring = s.adoring := by
  funext a
  rw [adoring_of_bare, adoring_of_bare, h.bare a]
  rfl

theorem behind (h : Routed s due vest yang t) (a : ℕ) : t.behind a = s.behind a :=
  cells_congr h.adoring

theorem accounts (h : Routed s due vest yang t) {a : ℕ} : a ∈ t.accounts ↔ a ∈ s.accounts := by
  rw [mem_accounts_iff, mem_accounts_iff, h.adored, Option.isSome_map]

theorem vestPart (h : Routed s due vest [] t) (hpart : 0 ≤ r.2.part due)
    (hr : (vestPart due r).run t = .ok ⟨⟩ u) : Routed s due (vest ++ [r]) [] u := by
  unfold Ledger.vestPart at hr
  dsimp only at hr
  split at hr
  · next hpos =>
    obtain ⟨_, t₁, hmod, hadjust⟩ := bind_ok.mp hr
    obtain ⟨hadored₁, hprops₁⟩ := adored_of_modifyAccount hmod fun _ ↦ rfl
    have hbare₁ := bare_modifyAccount hmod fun _ ↦ rfl
    obtain ⟨hadored, hbare, hprops⟩ := adjustProxied_ok hadjust
    have hbehind : t₁.behind r.1 = s.behind r.1 := by
      rw [← h.behind]
      refine cells_congr (funext fun a ↦ ?_)
      rw [adoring_of_bare, hbare₁ a]
      split <;> rfl
    refine ⟨hprops.trans (hprops₁.trans h.props), fun c ↦ ?_, fun a ↦ ?_⟩
    · rw [hadored, raised, hbehind, hadored₁, h.adored, Option.map_map, gain_concat]
      refine congrArg (Option.map · _) (funext fun x ↦ ?_)
      exact add_assoc ..
    · rw [hbare, hbare₁ a, h.bare a, received_concat]
      split
      · simp [Account.routed, Purse.add, add_assoc]
      · rw [add_zero]
  · next hnot =>
    cases hr
    have hzero : r.2.part due = 0 := by omega
    refine ⟨h.props, fun c ↦ ?_, fun a ↦ ?_⟩
    · rw [gain_concat, hzero, ite_self, add_zero, h.adored]
    · rw [received_concat, id, hzero, ite_self, add_zero, h.bare]

theorem convertPart (h : Routed s due vest yang t) (hpart : 0 ≤ r.2.part due)
    (hr : (convertPart due r).run t = .ok ⟨⟩ u) : Routed s due vest (yang ++ [r]) u := by
  obtain ⟨acc, t₀, hget, h₁⟩ := bind_ok.mp hr
  obtain ⟨-, rfl⟩ := getAccount_ok.mp hget
  obtain ⟨converted, t₁, hprice, h₂⟩ := bind_ok.mp h₁
  obtain ⟨⟨-, rfl⟩, rfl⟩ := qiToYang_ok.mp hprice
  split at h₂
  · next hpos =>
    obtain ⟨_, t₂, hmod, h₃⟩ := bind_ok.mp h₂
    obtain ⟨hadored, hprops⟩ := adored_of_modifyAccount hmod fun _ ↦ rfl
    have hbare := bare_modifyAccount hmod fun _ ↦ rfl
    cases h₃
    refine ⟨?_, fun c ↦ ?_, fun a ↦ ?_⟩
    · change { t₂.props with totalQi := t₂.props.totalQi - r.2.part due } = _
      rw [hprops, h.props, parts_concat, sub_sub]
    · exact (congrFun hadored c).trans (h.adored c)
    · refine (hbare a).trans ?_
      rw [h.bare a, received_concat]
      split
      · simp [Account.routed, Purse.add, add_assoc]
      · rw [add_zero]
  · next hnot =>
    cases h₂
    have hzero : r.2.part due = 0 := by omega
    refine ⟨?_, h.adored, fun a ↦ ?_⟩
    · rw [parts_concat, hzero, add_zero, h.props]
    · rw [received_concat, hzero, Int.zero_ediv, ite_self, add_zero, h.bare]

end Routed

end Routes

section Completion

variable {s t : State} {due delta : ℤ} {vest yang : List (ℕ × Route)} {r : ℕ × Route} {a b : ℕ}

/-- Whatever is counted behind an account stays within its bounds when it changes so. -/
def Bears (s : State) (total : ℤ) (a : ℕ) (change : Cell → ℤ) : Prop :=
  ∀ c ∈ s.behind a, ∃ x, s.adored c = some x ∧ Within total (x + change c)

theorem completes_modifyAccount {f : Account → Account} :
    Completes (modifyAccount a f) s ↔ a ∈ s.accounts := by
  rw [Completes, modifyAccount, wp_modifyIn, mem_iff_getElem?]
  simp

/-- The check of a change sees what is counted and the total QI only. -/
theorem Routed.completes_watchAdores {u : State} (h : Routed s due vest yang t)
    (hadored : u.adored = t.adored) (hadoring : u.adoring = t.adoring) :
    Completes (watchAdores a delta) u ↔
      a ∈ s.accounts ∧ Bears s u.props.totalQi a fun c ↦ gain s due vest c + delta := by
  have hbehind : u.behind a = s.behind a := (cells_congr hadoring).trans (h.behind a)
  rw [Ledger.completes_watchAdores, mem_accounts_iff, hadored, ← mem_accounts_iff, h.accounts,
    hbehind, Bears]
  refine and_congr_right fun _ ↦ forall₂_congr fun c _ ↦ ?_
  rw [h.adored]
  cases s.adored c with
  | none => simp
  | some x => simp [add_assoc]

theorem Routed.completes_vestPart (h : Routed s due vest [] t) :
    Completes (vestPartWith watchAdores due r) t ↔ (0 < r.2.part due →
      r.1 ∈ s.accounts ∧ Bears s s.props.totalQi r.1 (gain s due (vest ++ [r]))) := by
  have htotal : t.props.totalQi = s.props.totalQi := by
    rw [h.props]
    exact sub_zero _
  unfold vestPartWith
  dsimp only
  split
  · next hpos =>
    have hcheck : ∀ (v : Unit) (u : State), (modifyAccount r.1 fun a ↦
        { a with assets := a.assets.add (r.2.part due) .qi }).run t = .ok v u →
        (Completes (watchAdores r.1 (r.2.part due)) u ↔ r.1 ∈ s.accounts ∧
          Bears s s.props.totalQi r.1 fun c ↦ gain s due vest c + r.2.part due) := by
      intro v u hmod
      obtain ⟨hadored, hprops⟩ := adored_of_modifyAccount hmod fun _ ↦ rfl
      have hkeeps := adoring_of_modifyAccount hmod fun _ ↦ ⟨rfl, rfl⟩
      rw [h.completes_watchAdores hadored hkeeps, hprops, htotal]
    rw [completes_bind hcheck, completes_modifyAccount, h.accounts]
    have hgain : Bears s s.props.totalQi r.1 (fun c ↦ gain s due vest c + r.2.part due) ↔
        Bears s s.props.totalQi r.1 (gain s due (vest ++ [r])) :=
      forall₂_congr fun c hc ↦ by rw [gain_concat, if_pos hc]
    rw [hgain]
    exact ⟨fun h _ ↦ h.2, fun h ↦ ⟨(h hpos).1, h hpos⟩⟩
  · next hnot => exact ⟨fun _ hpos ↦ absurd hpos hnot, fun _ ↦ ⟨⟨⟩, t, rfl, trivial⟩⟩

theorem Routed.completes_convertPart (h : Routed s due vest yang t) (hpart : 0 ≤ r.2.part due) :
    Completes (Ledger.convertPart due r) t ↔ r.1 ∈ s.accounts := by
  rw [← h.accounts, mem_iff_getElem?, Completes, Ledger.convertPart, wp_bind, wp_getAccount]
  refine exists_congr fun acc ↦ ⟨fun hc ↦ hc.1, fun hacc ↦ ⟨hacc, ?_⟩⟩
  refine wp_bind.mpr ⟨_, t, qiToYang_ok.mpr ⟨⟨hpart, rfl⟩, rfl⟩, ?_⟩
  dsimp only
  split
  · exact wp_bind.mpr (wp_modifyIn.mpr ⟨acc, hacc, wp_modifyProps.mpr trivial⟩)
  · exact wp_pure.mpr trivial

theorem Routed.completes_settleTurn {acc : Account}
    (h : Routed s acc.dueAmount acc.vestRoutes acc.yangRoutes t)
    (hconvert : 0 ≤ acc.dueAmount - parts acc.yangRoutes acc.dueAmount -
      parts acc.vestRoutes acc.dueAmount) :
    Completes (settleTurnWith watchAdores b acc) t ↔ b ∈ s.accounts ∧ (0 < acc.dueAmount →
      Bears s (s.props.totalQi - (acc.dueAmount - parts acc.vestRoutes acc.dueAmount)) b
        fun c ↦ gain s acc.dueAmount acc.vestRoutes c - acc.dueAmount) := by
  have hqi : ∀ {Q : ℤ → State → Prop} {qi : ℤ}, 0 ≤ qi → (wp (qiToYang qi) Q t ↔ Q (qi / 1000) t) := by
    intro Q qi hqi
    constructor
    · rintro ⟨v, u, hr, hq⟩
      obtain ⟨⟨-, rfl⟩, rfl⟩ := qiToYang_ok.mp hr
      exact hq
    · exact fun hq ↦ ⟨_, t, qiToYang_ok.mpr ⟨⟨hqi, rfl⟩, rfl⟩, hq⟩
  rw [Completes, settleTurnWith, wp_bind, wp_require, and_iff_right hconvert, wp_bind, hqi hconvert,
    ← h.accounts, ← completes_modifyAccount (f := fun a ↦ a.afterWithdrawal acc.dueAmount
      ((acc.dueAmount - parts acc.yangRoutes acc.dueAmount -
        parts acc.vestRoutes acc.dueAmount) / 1000))]
  refine completes_bind fun v u hmod ↦ ?_
  obtain ⟨hadored, hprops⟩ := adored_of_modifyAccount hmod fun _ ↦ rfl
  have hadoring := adoring_of_modifyAccount hmod fun _ ↦ ⟨rfl, rfl⟩
  have hb : b ∈ s.accounts :=
    h.accounts.mp (completes_modifyAccount.mp ⟨v, u, hmod, trivial⟩)
  rw [Completes, wp_bind, wp_modifyProps]
  generalize hu : ({ u with props := _ } : State) = u'
  have hadored' : u'.adored = t.adored := hu ▸ hadored
  have hadoring' : u'.adoring = t.adoring := hu ▸ hadoring
  split
  · next hpos =>
    change Completes (watchAdores b (-acc.dueAmount)) u' ↔ _
    rw [h.completes_watchAdores hadored' hadoring', ← hu]
    have htotal : u.props.totalQi - (acc.dueAmount - parts acc.yangRoutes acc.dueAmount -
        parts acc.vestRoutes acc.dueAmount) =
          s.props.totalQi - (acc.dueAmount - parts acc.vestRoutes acc.dueAmount) := by
      rw [hprops, h.props]
      dsimp only
      omega
    rw [htotal]
    exact ⟨fun hc _ ↦ hc.2, fun hc ↦ ⟨hb, hc hpos⟩⟩
  · next hnot => exact ⟨fun _ hpos ↦ absurd hpos hnot, fun _ ↦ ⟨⟨⟩, _, rfl, trivial⟩⟩

section Shares

variable {l : List (ℕ × Route)}

theorem part_nonneg {r : Route} (h : 0 ≤ due) : 0 ≤ r.part due :=
  Int.ediv_nonneg (Int.mul_nonneg h (Int.natCast_nonneg _)) (by decide)

theorem parts_le (due : ℤ) (l : List (ℕ × Route)) :
    taiyi100Percent * parts l due ≤ due * (l.map fun r ↦ r.2.percent).sum := by
  induction l with
  | nil => simp [parts]
  | cons r l ih =>
    have hr : taiyi100Percent * r.2.part due ≤ due * r.2.percent :=
      Int.mul_ediv_self_le (by decide)
    simp only [parts, List.map_cons, List.sum_cons, Nat.cast_add, mul_add] at ih ⊢
    omega

/-- The routes share no more than there is. -/
theorem toConvert_nonneg {acc : Account} (hdue : 0 ≤ acc.dueAmount)
    (hpercent : totalPercent acc.routes ≤ 10000) :
    0 ≤ acc.dueAmount - parts acc.yangRoutes acc.dueAmount - parts acc.vestRoutes acc.dueAmount := by
  have hy := parts_le acc.dueAmount acc.yangRoutes
  have hv := parts_le acc.dueAmount acc.vestRoutes
  have hsplit : (acc.vestRoutes.map fun r ↦ r.2.percent).sum +
      (acc.yangRoutes.map fun r ↦ r.2.percent).sum = totalPercent acc.routes := by
    unfold Account.vestRoutes Account.yangRoutes totalPercent
    induction acc.routes.toList with
    | nil => rfl
    | cons r l ih => cases hr : r.2.autoVest <;> simp [hr] <;> omega
  have hall : acc.dueAmount * totalPercent acc.routes ≤ acc.dueAmount * 10000 :=
    Int.mul_le_mul_of_nonneg_left (by omega) hdue
  rw [← hsplit, Nat.cast_add, mul_add] at hall
  unfold taiyi100Percent at hy hv
  omega

end Shares

/-- What a turn raises and lowers stays within its bounds wherever it is counted, and every route
leads to an account. -/
structure Clears (s : State) (b : ℕ) : Prop where
  vest : ∀ l₁ r l₂, (s.account b).vestRoutes = l₁ ++ r :: l₂ → 0 < r.2.part (s.account b).dueAmount →
    r.1 ∈ s.accounts ∧ Bears s s.props.totalQi r.1 (gain s (s.account b).dueAmount (l₁ ++ [r]))
  yang : ∀ r ∈ (s.account b).yangRoutes, r.1 ∈ s.accounts
  own : 0 < (s.account b).dueAmount → Bears s
    (s.props.totalQi -
      ((s.account b).dueAmount - parts (s.account b).vestRoutes (s.account b).dueAmount)) b
    fun c ↦ gain s (s.account b).dueAmount (s.account b).vestRoutes c - (s.account b).dueAmount

theorem completes_withdrawTurn (hdue : 0 ≤ (s.account b).dueAmount)
    (hpercent : totalPercent (s.account b).routes ≤ 10000) :
    Completes (withdrawTurnWith watchAdores b) s ↔ b ∈ s.accounts ∧ Clears s b := by
  rw [Completes, withdrawTurnWith, wp_bind, wp_getAccount, mem_iff_getElem?, ← exists_and_right]
  refine exists_congr fun acc ↦ and_congr_right fun hacc ↦ ?_
  obtain rfl : s.account b = acc := by
    rw [State.account, hacc]
    rfl
  have hb : b ∈ s.accounts := (mem_iff_getElem? ..).mpr ⟨_, hacc⟩
  have hvest : ∀ l r u v, Routed s (s.account b).dueAmount l [] u →
      (vestPartWith watchAdores (s.account b).dueAmount r).run u = .ok ⟨⟩ v →
      Routed s (s.account b).dueAmount (l ++ [r]) [] v := fun l r u v h hr ↦
    h.vestPart (part_nonneg hdue) (refines_vestPart refines_watchAdores _ _ _ _ _ hr)
  have hyang : ∀ l r u v, Routed s (s.account b).dueAmount (s.account b).vestRoutes l u →
      (convertPart (s.account b).dueAmount r).run u = .ok ⟨⟩ v →
      Routed s (s.account b).dueAmount (s.account b).vestRoutes (l ++ [r]) v := fun l r u v h hr ↦
    h.convertPart (part_nonneg hdue) hr
  have hsettle : ∀ (v : Unit) t, Routed s (s.account b).dueAmount (s.account b).vestRoutes [] t →
      (Completes (do
        (s.account b).yangRoutes.forM (convertPart (s.account b).dueAmount)
        settleTurnWith watchAdores b (s.account b)) t ↔
          (∀ r ∈ (s.account b).yangRoutes, r.1 ∈ s.accounts) ∧ _) := fun _ t ht ↦ by
    refine (completes_bind fun _ u hu ↦ (forM_trace hyang ht hu).completes_settleTurn
      (toConvert_nonneg hdue hpercent)).trans (and_congr_left fun _ ↦ ?_)
    refine (completes_forM_trace hyang (fun l r u h ↦ h.completes_convertPart (part_nonneg hdue)) ht).trans ?_
    refine ⟨fun h r hr ↦ ?_, fun h l₁ r l₂ he ↦ h r (he ▸ List.mem_append_right _ List.mem_cons_self)⟩
    obtain ⟨l₁, l₂, he⟩ := List.append_of_mem hr
    exact h l₁ r l₂ he
  refine (completes_bind fun v t ht ↦ hsettle v t
    (forM_trace (R := fun l ↦ Routed s (s.account b).dueAmount l []) hvest .start ht)).trans ?_
  rw [completes_forM_trace (R := fun l ↦ Routed s (s.account b).dueAmount l []) hvest (fun l r u h ↦ h.completes_vestPart) .start]
  exact ⟨fun h ↦ ⟨h.1, h.2.1, h.2.2.2⟩, fun h ↦ ⟨h.vest, h.yang, hb, h.own⟩⟩

theorem completes_withdrawTurn_iff (hb : b ∈ s.accounts) (hdue : 0 ≤ (s.account b).dueAmount)
    (hpercent : totalPercent (s.account b).routes ≤ 10000) :
    Completes (withdrawTurnWith watchAdores b) s ↔ Clears s b := by
  rw [completes_withdrawTurn hdue hpercent, and_iff_right hb]

end Completion

end Taiyi.Ledger
