import Taiyi.Ledger.CultivationSpec
import Taiyi.Ledger.Weigh

set_option autoImplicit false

namespace Taiyi.Ledger

open Library.IdMap Library.Meter Library.Outcome Library.Frame

/-- The QI of an NFA with what it has put into a cultivation. -/
def Nfa.worth (n : Nfa) : ℤ := n.assets.qi + n.cultivationValue

def worthAt (s : State) (id : ℕ) : ℤ := ((s.nfas[id]?).map Nfa.worth).getD 0

def totalWorth (s : State) : ℤ := rowSum (fun _ n ↦ n.worth) s.nfas

def fundQi (s : State) : ℤ :=
  ((s.funds[cultivationFund]?).map RewardFund.rewardQiBalance).getD 0

/-- What each NFA is worth, what all are worth, and the QI of the cultivation fund. -/
def book (s : State) : (ℕ → ℤ) × ℤ × ℤ := (worthAt s, totalWorth s, fundQi s)

section Book

variable {id : ℕ} {s t : State}

theorem keeps_modifyCultivation {f : Cultivation → Cultivation} :
    Keeps book (modifyCultivation id f) := by
  intro s _ t h
  obtain ⟨_, _, rfl⟩ := modifyIn_ok.mp h
  rfl

theorem keeps_modifyProps {f : Props → Props} : Keeps book (modifyProps f) :=
  .update fun _ ↦ rfl

theorem shifts_modifyNfa_book {f : Nfa → Nfa} {d : ℤ} (h : ∀ n, (f n).worth = n.worth + d) :
    Shifts book (modifyNfa id f) (Pi.single id d, d, 0) := by
  intro s _ t hr
  obtain ⟨n, hn, rfl⟩ := modifyIn_ok.mp hr
  refine Prod.ext (funext fun j ↦ ?_) (Prod.ext ?_ (add_zero _).symm)
  · change worthAt _ j = worthAt s j + (Pi.single id d : ℕ → ℤ) j
    by_cases hj : id = j
    · subst hj
      simp [worthAt, hn, h]
    · simp [worthAt, getElem?_insert, hj]
  · change totalWorth _ = totalWorth s + d
    rw [totalWorth, rowSum_insert _ hn, h, totalWorth]
    ring

theorem keeps_modifyNfa_book {f : Nfa → Nfa} (h : ∀ n, (f n).worth = n.worth) :
    Keeps book (modifyNfa id f) := by
  intro s a t hr
  have hs := shifts_modifyNfa_book (fun n ↦ (h n).trans (add_zero _).symm) s a t hr
  rw [hs, Pi.single_zero]
  exact add_zero _

theorem shifts_adjustNfaQi {d : ℤ} :
    Shifts book (adjustNfaBalance id d .qi) (Pi.single id d, d, 0) := by
  refine .read (Keeps.shifts (.bind keeps_getNfa fun _ ↦ .pure _)) fun _ ↦
    .read (Keeps.shifts keeps_require) fun _ ↦ shifts_modifyNfa_book ?_
  intro n
  simp only [Nfa.worth, Purse.add]
  ring

theorem shifts_modifyCultivationFund {f : RewardFund → RewardFund} {d : ℤ}
    (h : ∀ r, (f r).rewardQiBalance = r.rewardQiBalance + d) :
    Shifts book (modifyFund cultivationFund f) (0, 0, d) := by
  intro s _ t hr
  obtain ⟨r, hf, rfl⟩ := modifyIn_ok.mp hr
  refine Prod.ext (add_zero _).symm (Prod.ext (add_zero _).symm ?_)
  change fundQi _ = fundQi s + d
  simp [fundQi, hf, h]

end Book

section Pay

variable {rv : ℤ} {shares : List (ℕ × ℕ)}

/-- What is left over goes to the last beneficiary. -/
def leftCredit (rv : ℤ) (shares : List (ℕ × ℕ)) : List (ℕ × ℤ) :=
  if 0 < rewardLeft rv shares then
    (shares.getLast?.map fun b ↦ (b.1, rewardLeft rv shares)).toList
  else []

def credits (rv : ℤ) (shares : List (ℕ × ℕ)) : List (ℕ × ℤ) :=
  shares.map (fun b ↦ (b.1, payout rv b.2)) ++ leftCredit rv shares

def creditTo (l : List (ℕ × ℤ)) : ℕ → ℤ := (l.map fun b ↦ (Pi.single b.1 b.2 : ℕ → ℤ)).sum

def creditSum (l : List (ℕ × ℤ)) : ℤ := (l.map Prod.snd).sum

/-- How the book changes when these credits are paid. -/
def booked (l : List (ℕ × ℤ)) : (ℕ → ℤ) × ℤ × ℤ := (creditTo l, creditSum l, 0)

theorem booked_append (l l' : List (ℕ × ℤ)) : booked (l ++ l') = booked l + booked l' := by
  simp [booked, creditTo, creditSum]

theorem booked_eq_sum (l : List (ℕ × ℤ)) :
    booked l = (l.map fun b ↦ ((Pi.single b.1 b.2, b.2, 0) : (ℕ → ℤ) × ℤ × ℤ)).sum := by
  induction l with
  | nil => rfl
  | cons b l ih =>
    rw [List.map_cons, List.sum_cons, ← ih]
    simp [booked, creditTo, creditSum]

theorem shifts_adjustNfaQi_booked (b : ℕ × ℤ) :
    Shifts book (adjustNfaBalance b.1 b.2 .qi) (booked [b]) := by
  refine .of_eq shifts_adjustNfaQi ?_
  simp [booked, creditTo, creditSum]

theorem shifts_payBeneficiaries :
    Shifts book (payBeneficiaries rv shares) (booked (credits rv shares)) := by
  rw [credits, booked_append]
  refine .bind ?_ fun _ ↦ ?_
  · rw [booked_eq_sum, List.map_map]
    exact .forM fun b _ ↦ shifts_adjustNfaQi
  · unfold leftCredit
    split
    · cases hl : shares.getLast? with
      | none => exact .throw _
      | some b => exact shifts_adjustNfaQi_booked (b.1, _)
    · exact .pure _

end Pay

section Stop

variable {hash : ℕ → ℕ} {cult seed : ℕ} {s t : State} {rv : ℤ} {shares : List (ℕ × ℕ)}

theorem book_updateCultivation {u : Unit}
    (h : (updateCultivation hash cult seed).run s = .ok u t) : book t = book s := by
  obtain ⟨c, _, rfl | ⟨rv, _, rfl⟩⟩ := updateCultivation_ok h
  · rfl
  · rfl

theorem keeps_returnQi {ps : List ℕ} : Keeps book (returnQi ps) := by
  induction ps with
  | nil => exact .pure _
  | cons p ps ih =>
    refine .bind keeps_getNfa fun _ ↦ .bind (keeps_modifyNfa_book fun n ↦ ?_) fun _ ↦
      .bind ih fun _ ↦ .pure _
    simp only [Nfa.worth, Purse.add]
    push_cast
    ring

theorem keeps_dissolveCultivation : Keeps book (dissolveCultivation cult) := by
  refine .bind keeps_getCultivation fun _ ↦ .bind keeps_returnQi fun _ ↦
    .bind keeps_modifyCultivation fun _ ↦ ?_
  exact .ite (fun _ ↦ keeps_modifyProps) fun _ ↦ .pure _

theorem shifts_payReward (h : 0 < rv) :
    Shifts book (payReward rv shares) (booked (credits rv shares) + (0, 0, -rv)) := by
  unfold payReward
  rw [if_pos h]
  exact .bind shifts_payBeneficiaries fun _ ↦
    .of_eq (.bind (shifts_modifyCultivationFund fun _ ↦ sub_eq_add_neg _ _) fun _ ↦
      keeps_modifyProps.shifts) (add_zero _)

theorem keeps_payReward (h : ¬0 < rv) : Keeps book (payReward rv shares) := by
  unfold payReward
  rw [if_neg h]
  exact .pure _

/-- What the fund can pay of the QI a cultivation has accumulated. -/
def payable (s : State) (c : Cultivation) : ℤ :=
  if fundQi s < c.qiAccumulated then fundQi s else c.qiAccumulated

theorem stopCultivation_book {u : Unit} (h : (stopCultivation hash cult seed).run s = .ok u t) :
    ∃ r c, (updateCultivation hash cult seed).run s = .ok ⟨⟩ r ∧ r.cultivations[cult]? = some c ∧
      book t = book s +
        if 0 < payable s c then
          booked (credits (payable s c) c.beneficiaryMap.toList) + (0, 0, -payable s c)
        else 0 := by
  obtain ⟨⟨⟩, r, hu, h₁⟩ := bind_ok.mp h
  obtain ⟨c, r', hc, h₂⟩ := bind_ok.mp h₁
  obtain ⟨hc, hr⟩ := getCultivation_ok.mp hc
  obtain ⟨_, _, hg, h₃⟩ := bind_ok.mp h₂
  cases hg
  obtain ⟨rf, r'', hf, h₄⟩ := bind_ok.mp h₃
  obtain ⟨hf, hr'⟩ := lookup_ok.mp hf
  obtain ⟨⟨⟩, q, hp, hd⟩ := bind_ok.mp h₄
  rw [hr] at hf hr'
  rw [hr'] at hp
  have hb := book_updateCultivation hu
  have hfund : rf.rewardQiBalance = fundQi s := by
    have h2 : fundQi r = fundQi s := congrArg (fun b ↦ b.2.2) hb
    rw [← h2, fundQi, hf]
    rfl
  refine ⟨r, c, hu, hc, ?_⟩
  rw [keeps_dissolveCultivation _ _ _ hd, ← hb]
  rw [hfund] at hp
  split
  · next hpos => exact shifts_payReward hpos _ _ _ hp
  · next hpos => exact (keeps_payReward hpos _ _ _ hp).trans (add_zero _).symm

end Stop

section Shares

variable {rv : ℤ} {shares : List (ℕ × ℕ)}

theorem creditTo_le {l : List (ℕ × ℤ)} (h : ∀ b ∈ l, 0 ≤ b.2) (id : ℕ) :
    creditTo l id ≤ creditSum l := by
  induction l with
  | nil => exact le_refl (0 : ℤ)
  | cons b l ih =>
    have hb : (Pi.single b.1 b.2 : ℕ → ℤ) id ≤ b.2 := by
      rw [Pi.single_apply]
      split
      · exact le_rfl
      · exact h b List.mem_cons_self
    exact add_le_add hb (ih fun b' hb' ↦ h b' (List.mem_cons_of_mem _ hb'))

/-- Rounded down, the parts of a whole are not more than the whole. -/
theorem sum_parts_le (l : List (ℕ × ℕ)) :
    (l.map fun b ↦ rv * b.2 / taiyi100Percent).sum * taiyi100Percent ≤
      rv * (l.map Prod.snd).sum := by
  induction l with
  | nil => simp
  | cons b l ih =>
    have hb : rv * b.2 / taiyi100Percent * taiyi100Percent ≤ rv * b.2 :=
      Int.ediv_mul_le _ (by decide)
    simp only [List.map_cons, List.sum_cons, Nat.cast_add]
    rw [add_mul, mul_add]
    exact add_le_add hb ih

variable (h : 0 ≤ rv) (hrv : rv * taiyi100Percent < 2 ^ 63)
  (hsum : (shares.map Prod.snd).sum = 10000)

include h hrv hsum

theorem payout_of_mem {b : ℕ × ℕ} (hb : b ∈ shares) :
    payout rv b.2 = rv * b.2 / taiyi100Percent := by
  have hle : b.2 ≤ 10000 := hsum ▸ List.single_le_sum (fun _ _ ↦ Nat.zero_le _) _
    (List.mem_map_of_mem hb)
  have hle : (b.2 : ℤ) ≤ taiyi100Percent := Int.ofNat_le.mpr hle
  apply payout_eq h
  calc rv * b.2 ≤ rv * taiyi100Percent := Int.mul_le_mul_of_nonneg_left hle h
    _ < 2 ^ 63 := hrv

theorem rewardLeft_nonneg : 0 ≤ rewardLeft rv shares := by
  have he : (shares.map fun b ↦ payout rv b.2) =
      shares.map fun b ↦ rv * b.2 / taiyi100Percent :=
    List.map_congr_left fun b hb ↦ payout_of_mem h hrv hsum hb
  have hp : (shares.map fun b ↦ rv * b.2 / taiyi100Percent).sum * taiyi100Percent ≤ rv * _ :=
    sum_parts_le shares
  rw [hsum] at hp
  have hle : (shares.map fun b ↦ rv * b.2 / taiyi100Percent).sum ≤ rv :=
    Int.le_of_mul_le_mul_right hp (by decide)
  rw [rewardLeft, he]
  exact Int.sub_nonneg.mpr hle

theorem credits_nonneg : ∀ b ∈ credits rv shares, 0 ≤ b.2 := by
  intro b hb
  rcases List.mem_append.mp hb with hb | hb
  · obtain ⟨b', hb', rfl⟩ := List.mem_map.mp hb
    rw [payout_of_mem h hrv hsum hb']
    exact Int.ediv_nonneg (Int.mul_nonneg h (Int.natCast_nonneg _)) (by decide)
  · unfold leftCredit at hb
    split at hb
    · obtain ⟨b', hb', rfl⟩ := Option.map_eq_some_iff.mp (Option.mem_toList.mp hb)
      exact rewardLeft_nonneg h hrv hsum
    · cases hb

theorem creditSum_credits : creditSum (credits rv shares) = rv := by
  have hl := rewardLeft_nonneg h hrv hsum
  have hs : creditSum (shares.map fun b ↦ (b.1, payout rv b.2)) = rv - rewardLeft rv shares := by
    rw [creditSum, List.map_map, rewardLeft, sub_sub_cancel]
    rfl
  have hr : creditSum (leftCredit rv shares) = rewardLeft rv shares := by
    unfold leftCredit
    split
    · cases hlast : shares.getLast? with
      | none =>
        rw [List.getLast?_eq_none_iff] at hlast
        subst hlast
        cases hsum
      | some b => simp [creditSum]
    · next hn => exact le_antisymm hl (not_lt.mp hn)
  rw [credits, creditSum, List.map_append, List.sum_append, ← creditSum, ← creditSum, hs, hr,
    sub_add_cancel]

end Shares

/-- A reward is paid exactly: what the NFAs gain is what the fund loses, and no NFA gains more
than the reward. -/
structure Settled (s t : State) (reward : ℤ) : Prop where
  credited : totalWorth t - totalWorth s = fundQi s - fundQi t
  withinReward : fundQi s - fundQi t ≤ reward
  withinFund : fundQi s - fundQi t ≤ fundQi s
  each : ∀ id, worthAt t id - worthAt s id ≤ reward

/-- The QI that a cultivation has accumulated when it is stopped. -/
def computedReward (hash : ℕ → ℕ) (cult seed : ℕ) (s : State) : ℤ :=
  match (updateCultivation hash cult seed).run s with
  | .ok _ t => ((t.cultivations[cult]?).map Cultivation.qiAccumulated).getD 0
  | .error _ _ => 0

/-- The fund and the cultivation owe nothing, and the products of the shares fit 64 bits. -/
structure InRange (s : State) (c : Cultivation) : Prop where
  fund : 0 ≤ fundQi s
  accumulated : 0 ≤ c.qiAccumulated
  fits : fundQi s * taiyi100Percent < 2 ^ 63

def StopsExactly (hash : ℕ → ℕ) (cult : ℕ) (m : Table ℕ) : Prop :=
  ∀ seed s t u c, s.cultivations[cult]? = some c → c.beneficiaryMap = m → InRange s c →
    (stopCultivation hash cult seed).run s = .ok u t →
      Settled s t (computedReward hash cult seed s)

section Exact

variable {hash : ℕ → ℕ} {cult seed : ℕ} {s t r : State} {c : Cultivation} {u : Unit}

theorem computedReward_eq (h : (updateCultivation hash cult seed).run s = .ok u r)
    (hc : r.cultivations[cult]? = some c) : computedReward hash cult seed s = c.qiAccumulated := by
  rw [computedReward, h]
  simp only [hc, Option.map_some, Option.getD_some]

theorem settled_of_shareSum (h : (stopCultivation hash cult seed).run s = .ok u t)
    (hs : s.cultivations[cult]? = some c) (hr : InRange s c)
    (hsum : shareSum c.beneficiaryMap = 10000) :
    Settled s t (computedReward hash cult seed s) := by
  obtain ⟨r, c', hu, hc', hb⟩ := stopCultivation_book h
  obtain ⟨c'', hc'', hm, -, -, hacc, -⟩ := cultivation_after_update hu hs
  obtain rfl : c' = c'' := Option.some.inj (hc'.symm.trans hc'')
  rw [computedReward_eq hu hc']
  have hle : payable s c' ≤ c'.qiAccumulated ∧ payable s c' ≤ fundQi s := by
    unfold payable
    split <;> omega
  have hacc' : 0 ≤ c'.qiAccumulated := hr.accumulated.trans hacc
  split at hb
  · next hpos =>
    have hfits : payable s c' * taiyi100Percent < 2 ^ 63 :=
      (Int.mul_le_mul_of_nonneg_right hle.2 (by decide)).trans_lt hr.fits
    have hmap : (c'.beneficiaryMap.toList.map Prod.snd).sum = 10000 := hm ▸ hsum
    have hcs := creditSum_credits hpos.le hfits hmap
    have htotal : totalWorth t = totalWorth s + payable s c' := by
      have h2 := congrArg (fun b ↦ b.2.1) hb
      simp only [book, booked, Prod.mk_add_mk, hcs, add_zero] at h2
      exact h2
    have hfund : fundQi t = fundQi s - payable s c' := by
      have h2 := congrArg (fun b ↦ b.2.2) hb
      simp only [book, booked, Prod.mk_add_mk, zero_add] at h2
      exact h2
    refine ⟨by omega, by omega, by omega, fun id ↦ ?_⟩
    have hw : worthAt t id = worthAt s id +
        creditTo (credits (payable s c') c'.beneficiaryMap.toList) id := by
      have h2 := congrArg (fun b ↦ b.1 id) hb
      simp only [book, booked, Prod.mk_add_mk, add_zero, Pi.add_apply] at h2
      exact h2
    have hc := creditTo_le (credits_nonneg hpos.le hfits hmap) id
    omega
  · have hst : book t = book s := hb.trans (add_zero _)
    have htotal : totalWorth t = totalWorth s := congrArg (fun b ↦ b.2.1) hst
    have hfund : fundQi t = fundQi s := congrArg (fun b ↦ b.2.2) hst
    have hf := hr.fund
    refine ⟨by omega, by omega, by omega, fun id ↦ ?_⟩
    have hw : worthAt t id = worthAt s id := congrArg (fun b ↦ b.1 id) hst
    omega

end Exact

section Create

variable {caller cult managerNfa prepareTimeBlocks : ℕ} {entries : List (ℕ × ℤ)} {s t : State}

theorem beneficiaryMap_lt (entries : List (ℕ × ℤ)) :
    ∀ b ∈ (beneficiaryMap entries).toList, b.2 < 2 ^ 32 := by
  have h : ∀ (entries : List (ℕ × ℤ)) (m : Table ℕ), (∀ b ∈ m.toList, b.2 < 2 ^ 32) →
      ∀ b ∈ (entries.foldl (fun m e ↦ m.insert e.1 (e.2 % 2 ^ 32).toNat) m : Table ℕ).toList,
        b.2 < 2 ^ 32 := by
    intro entries
    induction entries with
    | nil => exact fun _ hm ↦ hm
    | cons e entries ih =>
      intro m hm
      apply ih
      intro b hb
      have hb : (m.insert e.1 (e.2 % 2 ^ 32).toNat)[b.1]? = some b.2 := (mem_toList _ _ _).mp hb
      rw [getElem?_insert] at hb
      split at hb
      · have hv := Option.some.inj hb
        omega
      · exact hm b ((mem_toList _ _ _).mpr hb)
  exact h entries ∅ fun b hb ↦ nomatch hb

/-- What the checks of `create_cultivation` let through. -/
structure Accepted (s : State) (m : Table ℕ) : Prop where
  exist : ∀ b ∈ m.toList, ∃ n, s.nfas[b.1]? = some n
  small : ∀ b ∈ m.toList, b.2 < 2 ^ 32
  sum : shareSum m % 2 ^ 32 = 10000

theorem accepted_of_create {u : Unit}
    (h : (createCultivation caller cult managerNfa entries prepareTimeBlocks).run s = .ok u t) :
    Accepted s (beneficiaryMap entries) := by
  have hop : Keeps id (requireOperator caller managerNfa) :=
    .bind keeps_getNfa fun _ ↦ keeps_require
  obtain ⟨_, s₁, h₁, hr₁⟩ := bind_ok.mp h
  cases hop _ _ _ h₁
  obtain ⟨_, s₂, h₂, hr₂⟩ := bind_ok.mp hr₁
  obtain ⟨rfl, -⟩ := Keeps.forM_all (fun _ ↦ .bind keeps_getNfa fun _ ↦ keeps_require) h₂
  obtain ⟨_, s₃, h₃, hr₃⟩ := bind_ok.mp hr₂
  obtain ⟨-, rfl⟩ := require_ok.mp h₃
  obtain ⟨_, s₄, h₄, hr₄⟩ := bind_ok.mp hr₃
  obtain ⟨-, rfl⟩ := require_ok.mp h₄
  obtain ⟨_, s₅, h₅, hr₅⟩ := bind_ok.mp hr₄
  obtain ⟨rfl, hall⟩ := Keeps.forM_all (fun _ ↦ .bind keeps_getNfa fun _ ↦ keeps_require) h₅
  obtain ⟨_, s₆, h₆, -⟩ := bind_ok.mp hr₅
  obtain ⟨hsum, -⟩ := require_ok.mp h₆
  refine ⟨fun b hb ↦ ?_, beneficiaryMap_lt entries, ?_⟩
  · obtain ⟨n, _, hn, -⟩ := bind_ok.mp (hall b hb)
    exact ⟨n, (getNfa_ok.mp hn).1⟩
  · have hs : ((shareSum (beneficiaryMap entries) % 2 ^ 32 : ℕ) : ℤ) = 10000 := by
      rw [Int.natCast_mod]
      exact hsum
    exact_mod_cast hs

end Create

section Overpaid

variable {hash : ℕ → ℕ} {cult : ℕ} {s : State} {m : Table ℕ}

def fullFund : RewardFund := { percentContentRewards := 10000, rewardQiBalance := 10000 }

def fullCultivation (s : State) (m : Table ℕ) : Cultivation where
  managerNfaId := 0
  beneficiaryMap := m
  startTime := 0
  lastUpdateTime := s.props.headBlockNumber
  qiAccumulated := 10000

/-- A state in which the cultivation has run and the fund holds as much as it has gained. -/
def rewarded (s : State) (cult : ℕ) (m : Table ℕ) : State :=
  { s with
    funds := (∅ : Table RewardFund).insert cultivationFund fullFund
    cultivations := (∅ : Table Cultivation).insert cult (fullCultivation s m) }

theorem rewarded_cultivation :
    (rewarded s cult m).cultivations[cult]? = some (fullCultivation s m) := by
  simp [rewarded]

theorem rewarded_fund : (rewarded s cult m).funds[cultivationFund]? = some fullFund := by
  simp [rewarded]

theorem inRange_rewarded : InRange (rewarded s cult m) (fullCultivation s m) := by
  have h : fundQi (rewarded s cult m) = 10000 := by
    rw [fundQi, rewarded_fund]
    rfl
  constructor
  · rw [h]
    decide
  · exact (by decide : (0 : ℤ) ≤ 10000)
  · rw [h]
    decide

theorem payout_full {share : ℕ} (h : share < 2 ^ 32) : payout 10000 share = share := by
  rw [payout_eq (by decide) (by omega)]
  exact Int.mul_ediv_cancel_left _ (by decide)

theorem rewardLeft_full (h : ∀ b ∈ m.toList, b.2 < 2 ^ 32) :
    rewardLeft 10000 m.toList = 10000 - shareSum m := by
  have he : (m.toList.map fun b ↦ payout 10000 b.2) =
      m.toList.map fun b ↦ (b.2 : ℤ) :=
    List.map_congr_left fun b hb ↦ payout_full (h b hb)
  rw [rewardLeft, he, shareSum, Nat.cast_list_sum, List.map_map]
  rfl

theorem creditSum_full (h : ∀ b ∈ m.toList, b.2 < 2 ^ 32) (hgt : 10000 ≤ shareSum m) :
    creditSum (credits 10000 m.toList) = shareSum m := by
  have hleft : ¬0 < rewardLeft 10000 m.toList := by
    rw [rewardLeft_full h]
    omega
  have he := rewardLeft_full h
  rw [rewardLeft] at he
  rw [credits, leftCredit, if_neg hleft, List.append_nil, creditSum, List.map_map]
  simp only [Function.comp_def]
  omega

theorem updateCultivation_rewarded {seed : ℕ} :
    (updateCultivation hash cult seed).run (rewarded s cult m) =
      .ok ⟨⟩ (rewarded s cult m) := by
  refine bind_ok.mpr ⟨_, _, getCultivation_ok.mpr ⟨rewarded_cultivation, rfl⟩, ?_⟩
  refine bind_ok.mpr ⟨⟨⟩, _, require_ok.mpr ⟨(by decide : 0 ≠ maximum), rfl⟩, ?_⟩
  refine bind_ok.mpr ⟨_, _, rfl, bind_ok.mpr ⟨⟨⟩, _, require_ok.mpr ⟨Nat.zero_le _, rfl⟩, ?_⟩⟩
  have hn : ¬(fullCultivation s m).lastUpdateTime < (rewarded s cult m).props.headBlockNumber :=
    lt_irrefl _
  rw [if_neg hn]
  rfl

/-- The credits are paid whatever they come to. -/
theorem stopCultivation_rewarded (h : Accepted s m) (seed : ℕ) :
    ∃ t, (stopCultivation hash cult seed).run (rewarded s cult m) = .ok ⟨⟩ t := by
  have hb : Backed (rewarded s cult m) (fullCultivation s m) fullFund := by
    refine ⟨fun p hp ↦ (nomatch hp), h.exist, fun hnil ↦ ?_, rewarded_fund, fun b hb ↦ ?_⟩
    · have hsum := h.sum
      change m.toList = [] at hnil
      rw [shareSum, hnil] at hsum
      cases hsum
    · have hlt := h.small b hb
      change (10000 : ℤ) * b.2 < 2 ^ 63
      omega
  obtain ⟨t, ht, -⟩ := stopCultivation_spec updateCultivation_rewarded rewarded_cultivation hb
  exact ⟨t, ht⟩

end Overpaid

/-- The shares that pass the checks pay the reward exactly, whatever it is, if and only if they
come to 100 percent without being cut to 32 bits. -/
theorem createCultivation_exact_iff {hash : ℕ → ℕ} {caller cult managerNfa prepareTime : ℕ}
    {entries : List (ℕ × ℤ)} {s t : State} {u : Unit}
    (h : (createCultivation caller cult managerNfa entries prepareTime).run s = .ok u t) :
    StopsExactly hash cult (beneficiaryMap entries) ↔ shareSum (beneficiaryMap entries) = 10000 := by
  have hacc := accepted_of_create h
  constructor
  · intro hexact
    have hsum := hacc.sum
    have hge : 10000 ≤ shareSum (beneficiaryMap entries) := by omega
    obtain ⟨q, hq⟩ : ∃ q, (stopCultivation hash cult 0).run (rewarded s cult _) = .ok ⟨⟩ q :=
      stopCultivation_rewarded hacc 0
    have hsettled := hexact 0 (rewarded s cult (beneficiaryMap entries)) q _ _
      rewarded_cultivation rfl inRange_rewarded hq
    obtain ⟨r, c, hu, hc, hb⟩ := stopCultivation_book hq
    cases hu.symm.trans updateCultivation_rewarded
    cases hc.symm.trans rewarded_cultivation
    have hpay : payable (rewarded s cult (beneficiaryMap entries))
        (fullCultivation s (beneficiaryMap entries)) = 10000 := by
      simp [payable, fundQi, rewarded_fund, fullFund, fullCultivation]
    rw [hpay, if_pos (by decide)] at hb
    have htotal := congrArg (fun b ↦ b.2.1) hb
    have hfund := congrArg (fun b ↦ b.2.2) hb
    simp only [book, booked, Prod.mk_add_mk, add_zero, zero_add] at htotal hfund
    have hcs := creditSum_full hacc.small hge
    have hcredited := hsettled.credited
    change _ = _ + creditSum (credits 10000 (beneficiaryMap entries).toList) at htotal
    omega
  · intro hsum seed s' t' u' c hc hm hr hrun
    exact settled_of_shareSum hrun hc hr (hm ▸ hsum)

theorem createCultivation_exact_whole :
    StopsExactly (fun _ ↦ 5000) 0 (beneficiaryMap [(0, 10000)]) ↔
      shareSum (beneficiaryMap [(0, 10000)]) = 10000 := by
  obtain ⟨_, _, h⟩ := ok_of_succeeds (x := createCultivation 2 0 0 [(0, 10000)] 20)
    (s := genesis 0 0) (by decide +kernel)
  exact createCultivation_exact_iff h

/-- Two shares that are 2 ^ 32 - 1 when cut to 32 bits, and one that makes up both sums. -/
def mintingRun : List Action :=
  [.contract (.createNfa 1 2 0 true), .contract (.createNfa 2 2 0 true),
    .outside (.createActor 0), .outside (.createZone 0 1), .outside (.settleActor 0 0),
    .routine .processFunds, .contract (.depositByContract 2 2 0 100 .qi),
    .contract (.createCultivation 2 0 0 [(0, 2 ^ 63 - 1), (1, 2 ^ 63 - 1), (2, 10002)] 20),
    .contract (.participateCultivation 2 0 0 100), .contract (.startCultivation 2 0),
    .outside (.headBlock 201600 1762840800 2 0)]

/-- A reward of 50 pays out more than 40 million. -/
theorem wrapped_shares_mint :
    ∃ s t, Reaches (fun _ ↦ 5000) (fun _ _ ↦ True) (genesis 0 100000000) s ∧
      (stopCultivation (fun _ ↦ 5000) 0 0).run s = .ok ⟨⟩ t ∧
        ¬Settled s t (computedReward (fun _ ↦ 5000) 0 0 s) := by
  have h : (match runActions (fun _ ↦ 5000) (genesis 0 100000000) mintingRun with
      | some s => match (stopCultivation (fun _ ↦ 5000) 0 0).run s with
        | .ok _ t => decide (totalWorth t - totalWorth s = 42949672 + (fundQi s - fundQi t))
        | .error _ _ => false
      | none => false) = true := by
    decide +kernel
  split at h
  · next s hs =>
    split at h
    · next t ht =>
      refine ⟨s, t, reaches_of_runActions hs, ht, fun hset ↦ ?_⟩
      have hc := hset.credited
      have h := of_decide_eq_true h
      omega
    · cases h
  · cases h

end Taiyi.Ledger
