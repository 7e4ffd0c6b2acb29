import Taiyi.Ledger.Beneficiaries
import Taiyi.Ledger.Conserved
import Taiyi.Ledger.Sound

set_option autoImplicit false

namespace Taiyi.Ledger

open Library.IdMap Library.Frame Library.Meter Library.Outcome

variable {w : Weights} {k : ℤ}

section Cultivations

variable {hash : ℕ → ℕ} {s t r : State} {u : Unit} {caller cult seed : ℕ} {c : Cultivation}
  {rv v : ℤ} {ps : List ℕ} {shares : List (ℕ × ℕ)}

theorem weigh_returnQi (hw : w.Fair k) (h : (returnQi ps).run s = .ok v t) :
    0 ≤ v ∧ w.weigh t = w.weigh s + (w.totalQi - w.pendingCultivationQi) * v := by
  induction ps generalizing s v with
  | nil =>
    cases h
    exact ⟨le_rfl, by ring⟩
  | cons p ps ih =>
    obtain ⟨n, s₁, hn, h₁⟩ := bind_ok.mp h
    obtain ⟨hn, rfl⟩ := getNfa_ok.mp hn
    obtain ⟨_, s₂, hput, h₂⟩ := bind_ok.mp h₁
    obtain ⟨m, hm, rfl⟩ := modifyIn_ok.mp hput
    cases hn.symm.trans hm
    obtain ⟨rest, s₃, hrest, h₃⟩ := bind_ok.mp h₂
    cases h₃
    obtain ⟨hpos, hweigh⟩ := ih hrest
    refine ⟨add_nonneg (Int.natCast_nonneg _) hpos, ?_⟩
    rw [hweigh]
    simp only [Weights.weigh, rowSum_insert _ hn, Weights.ofNfa, Purse.dot_add, Purse.get, hw.nfa,
      hw.qi, hw.cultivation]
    push_cast
    ring

/-- What the participants get back is free QI again. -/
theorem shifts_dissolve (hw : w.Fair k) : Shifts w.weigh (dissolveCultivation cult) 0 := by
  intro s u t h
  obtain ⟨c, s₁, hc, h₁⟩ := bind_ok.mp h
  obtain ⟨-, rfl⟩ := getCultivation_ok.mp hc
  obtain ⟨total, s₂, hreturn, h₂⟩ := bind_ok.mp h₁
  obtain ⟨_, s₃, hreset, h₃⟩ := bind_ok.mp h₂
  obtain ⟨hpos, hweigh⟩ := weigh_returnQi hw hreturn
  have hprops : Shifts w.weigh (modifyProps fun p ↦
      { p with
        totalQi := p.totalQi + total
        pendingCultivationQi := p.pendingCultivationQi - total })
      (-(w.totalQi * total - w.pendingCultivationQi * total)) := by
    apply shifts_modifyProps
    intro p
    simp only [Weights.props]
    ring
  have hlast : Shifts w.weigh (if 0 < total then modifyProps fun p ↦
      { p with
        totalQi := p.totalQi + total
        pendingCultivationQi := p.pendingCultivationQi - total } else pure ())
      (-(w.totalQi * total - w.pendingCultivationQi * total)) := by
    refine .ite (fun _ ↦ hprops) fun hnot ↦ .of_eq (.pure _) ?_
    have hzero : total = 0 := by omega
    rw [hzero]
    ring
  have hreset : w.weigh s₃ = w.weigh s₂ := moves_modifyCultivation.ends hreset
  rw [hlast s₃ u t h₃, hreset, hweigh]
  ring

/-- When the parts are not more than the reward, the credits come to the reward. -/
theorem shifts_payBeneficiaries_weigh (hleft : 0 ≤ rewardLeft rv shares) (hne : shares ≠ []) :
    Shifts w.weigh (payBeneficiaries rv shares) (w.nfa.qi * rv) := by
  have hparts : Shifts w.weigh (shares.forM fun b ↦ adjustNfaBalance b.1 (payout rv b.2) .qi)
      (w.nfa.qi * (rv - rewardLeft rv shares)) := by
    refine .of_eq (.forM fun b _ ↦ shifts_adjustNfaBalance) ?_
    rw [List.sum_map_mul_left, rewardLeft, sub_sub_cancel]
    rfl
  refine .of_eq (.bind hparts fun _ ↦ (?_ : Shifts w.weigh _ (w.nfa.qi * rewardLeft rv shares)))
    (by ring)
  refine .ite (fun _ ↦ ?_) fun hnot ↦ ?_
  · rw [List.getLast?_eq_getLast_of_ne_nil hne]
    exact shifts_adjustNfaBalance
  · have hzero : rewardLeft rv shares = 0 := by omega
    exact .of_eq (.pure _) (by rw [hzero, mul_zero])

theorem shifts_payReward_weigh (hw : w.Fair k) (hleft : 0 < rv → 0 ≤ rewardLeft rv shares)
    (hne : shares ≠ []) : Shifts w.weigh (payReward rv shares) 0 := by
  have hfund : Shifts w.weigh (modifyFund cultivationFund fun f ↦
      { f with rewardQiBalance := f.rewardQiBalance - rv }) (-(w.fundQi * rv)) := by
    apply shifts_modifyFund
    intro f
    simp only [Weights.fund]
    ring
  have hprops : Shifts w.weigh (modifyProps fun p ↦
      { p with pendingRewardedQi := p.pendingRewardedQi - rv, totalQi := p.totalQi + rv })
      (-(w.totalQi * rv - w.pendingRewardedQi * rv)) := by
    apply shifts_modifyProps
    intro p
    simp only [Weights.props]
    ring
  refine .ite (fun hpos ↦ ?_) fun _ ↦ .pure _
  refine .of_eq (.bind (shifts_payBeneficiaries_weigh (hleft hpos) hne) fun _ ↦
    .bind hfund fun _ ↦ hprops) ?_
  rw [hw.nfa, hw.qi, hw.fundQi]
  ring

/-- The shares of a cultivation come to the whole reward, and the products of the reward with a
share fit 64 bits. -/
structure Divides (s : State) (c : Cultivation) : Prop where
  shares : shareSum c.beneficiaryMap = 10000
  fits : fundQi s * taiyi100Percent < 2 ^ 63

theorem Divides.nonempty (h : Divides s c) : c.beneficiaryMap.toList ≠ [] := by
  intro hnil
  have hsum := h.shares
  rw [shareSum, hnil] at hsum
  cases hsum

theorem Divides.product_lt (h : Divides s c) {b : ℕ × ℕ} (hb : b ∈ c.beneficiaryMap.toList)
    (hrv : 0 ≤ rv) (hle : rv ≤ fundQi s) : rv * b.2 < 2 ^ 63 := by
  have hshare : b.2 ≤ shareSum c.beneficiaryMap :=
    List.single_le_sum (fun _ _ ↦ Nat.zero_le _) _ (List.mem_map_of_mem hb)
  rw [h.shares] at hshare
  have hshare : (b.2 : ℤ) ≤ taiyi100Percent := Int.ofNat_le.mpr hshare
  calc rv * b.2 ≤ rv * taiyi100Percent := Int.mul_le_mul_of_nonneg_left hshare hrv
    _ ≤ fundQi s * taiyi100Percent := Int.mul_le_mul_of_nonneg_right hle (by decide)
    _ < 2 ^ 63 := h.fits

theorem fundQi_of {f : RewardFund} (hf : s.funds[cultivationFund]? = some f) :
    fundQi s = f.rewardQiBalance := by
  rw [fundQi, hf]
  rfl

theorem weigh_stopCultivation (hw : w.Fair k) (hs : s.cultivations[cult]? = some c)
    (hd : Divides s c) (h : (stopCultivation hash cult seed).run s = .ok u t) :
    w.weigh t = w.weigh s := by
  obtain ⟨⟨⟩, r, hu, h₁⟩ := bind_ok.mp h
  obtain ⟨c', r', hc, h₂⟩ := bind_ok.mp h₁
  obtain ⟨hc, rfl⟩ := getCultivation_ok.mp hc
  obtain ⟨f, r'', hf, h₃⟩ := bind_ok.mp (after_get h₂)
  obtain ⟨hf, rfl⟩ := lookup_ok.mp hf
  obtain ⟨⟨⟩, q, hpay, hdissolve⟩ := bind_ok.mp h₃
  obtain ⟨c'', hc'', hmap, -⟩ := cultivation_after_update hu hs
  cases hc.symm.trans hc''
  have hfund : f.rewardQiBalance = fundQi s := by
    rw [← fundQi_of hf]
    exact congrArg (fun b ↦ b.2.2) (book_updateCultivation hu)
  rw [hmap] at hpay
  generalize hrv : (if f.rewardQiBalance < c'.qiAccumulated then f.rewardQiBalance
    else c'.qiAccumulated) = rv at hpay
  have hle : rv ≤ fundQi s := by
    rw [← hrv]
    split <;> omega
  have hleft : 0 < rv → 0 ≤ rewardLeft rv c.beneficiaryMap.toList := fun hpos ↦
    rewardLeft_nonneg hpos.le
      ((Int.mul_le_mul_of_nonneg_right hle (by decide)).trans_lt hd.fits) hd.shares
  rw [(shifts_dissolve hw).of_eq rfl q u t hdissolve,
    shifts_payReward_weigh hw hleft hd.nonempty _ _ q hpay, add_zero, add_zero]
  exact moves_update.ends hu

theorem Sound.backed (hs : Sound s) (hc : s.cultivations[cult]? = some c) (hd : Divides s c) :
    ∃ f, Backed s c f := by
  obtain ⟨f, hf⟩ := Option.isSome_iff_exists.mp hs.fund
  have hk := hs.kept cult c hc
  refine ⟨f, hk.participants, hk.beneficiaries, hk.nonempty, hf, fun b hb ↦ ?_⟩
  have hfund := fundQi_of hf
  rcases le_or_gt 0 f.rewardQiBalance with hpos | hneg
  · exact hd.product_lt hb hpos hfund.ge
  · have := mul_nonpos_of_nonpos_of_nonneg hneg.le (Int.natCast_nonneg b.2)
    omega

theorem same_stop (hw : w.Fair k) (hs : Sound s) (hc : s.cultivations[cult]? = some c)
    (hd : Divides s c) : Same w.weigh s (after (stopCultivation hash cult seed) s) := by
  cases hu : (updateCultivation hash cult seed).run s with
  | error e r =>
    rw [stopCultivation, after_bind_error hu]
    exact after_error hu ▸ moves_update s
  | ok _ r =>
    obtain ⟨f, hb⟩ := hs.backed hc hd
    obtain ⟨t, ht, -⟩ := stopCultivation_spec hu hc hb
    rw [after_ok ht]
    exact weigh_stopCultivation hw hc hd ht

theorem moves_remove : Moves (Same w.weigh) (removeCultivation cult) := .update fun _ ↦ rfl

theorem same_stopAndClose (hw : w.Fair k) (hs : Sound s)
    (h : ∀ c, s.cultivations[cult]? = some c → c.startTime ≠ maximum → Divides s c) :
    Same w.weigh s (after (stopAndCloseCultivation hash caller cult seed) s) := by
  refine Moves.read_at moves_getCultivation fun c hc ↦ ?_
  refine Moves.read_at moves_requireOperator fun _ _ ↦ ?_
  have hc := (getCultivation_ok.mp hc).1
  split
  · next hstarted =>
    exact Moves.bind_at (same_stop hw hs hc (h c hc hstarted)) fun _ t _ ↦ moves_remove t
  · obtain ⟨t, ht, -⟩ := dissolveCultivation_spec hc (hs.kept cult c hc).participants
    exact Moves.bind_at (same_of_ok (shifts_dissolve hw) ⟨t, ht⟩) fun _ t _ ↦ moves_remove t

/-- What a stop leaves: the cultivation dissolved, and no more in the fund than before. -/
theorem stopCultivation_leaves (hs : Sound s) (hc : s.cultivations[cult]? = some c)
    (hd : Divides s c) (h : (stopCultivation hash cult seed).run s = .ok u t) :
    t.cultivations = s.cultivations.insert cult c.dissolved ∧
      t.props.headBlockNumber = s.props.headBlockNumber ∧ fundQi t ≤ fundQi s := by
  obtain ⟨r, c', hu, -, hbook⟩ := stopCultivation_book h
  obtain ⟨f, hb⟩ := hs.backed hc hd
  obtain ⟨t', ht', hworld, hcult⟩ := stopCultivation_spec hu hc hb
  cases ht'.symm.trans h
  refine ⟨hcult, head_of_world hworld, ?_⟩
  have hfund := congrArg (fun b ↦ b.2.2) hbook
  split at hfund
  · simp only [book, booked, Prod.mk_add_mk, zero_add] at hfund
    omega
  · exact (hfund.trans (add_zero _)).le

/-- Every cultivation that is beyond its time divides its reward. -/
def Settles (s : State) : Prop :=
  ∀ (cult : ℕ) (c : Cultivation), s.cultivations[cult]? = some c →
    c.expired s.props.headBlockNumber → Divides s c

theorem Settles.mono (hs : Settles s) (hhead : t.props.headBlockNumber = s.props.headBlockNumber)
    (hfund : fundQi t ≤ fundQi s) (h : ∀ (b : ℕ) (d : Cultivation), t.cultivations[b]? = some d →
      d.startTime = maximum ∨ s.cultivations[b]? = some d) : Settles t := by
  intro b d hd he
  rw [hhead] at he
  obtain ⟨hshares, hfits⟩ := hs b d ((h b d hd).resolve_left he.1) he
  exact ⟨hshares, (Int.mul_le_mul_of_nonneg_right hfund (by decide)).trans_lt hfits⟩

theorem weigh_stopExpired (hw : w.Fair k) {turns : ℕ} {iter : Option (ℕ × Cultivation)} {l : List ℕ}
    (hs : Sound s) (hd : Settles s)
    (hiter : ∀ row, iter = some row → s.cultivations[row.1]? = some row.2)
    (h : (stopExpired hash seed turns iter).run s = .ok l t) : w.weigh t = w.weigh s := by
  induction turns generalizing s iter l with
  | zero =>
    cases h
    rfl
  | succ turns ih =>
    cases iter with
    | none =>
      cases h
      rfl
    | some row =>
      obtain ⟨cult, c⟩ := row
      have hc := hiter _ rfl
      replace h := after_get h
      dsimp only at h
      split at h
      · cases h
        rfl
      · next hexpired =>
        have he : c.expired s.props.headBlockNumber := by
          unfold Cultivation.expired
          omega
        obtain ⟨_, s₁, hstop, h₁⟩ := bind_ok.mp h
        obtain ⟨rest, s₂, hrest, h₂⟩ := bind_ok.mp (after_get h₁)
        cases h₂
        obtain ⟨hcult, hhead, hfund⟩ := stopCultivation_leaves hs hc (hd cult c hc he) hstop
        have hd₁ : Settles s₁ := hd.mono hhead hfund fun b d hbd ↦ by
          rw [hcult, getElem?_insert] at hbd
          split at hbd
          · cases hbd
            exact .inl rfl
          · exact .inr hbd
        refine (ih (sound_stop.ends hstop hs) hd₁ (fun row hrow ↦ ?_) hrest).trans
          (weigh_stopCultivation hw hc (hd cult c hc he) hstop)
        obtain ⟨d, -, hd⟩ := Option.bind_eq_some_iff.mp hrow
        have hmem := List.mem_of_mem_filter (firstStarted_mem hd)
        exact (mem_toList _ _ _).mp hmem

theorem weigh_clean (hw : w.Fair k) (hs : Sound s) (hd : Settles s)
    (h : (cleanCultivations hash seed).run s = .ok u t) : w.weigh t = w.weigh s := by
  obtain ⟨_, s₁, hlate, h₁⟩ := bind_ok.mp (after_get h)
  obtain ⟨stopped, s₂, hstopped, h₂⟩ := bind_ok.mp (after_get h₁)
  obtain ⟨t', ht', hworld, hfunds, hget⟩ := dissolve_overdue hs
  cases ht'.symm.trans hlate
  have hfund : fundQi s₁ = fundQi s := by rw [fundQi, fundQi, hfunds]
  have hd₁ : Settles s₁ := hd.mono (head_of_world hworld) hfund.le fun b d hbd ↦ by
    obtain ⟨c, hc, hstart, heq⟩ := startTime_dissolved hget hbd
    by_cases hm : d.startTime = maximum
    · exact .inl hm
    · exact .inr (heq hm ▸ hc)
  have hsound : Sound s₁ := (Moves.forM fun _ _ ↦ sound_dissolve : Moves (Holds Sound)
    ((overdue s).forM dissolveCultivation)).ends hlate hs
  have hremoved : Moves (Same w.weigh) ((overdue s ++ stopped).forM removeCultivation) :=
    .forM fun _ _ ↦ moves_remove
  have hdissolved : Shifts w.weigh ((overdue s).forM dissolveCultivation) 0 :=
    .forM_zero fun _ _ ↦ shifts_dissolve hw
  calc w.weigh t = w.weigh s₂ := hremoved.ends h₂
    _ = w.weigh s₁ := weigh_stopExpired hw hsound hd₁ (fun _ hrow ↦ first_mem hrow) hstopped
    _ = w.weigh s := (hdissolved s _ s₁ hlate).trans (add_zero _)

end Cultivations

section Routines

variable {s t : State} {u : Unit} {a b n : ℕ} {qi : ℤ}

theorem moves_declineAccount : Moves (Same w.weigh) (declineAccount a) :=
  .bind moves_getAccount fun _ ↦ .bind moves_adjustProxiedArray fun _ ↦
    .bind (moves_modifyAccount fun _ ↦ rfl) fun _ ↦ .bind (moves_modifyAccount fun _ ↦ rfl) fun _ ↦
    .update fun _ ↦ rfl

theorem shifts_payDebt (hw : w.Fair k) : Shifts w.weigh (payDebt n b) 0 := by
  refine .read shifts_getNfa fun _ ↦ .read shifts_require fun _ ↦
    .read (shifts_rewardFeigangFromNfa hw) fun _ ↦ shifts_modifyNfa fun _ ↦ ?_
  exact (add_zero _).symm

theorem shifts_chargeTick (hw : w.Fair k) {contract : ℕ} {drops points : ℤ} {fail : Bool} :
    Shifts w.weigh (chargeTick n contract b drops points fail) 0 := by
  have hlast : ∀ {c : Prop} [Decidable c] {f : Nfa → Nfa}, (∀ m, w.ofNfa (f m) = w.ofNfa m) →
      Shifts w.weigh (if c then modifyNfa n f else pure ()) 0 := fun hf ↦
    .ite (fun _ ↦ (moves_modifyNfa_weigh hf).keeps.shifts) fun _ ↦ .pure _
  have hcharge : ∀ {a : ℕ} {f : ℤ}, Shifts w.weigh (rewardFeigangFromNfa a n f) 0 :=
    shifts_rewardFeigangFromNfa hw
  refine .read shifts_getNfa fun _ ↦ .ite (fun _ ↦ ?_) fun _ ↦ .ite (fun _ ↦ ?_) fun _ ↦
    hlast fun _ ↦ rfl
  · exact .read hcharge fun _ ↦ .ite (fun _ ↦ .read hcharge fun _ ↦ hlast fun _ ↦ rfl)
      fun _ ↦ hlast fun _ ↦ rfl
  · exact .read hcharge fun _ ↦ hlast fun _ ↦ rfl

/-- A charge takes from the account what it is for. -/
theorem qi_rewardFeigang (h : (rewardFeigang b a (.value qi)).run s = .ok u t) :
    0 < qi ∧ (t.account a).assets.qi = (s.account a).assets.qi - qi := by
  have hset : ∀ {p : ℕ} {f : Account → Account}, (∀ acc, (f acc).assets = acc.assets) →
      Moves (Same fun s : State ↦ (s.account a).assets.qi) (modifyAccount p f) := fun hf ↦
    moves_modifyIn fun s acc hacc ↦ by
      change (State.account _ a).assets.qi = _
      rw [account_insert hacc rfl]
      split
      · rw [hf]
      · rfl
  have hadore : ∀ d, Moves (Same fun s : State ↦ (s.account a).assets.qi)
      (adjustProxiedSimingAdores a d) := fun d ↦
    moves_propagate (fun _ _ ↦ hset fun _ ↦ rfl) fun _ _ ↦ moves_modifyIn fun _ _ _ ↦ rfl
  have hreward : Moves (Same fun s : State ↦ (s.account a).assets.qi)
      (modifyRewardBalance b 0 0 qi false) :=
    .bind moves_getAccount fun _ ↦ .bind moves_require fun _ ↦ .bind moves_require fun _ ↦
      hset fun _ ↦ rfl
  unfold rewardFeigang at h
  simp only [AssetRef.read, pure_bind] at h
  obtain ⟨hpos, h₁⟩ := after_require h
  obtain ⟨_, s₁, hdebit, h₂⟩ := bind_ok.mp h₁
  obtain ⟨_, s₂, hproxied, h₃⟩ := bind_ok.mp h₂
  obtain ⟨_, s₃, hcredit, h₄⟩ := bind_ok.mp h₃
  cases h₄
  have hread : (s₃.account a).assets.qi = (s₁.account a).assets.qi :=
    (hreward.ends hcredit).trans ((hadore _).ends hproxied)
  obtain ⟨_, _, hget, h₅⟩ := bind_ok.mp hdebit
  obtain ⟨-, rfl⟩ := getBalance_ok.mp hget
  obtain ⟨_, _, hget', h₆⟩ := bind_ok.mp (after_require h₅).2
  obtain ⟨-, rfl⟩ := getBalance_ok.mp hget'
  have hwritten := (modifyAccount_ok (after_require h₆).2).1 a
  rw [if_pos rfl] at hwritten
  refine ⟨hpos, hread.trans ?_⟩
  rw [hwritten]
  exact Int.sub_eq_add_neg.symm

/-- The treasury can pay both charges of a proposal, or is empty when it cannot pay one. -/
def Affords (s : State) (drops points : ℤ) : Prop :=
  let qi := (s.account taiyiDaoAccount).assets.qi
  let used := drops - forTreasury drops
  qi = 0 ∨ used ≤ qi ∧ (qi = used ∨ 50 + points + forTreasury drops ≤ qi - used)

theorem chargeOrDrain_empty {payee owner : ℕ} (hzero : (s.account taiyiDaoAccount).assets.qi = 0)
    (h : (chargeOrDrain payee owner qi).run s = .ok u t) : t = s := by
  obtain ⟨v, s₁, hv, h₁⟩ := bind_ok.mp h
  obtain rfl := account_of_getBalance hv
  obtain ⟨-, rfl⟩ := getBalance_ok.mp hv
  split at h₁
  · next hle =>
    have hpos := (qi_rewardFeigang h₁).1
    omega
  · split at h₁
    · omega
    · cases h₁
      rfl

theorem chargeOrDrain_pays (hw : w.Fair k) {payee owner : ℕ}
    (hle : qi ≤ (s.account taiyiDaoAccount).assets.qi)
    (h : (chargeOrDrain payee owner qi).run s = .ok u t) :
    w.weigh t = w.weigh s ∧
      (t.account taiyiDaoAccount).assets.qi = (s.account taiyiDaoAccount).assets.qi - qi := by
  obtain ⟨v, s₁, hv, h₁⟩ := bind_ok.mp h
  obtain rfl := account_of_getBalance hv
  obtain ⟨-, rfl⟩ := getBalance_ok.mp hv
  rw [if_pos hle] at h₁
  exact ⟨(shifts_rewardFeigang hw _ _ t h₁).trans (add_zero _), (qi_rewardFeigang h₁).2⟩

theorem weigh_chargeProposal (hw : w.Fair k) {owner : ℕ} {drops points : ℤ}
    (ha : Affords s drops points) (h : (chargeProposal owner drops points).run s = .ok u t) :
    w.weigh t = w.weigh s := by
  obtain ⟨_, s₁, hfirst, hsecond⟩ := bind_ok.mp h
  unfold Affords at ha
  dsimp only at ha
  rcases ha with hzero | ⟨hle, hrest⟩
  · obtain rfl := chargeOrDrain_empty hzero hfirst
    rw [chargeOrDrain_empty hzero hsecond]
  · obtain ⟨hweigh, hqi⟩ := chargeOrDrain_pays hw hle hfirst
    rcases hrest with hall | hrest
    · rw [chargeOrDrain_empty (by omega) hsecond, hweigh]
    · rw [(chargeOrDrain_pays hw (by omega) hsecond).1, hweigh]

end Routines

section Steps

variable {hash : ℕ → ℕ} {s t : State}

/-- The calls of a contract that take from one place what they may then fail to put into another:
an account's adores have to come down with its QI, an NFA has to have the object its material is
kept in, and the shares of a cultivation have to divide its reward. -/
def ContractCall.Regular (s : State) : ContractCall → Prop
  | .depositByContract _ a _ amount symbol =>
    symbol = .qi → 0 < amount → amount ≤ (s.account a).assets.qi → Unwinds s a amount
  | .chargeInCall payee payer usedQi =>
    0 < usedQi → usedQi ≤ (s.account payer).assets.qi → payee ∈ s.accounts ∧ Unwinds s payer usedQi
  | .injectMaterial _ _ n amount _ => 0 < amount → ∀ v, s.nfas[n]? = some v → v.hasMaterial = true
  | .stopAndCloseCultivation _ cult _ =>
    ∀ c, s.cultivations[cult]? = some c → c.startTime ≠ maximum → Divides s c
  | _ => True

def Routine.Regular (s : State) : Routine → Prop
  | .cleanCultivations _ => Settles s
  | .chargeProposal _ drops points => Affords s drops points
  | _ => True

/-- The condition on a step under which nothing is lost or made by it. -/
def Action.Regular (s : State) : Action → Prop
  | .contract c => c.Regular s
  | .routine r => r.Regular s
  | _ => True

theorem same_call (hw : w.Fair k) (hs : Solvent s) (hsound : Sound s) {c : ContractCall}
    (hc : c.Regular s) : Same w.weigh s (after (c.apply hash) s) := by
  cases c with
  | transferByContract => exact same_transferByContract hs
  | transferNfaByContract => exact same_transferNfaByContract hs
  | withdrawByContract => exact same_withdrawByContract hw hs
  | depositByContract => exact same_depositByContract hw hs hc
  | convertQiToResource => exact same_convertQiToResource hw hs
  | convertResourceToQi => exact same_convertResourceToQi hw hs
  | injectMaterial => exact same_injectMaterial hw hc
  | separateMaterial => exact same_separateMaterial hw hs
  | takeQi => exact same_takeQi hw hs
  | chargeInCall => exact same_chargeInCall hw hs hc
  | consumeMaterial => exact same_consumeNfaMaterialRandom hw hs
  | createNfa => exact moves_createNfa s
  | createCultivation => exact moves_createCultivation s
  | participateCultivation => exact same_participate hw
  | startCultivation => exact moves_start s
  | stopAndCloseCultivation => exact same_stopAndClose hw hsound hc
  | updateCultivation =>
    exact (Moves.bind moves_getCultivation fun _ ↦ .bind moves_requireOperator fun _ ↦
      moves_update : Moves (Same w.weigh) _) s

theorem weigh_routine (hw : w.Fair 0) (hs : Solvent s) (hsound : Sound s) {r : Routine}
    (hr : r.Regular s) (h : (r.apply hash).run s = .ok ⟨⟩ t) : w.weigh t = w.weigh s := by
  cases r with
  | processFunds => exact (shifts_processFunds hw s _ t h).trans (add_zero _)
  | processQiWithdrawals =>
    rw [weigh_withdrawFrom hw hs (after_get h), zero_mul, sub_zero]
  | processDeclineAdoringRights =>
    exact (Moves.bind .get fun _ ↦ .forM fun _ _ ↦ moves_declineAccount :
      Moves (Same w.weigh) processDeclineAdoringRights).ends h
  | cleanCultivations => exact weigh_clean hw hsound hr h
  | payDebt => exact (shifts_payDebt hw s _ t h).trans (add_zero _)
  | chargeTick => exact (shifts_chargeTick hw s _ t h).trans (add_zero _)
  | chargeProposal => exact weigh_chargeProposal hw hr h

theorem moves_outside (o : Outside) : Moves (Same w.weigh) o.apply := by
  cases o with
  | headBlock =>
    exact .bind .get fun _ ↦ .bind moves_require fun _ ↦ .update fun _ ↦ rfl
  | changeOwner => exact moves_modifyNfa_weigh fun _ ↦ rfl
  | setTick => exact moves_modifyNfa_weigh fun _ ↦ rfl
  | delegateQi => exact moves_modifyAccount fun _ ↦ rfl
  | createActor => exact .bind moves_getMaterial fun _ ↦ .update fun _ ↦ rfl
  | settleActor =>
    exact .bind .get fun _ ↦ .bind moves_lookup fun _ ↦ moves_modifyIn fun _ _ _ ↦ rfl
  | createZone => exact .bind moves_getMaterial fun _ ↦ .update fun _ ↦ rfl

/-- A regular step leaves every measure as it is in which QI is nowhere worth more than the pool
that counts it. -/
theorem weigh_step (hw : w.Fair 0) (hs : Solvent s) (hsound : Sound s) {act : Action}
    (ha : act.Regular s) (h : act.step hash s = some t) : w.weigh t = w.weigh s := by
  have ht := after_of_step h
  cases act with
  | operation o => exact (shifts_operation hw o s _ t ht).trans (add_zero _)
  | contract c => exact ht ▸ same_call hw hs hsound ha
  | routine r => exact weigh_routine hw hs hsound ha ht
  | outside o => exact (moves_outside o).ends ht

theorem weigh_of_reaches (hw : w.Fair 0) {initSupply initQiSupply : ℕ}
    (h : Reaches hash (fun s act ↦ act.Regular s) (genesis initSupply initQiSupply) s) :
    w.weigh s = w.weigh (genesis initSupply initQiSupply) := by
  induction h with
  | start => rfl
  | step act hreach ha hstep ih =>
    exact (weigh_step hw (solvent_of_reaches hreach) (sound_of_reaches hreach) ha hstep).trans ih

end Steps

section Pools

variable {hash : ℕ → ℕ} {s : State} {initSupply initQiSupply : ℕ}

/-- The pools of the global properties are what the objects hold. -/
structure Pooled (s : State) : Prop where
  qi : s.props.totalQi =
    rowSum (fun _ a ↦ a.assets.qi) s.accounts + rowSum (fun _ n ↦ n.assets.qi) s.nfas
  rewardedQi : s.props.pendingRewardedQi =
    rowSum (fun _ a ↦ a.rewardQi) s.accounts + rowSum (fun _ f ↦ f.rewardQiBalance) s.funds
  rewardedFeigang : s.props.pendingRewardedFeigang = rowSum (fun _ a ↦ a.rewardFeigang) s.accounts
  cultivationQi : s.props.pendingCultivationQi = rowSum (fun _ n ↦ (n.cultivationValue : ℤ)) s.nfas
  resource : ∀ r, s.props.total.get r =
    rowSum (fun _ a ↦ a.assets.stock.get r) s.accounts +
      rowSum (fun _ n ↦ n.assets.stock.get r + n.material.get r) s.nfas

inductive Pool
  | qi | rewardedQi | rewardedFeigang | cultivationQi
  | resource (r : Resource)

/-- What a pool counts, and the pool itself. -/
def Pool.weights : Pool → Weights
  | .qi => { assets := { qi := 1 }, nfa := { qi := 1 }, totalQi := 1 }
  | .rewardedQi => { rewardQi := 1, fundQi := 1, pendingRewardedQi := 1 }
  | .rewardedFeigang => { rewardFeigang := 1, pendingRewardedFeigang := 1 }
  | .cultivationQi => { cultivation := 1, pendingCultivationQi := 1 }
  | .resource r =>
    let unit := ({} : Stock).add 1 r
    { assets := { stock := unit }, nfa := { stock := unit }, material := unit, total := unit }

theorem Stock.dot_unit (r : Resource) (p : Stock) : (({} : Stock).add 1 r).dot p = p.get r := by
  cases r <;> simp [Stock.dot, Stock.add, Stock.get]

theorem fair_pool (p : Pool) : p.weights.Fair 0 := by
  cases p with
  | resource r => constructor <;> first | rfl | (intro r'; rw [mul_zero, add_zero]; rfl)
  | _ => constructor <;> first | rfl | (intro r; cases r <;> rfl)

theorem pooled_of_weigh (h : ∀ p : Pool, p.weights.weigh s = 0) : Pooled s where
  qi := by
    have hq := h .qi
    simp [Weights.weigh, Weights.account, Weights.ofNfa, Weights.fund, Weights.props,
      Pool.weights, Purse.dot, Stock.dot, rowSum_zero] at hq
    omega
  rewardedQi := by
    have hq := h .rewardedQi
    simp [Weights.weigh, Weights.account, Weights.ofNfa, Weights.fund, Weights.props,
      Pool.weights, Purse.dot, Stock.dot, rowSum_zero] at hq
    omega
  rewardedFeigang := by
    have hq := h .rewardedFeigang
    simp [Weights.weigh, Weights.account, Weights.ofNfa, Weights.fund, Weights.props,
      Pool.weights, Purse.dot, Stock.dot, rowSum_zero] at hq
    omega
  cultivationQi := by
    have hq := h .cultivationQi
    simp [Weights.weigh, Weights.account, Weights.ofNfa, Weights.fund, Weights.props,
      Pool.weights, Purse.dot, Stock.dot, rowSum_zero] at hq
    omega
  resource r := by
    have hq := h (.resource r)
    simp [Weights.weigh, Weights.account, Weights.ofNfa, Weights.fund, Weights.props,
      Pool.weights, Purse.dot, Stock.dot_unit, rowSum_zero] at hq
    omega

theorem weigh_genesis {w : Weights} (hw : w.Fair 0) :
    w.weigh (genesis initSupply initQiSupply) = 0 := by
  have hrow : w.account { assets := { yang := initSupply, qi := initQiSupply } } =
      w.totalQi * initQiSupply := by
    simp [Weights.account, Purse.dot, Stock.dot, hw.yang, hw.qi]
  have hprops : w.props (genesis initSupply initQiSupply).props = w.totalQi * initQiSupply := by
    simp [Weights.props, genesis, Stock.dot, hw.supply]
  have hfund : w.fund { percentContentRewards := 10000 } = 0 := by simp [Weights.fund]
  have hnfa : w.ofNfa { ownerAccount := initSiming, activeAccount := danuo } = 0 := by
    simp [Weights.ofNfa, Purse.dot, Stock.dot]
  have haccounts : rowSum (fun _ a ↦ w.account a) (genesis initSupply initQiSupply).accounts =
      w.totalQi * initQiSupply := by
    simp only [genesis]
    repeat rw [rowSum_insert_new _ (by simp [taiyiDaoAccount, danuo, initSiming])]
    rw [hrow, account_empty, rowSum_empty]
    ring
  have hnfas : rowSum (fun _ n ↦ w.ofNfa n) (genesis initSupply initQiSupply).nfas = 0 := by
    simp only [genesis]
    rw [rowSum_insert_new _ (by simp), hnfa, rowSum_empty, add_zero]
  have hfunds : rowSum (fun _ f ↦ w.fund f) (genesis initSupply initQiSupply).funds = 0 := by
    simp only [genesis]
    rw [rowSum_insert_new _ (by simp), hfund, rowSum_empty, add_zero]
  rw [Weights.weigh, haccounts, hnfas, hfunds, hprops]
  ring

end Pools

end Taiyi.Ledger
