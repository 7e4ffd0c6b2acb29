import Taiyi.Ledger.Accrual
import Taiyi.Ledger.Pools

set_option autoImplicit false

namespace Taiyi.Ledger

open Library Library.Meter Library.IdMap Library.Frame Library.Outcome

section Books

variable {s t : State} {caller a b n : ℕ} {delta amount : ℤ} {symbol : Symbol} {u : Unit}

section Room

variable {w : ℕ} {o : Siming} {room : ℤ} {left : ℕ}

/-- No siming has more adores than the accounts have QI. -/
theorem adores_le_qi (h : Tallied s) (hs : Solvent s) (ho : s.simings[w]? = some o) :
    o.adores ≤ rowSum (fun _ acc ↦ acc.assets.qi) s.accounts := by
  have hcount : o.adores = s.count (.siming w) := by
    rw [State.count, State.adored, ho]
    rfl
  rw [hcount, h]
  refine rowSum_le fun a acc hacc ↦ ?_
  have hqi : 0 ≤ acc.assets.qi := (hs.account a acc hacc).assets .qi
  rw [ind]
  split <;> omega

/-- Nor more than there is QI besides what an NFA has. -/
theorem adores_le_totalQi (h : Tallied s) (hs : Solvent s) (hp : Pooled s)
    (ho : s.simings[w]? = some o) {v : Nfa} (hv : s.nfas[n]? = some v) :
    o.adores ≤ s.props.totalQi - v.assets.qi := by
  have haccounts := adores_le_qi h hs ho
  have hothers : 0 ≤ rowSum (fun _ v ↦ v.assets.qi) (s.nfas.erase n) :=
    rowSum_nonneg fun k u hu ↦ by
      rw [getElem?_erase] at hu
      split at hu
      · cases hu
      · exact hs.nfa k u hu .qi
  rw [hp.qi, rowSum_erase (fun _ v ↦ v.assets.qi) hv]
  omega

theorem adores_le_pool (h : Tallied s) (hs : Solvent s) (hp : Pooled s)
    (ho : s.simings[w]? = some o) : o.adores ≤ s.props.totalQi := by
  have haccounts := adores_le_qi h hs ho
  have hnfas : 0 ≤ rowSum (fun _ v ↦ v.assets.qi) s.nfas :=
    rowSum_nonneg fun k v hv ↦ hs.nfa k v hv .qi
  rw [hp.qi]
  omega

/-- A change of adores gets through when there is room for it at every siming. -/
theorem carries_of_room (hl : Linked s)
    (hroom : ∀ (w : ℕ) o, s.simings[w]? = some o → o.adores ≤ room) (ha : a ∈ s.accounts) :
    Checked.Carries (fun _ ↦ True) s room delta left a := by
  have hraises : ∀ {a : ℕ} {acc : Account}, s.accounts[a]? = some acc →
      Checked.Raises (fun _ ↦ True) s room delta acc := by
    intro a acc hacc w hw
    have hat : s.account a = acc := by rw [State.account, hacc, Option.getD_some]
    obtain ⟨o, ho⟩ := (mem_iff_getElem? _ _).mp (hl.simings a w (hat ▸ hw))
    exact ⟨o, ho, trivial, hroom w o ho⟩
  induction left generalizing a with
  | zero =>
    obtain ⟨acc, hacc⟩ := (mem_iff_getElem? _ _).mp ha
    exact ⟨acc, hacc, fun _ ↦ hraises hacc⟩
  | succ left ih =>
    obtain ⟨acc, hacc⟩ := (mem_iff_getElem? _ _).mp ha
    refine ⟨acc, hacc, ?_⟩
    split
    · exact hraises hacc
    · next p hp =>
      have hproxy : s.proxies a = some p := by rw [State.proxies, State.account, hacc]; exact hp
      have hin := hl.proxies a p hproxy
      obtain ⟨b, hb⟩ := (mem_iff_getElem? _ _).mp hin
      exact ⟨⟨b, hb, trivial⟩, ih hin⟩

/-- The adores behind an account can always be lowered. -/
theorem unwinds (h : Audited s) (hs : Solvent s) (hp : Pooled s) (ha : a ∈ s.accounts)
    (hamount : 0 ≤ amount) : Unwinds s a amount :=
  carries_of_room h.linked (fun _ _ ho ↦ (adores_le_pool h.tallied hs hp ho).trans (by omega)) ha

/-- An account that can pay a charge does. -/
theorem rewardFeigang_of (hs : Solvent s) (h : Unwinds s a amount) (hpos : 0 < amount)
    (hle : amount ≤ (s.account a).assets.qi) (hb : b ∈ s.accounts) :
    ∃ t, (rewardFeigang b a (.value amount)).run s = .ok ⟨⟩ t := by
  obtain ⟨t, u, hdebit, hadore, -, hmem, -⟩ := debit_unwinds hs h hle
  obtain ⟨v, hreward⟩ := @modifyRewardBalance_of _ _ 0 0 amount (hmem b hb)
  unfold rewardFeigang
  simp only [AssetRef.read, pure_bind]
  exact ⟨_, bind_ok.mpr ⟨⟨⟩, s, require_of hpos, bind_ok.mpr ⟨⟨⟩, t, hdebit,
    bind_ok.mpr ⟨⟨⟩, u, hadore, bind_ok.mpr ⟨⟨⟩, v, hreward, rfl⟩⟩⟩⟩⟩

/-- After a credit of an account its adores are raised when there is room for them. -/
theorem credit_winds {acc : Account} (hacc : s.accounts[a]? = some acc)
    (h : 0 ≤ acc.assets.qi + amount)
    (hcarries : Checked.Carries (fun _ ↦ True) s (s.props.totalQi - amount) amount
      taiyiMaxProxyRecursionDepth a) :
    ∃ t u, (adjustBalance a amount .qi).run s = .ok ⟨⟩ t ∧
      (adjustProxiedSimingAdores a amount).run t = .ok ⟨⟩ u := by
  have hcredit : (adjustBalance a amount .qi).run s = .ok ⟨⟩ _ := adjustBalance_of hacc h
  have hkept := (Checked.carries_insert (t := { s with
    accounts := s.accounts.insert a { acc with assets := acc.assets.add amount .qi } })
    hacc rfl rfl ⟨rfl, rfl, fun _ _ ↦ rfl⟩).mpr hcarries
  obtain ⟨⟨⟩, u, hadore, -⟩ := (Checked.completes_adjustProxied le_rfl).mpr hkept
  exact ⟨_, u, hcredit, Checked.refines_adjustProxied a amount _ _ _ hadore⟩

/-- The adores of a deposit can always be lowered, and the NFA takes it. -/
theorem deposit_of (h : Audited s) (hs : Solvent s) (hp : Pooled s) (ha : a ∈ s.accounts)
    (hn : n ∈ s.nfas) (hpos : 0 ≤ amount) (hle : amount ≤ (s.account a).assets.qi) :
    ∃ t u v, (adjustBalance a (-amount) .qi).run s = .ok ⟨⟩ t ∧
      (adjustProxiedSimingAdores a (-amount)).run t = .ok ⟨⟩ u ∧
      (adjustNfaBalance n amount .qi).run u = .ok ⟨⟩ v := by
  obtain ⟨t, u, hdebit, hadore, hsolvent, -, hnfas⟩ :=
    debit_unwinds hs (unwinds h hs hp ha hpos) hle
  obtain ⟨v, hcredit⟩ := @credits_nfa _ n _ .qi hsolvent (hnfas ▸ hn) hpos
  exact ⟨t, u, v, hdebit, hadore, hcredit⟩

/-- What an NFA pays out leaves room for the adores of who gets it. -/
theorem withdraw_of (h : Audited s) (hs : Solvent s) (hp : Pooled s) {v : Nfa} {acc : Account}
    (hv : s.nfas[n]? = some v) (hacc : s.accounts[a]? = some acc) (hpos : 0 ≤ amount)
    (hle : amount ≤ v.assets.qi) :
    ∃ t u w, (adjustNfaBalance n (-amount) .qi).run s = .ok ⟨⟩ t ∧
      (adjustBalance a amount .qi).run t = .ok ⟨⟩ u ∧
      (adjustProxiedSimingAdores a amount).run u = .ok ⟨⟩ w := by
  have hqi : 0 ≤ acc.assets.qi := (hs.account a acc hacc).assets .qi
  have hdebit := adjustNfaBalance_of hv (show 0 ≤ v.assets.get .qi + -amount by
    change 0 ≤ v.assets.qi + _
    omega)
  have hroom : ∀ (w : ℕ) o, s.simings[w]? = some o → o.adores ≤ s.props.totalQi - amount :=
    fun w o ho ↦ (adores_le_totalQi h.tallied hs hp ho hv).trans (by omega)
  have hcarries : Checked.Carries (fun _ ↦ True) s (s.props.totalQi - amount) amount
      taiyiMaxProxyRecursionDepth a :=
    carries_of_room h.linked hroom ((mem_iff_getElem? _ _).mpr ⟨acc, hacc⟩)
  obtain ⟨u, w, hcredit, hadore⟩ := credit_winds
    (s := { s with nfas := s.nfas.insert n { v with assets := v.assets.add (-amount) .qi } })
    hacc (by omega) (hcarries.of_alike rfl fun _ acc hacc ↦ ⟨acc, hacc, rfl, rfl, fun _ _ ↦ rfl⟩)
  exact ⟨_, u, w, hdebit, hcredit, hadore⟩

end Room

section Calls

/-- A transfer of QI by a contract is not counted at all. -/
theorem audited_transferByContract (hs : Solvent s)
    (hc : symbol = .qi → amount = 0 ∨ ∀ c, c ∈ s.behind a ↔ c ∈ s.behind b) :
    Holds Audited s (after (transferByContract a b amount symbol) s) := by
  by_cases hsymbol : symbol = .qi
  · subst hsymbol
    refine Moves.read_at moves_require fun _ _ ↦ ?_
    refine Moves.read_at moves_getAccount fun _ hb ↦ ?_
    refine Moves.read_at moves_getBalance fun v hv ↦ ?_
    obtain ⟨⟨acc, hacc, rfl⟩, -⟩ := getBalance_ok.mp hv
    refine Moves.read_at moves_require fun _ hle ↦ ?_
    refine Moves.read_at moves_require fun _ hpos ↦ ?_
    have hle := (require_ok.mp hle).1
    have hdebit := adjustBalance_of hacc (show 0 ≤ acc.assets.get .qi + -amount by omega)
    have hb : b ∈ s.accounts := mem_of_getAccount hb
    obtain ⟨t, hcredit⟩ := @credits_account _ b _ .qi (solvent_adjustBalance.ends hdebit hs)
      ((mem_insert _ _ _ _).mpr (.inr hb)) (require_ok.mp hpos).1
    have hsame : s.counted a amount = s.counted b amount := funext fun c ↦ by
      rcases hc rfl with rfl | hc
      · rw [State.counted, State.counted, zero_mul, zero_mul]
      · simp only [State.counted, ind, hc c]
    refine audited_of_ok (fun _ ↦ .of_eq (.bind accrues_adjustBalance fun _ ↦
      accrues_adjustBalance) ?_) ⟨t, bind_ok.mpr ⟨⟨⟩, _, hdebit, hcredit⟩⟩
    rw [State.counted_neg, neg_neg, hsame, add_neg_cancel]
  · have hevens : Moves Evens (transferByContract a b amount symbol) :=
      .bind moves_require fun _ ↦ .bind moves_getAccount fun _ ↦ .bind moves_getBalance fun _ ↦
        .bind moves_require fun _ ↦ .bind moves_require fun _ ↦
        .bind (evens_adjustBalance hsymbol) fun _ ↦ evens_adjustBalance hsymbol
    exact audited_of_evens hevens s

theorem audited_chargeInCall (h : Audited s) (hs : Solvent s) (hp : Pooled s)
    (hb : 0 < amount → amount ≤ (s.account a).assets.qi → b ∈ s.accounts) :
    Audited (after (chargeInCall b a amount) s) := by
  refine (?_ : Holds Audited s _) h
  refine Moves.read_at moves_getBalance fun v hv ↦ ?_
  obtain ⟨⟨acc, hacc, -⟩, -⟩ := getBalance_ok.mp hv
  obtain rfl := account_of_getBalance hv
  refine Moves.read_at moves_require fun _ hle ↦ ?_
  have hle := (require_ok.mp hle).1
  by_cases hpos : 0 < amount
  · obtain ⟨t, ht⟩ := rewardFeigang_of hs
      (unwinds h hs hp ((mem_iff_getElem? _ _).mpr ⟨acc, hacc⟩) hpos.le) hpos hle (hb hpos hle)
    exact audited_of_ok accrues_rewardFeigang ⟨t, ht⟩
  · -- nothing is charged
    refine Moves.read_at (Moves.pure amount) fun v hv ↦ ?_
    cases hv
    exact Moves.read_at moves_require fun _ hr ↦ absurd (require_ok.mp hr).1 hpos

theorem audited_depositByContract (h : Audited s) (hs : Solvent s) (hp : Pooled s) :
    Audited (after (depositByContract caller a n amount symbol) s) := by
  refine (?_ : Holds Audited s _) h
  refine Moves.read_at moves_require fun _ _ ↦ ?_
  refine Moves.read_at moves_getAccount fun _ ha ↦ ?_
  refine Moves.read_at moves_getNfa fun _ hn ↦ ?_
  refine Moves.read_at moves_getBalance fun _ hv ↦ ?_
  refine Moves.read_at moves_require fun _ hle ↦ ?_
  refine Moves.read_at moves_require fun _ hpos ↦ ?_
  have ha : a ∈ s.accounts := mem_of_getAccount ha
  have hn : n ∈ s.nfas := mem_of_getNfa hn
  have hpos := (require_ok.mp hpos).1
  have hle := (require_ok.mp hle).1
  by_cases hsymbol : symbol = .qi
  · subst hsymbol
    obtain rfl := account_of_getBalance hv
    obtain ⟨t, u, v, hdebit, hadore, hcredit⟩ := deposit_of h hs hp ha hn hpos hle
    refine audited_of_ok (fun hl ↦ .of_eq (.bind accrues_adjustBalance fun _ ↦
      .of_eq (.bind (accrues_adjustProxied hl) fun _ ↦ even frames_nfaBalance) (add_zero _))
      (neg_add_cancel _)) ⟨v, ?_⟩
    exact bind_ok.mpr ⟨⟨⟩, t, hdebit, bind_ok.mpr ⟨⟨⟩, u, hadore, hcredit⟩⟩
  · have hevens : Moves Evens (do
        adjustBalance a (-amount) symbol
        if symbol = .qi then adjustProxiedSimingAdores a (-amount)
        adjustNfaBalance n amount symbol) := by
      simp only [if_neg hsymbol]
      exact .bind (evens_adjustBalance hsymbol) fun _ ↦ frames_nfaBalance
    exact audited_of_evens hevens s

theorem audited_withdrawByContract (h : Audited s) (hs : Solvent s) (hp : Pooled s) :
    Audited (after (withdrawByContract caller n a amount symbol) s) := by
  refine (?_ : Holds Audited s _) h
  by_cases hsymbol : symbol = .qi
  · subst hsymbol
    refine Moves.read_at moves_requireOperator fun _ _ ↦ ?_
    refine Moves.read_at moves_getAccount fun acc hacc ↦ ?_
    refine Moves.read_at moves_getNfaBalance fun _ hbalance ↦ ?_
    obtain ⟨⟨v, hv, rfl⟩, -⟩ := getNfaBalance_ok.mp hbalance
    refine Moves.read_at moves_require fun _ hle ↦ ?_
    refine Moves.read_at moves_require fun _ hpos ↦ ?_
    have hacc := (getAccount_ok.mp hacc).1
    have hpos := (require_ok.mp hpos).1
    have hle : amount ≤ v.assets.qi := (require_ok.mp hle).1
    obtain ⟨t, u, w, hdebit, hcredit, hadore⟩ := withdraw_of h hs hp hv hacc hpos hle
    refine audited_of_ok (fun hl ↦ .read (even frames_nfaBalance) fun _ ↦
      .of_eq (.bind accrues_adjustBalance fun _ ↦ accrues_adjustProxied hl) (neg_add_cancel _))
      ⟨w, bind_ok.mpr ⟨⟨⟩, t, hdebit, bind_ok.mpr ⟨⟨⟩, u, hcredit, hadore⟩⟩⟩
  · have hevens : Moves Evens (withdrawByContract caller n a amount symbol) :=
      .bind moves_requireOperator fun _ ↦ .bind moves_getAccount fun _ ↦
        .bind moves_getNfaBalance fun _ ↦ .bind moves_require fun _ ↦ .bind moves_require fun _ ↦
        .bind frames_nfaBalance fun _ ↦ .bind (evens_adjustBalance hsymbol) fun _ ↦
        .ite (fun he ↦ absurd he hsymbol) fun _ ↦ .pure _
    exact audited_of_evens hevens s

end Calls

section Runs

variable {hash : ℕ → ℕ}

/-- A call of a contract that the adores follow: QI goes from one account to another only where it
counts for the same, and a charge has somebody to go to. -/
def ContractCall.Books (s : State) : ContractCall → Prop
  | .transferByContract a b amount symbol =>
    symbol = .qi → amount = 0 ∨ ∀ c, c ∈ s.behind a ↔ c ∈ s.behind b
  | .chargeInCall payee payer usedQi =>
    0 < usedQi → usedQi ≤ (s.account payer).assets.qi → payee ∈ s.accounts
  | .depositByContract .. => True
  | c => c.Regular s

/-- The condition on a step under which nothing is lost and the adores follow the QI: claimed
Feigang is counted twice, and a treasury that is drained keeps its adores. -/
def Action.Books (s : State) : Action → Prop
  | .operation (.claimRewardBalance a _ _ feigang) => feigang = 0 ∨ s.behind a = []
  | .operation _ => True
  | .contract c => c.Books s
  | .routine (.chargeProposal _ drops points) =>
    s.behind taiyiDaoAccount = [] ∧ Affords s drops points
  | .routine r => r.Regular s
  | .outside _ => True

theorem mem_of_qi_pos (h : 0 < (s.account a).assets.qi) : a ∈ s.accounts := by
  rw [mem_iff_getElem?]
  rw [State.account] at h
  cases ha : s.accounts[a]? with
  | none =>
    rw [ha] at h
    exact absurd h (lt_irrefl 0)
  | some acc => exact ⟨acc, rfl⟩

/-- What else a regular step asks of the adores holds of right books. -/
theorem regular_of_books (h : Audited s) (hs : Solvent s) (hp : Pooled s) {act : Action}
    (ha : act.Books s) : act.Regular s := by
  cases act with
  | operation o => trivial
  | outside o => trivial
  | routine r =>
    cases r with
    | chargeProposal => exact ha.2
    | _ => exact ha
  | contract c =>
    cases c with
    | transferByContract => trivial
    | depositByContract =>
      exact fun _ hpos hle ↦ unwinds h hs hp (mem_of_qi_pos (hpos.trans_le hle)) hpos.le
    | chargeInCall =>
      exact fun hpos hle ↦
        ⟨ha hpos hle, unwinds h hs hp (mem_of_qi_pos (hpos.trans_le hle)) hpos.le⟩
    | _ => exact ha

theorem audited_operation (h : Audited s) (hs : Acyclic s.proxies) {o : Operation}
    (ho : (Action.operation o).Books s) (hrun : o.apply.run s = .ok u t) : Audited t := by
  cases o with
  | accountCreate => exact audited_accountCreate h hrun
  | transfer => exact audited_of_accrues h (accrues_transfer h.linked) hrun
  | transferToQi => exact audited_of_accrues h (accrues_transferToQi h.linked) hrun
  | withdrawQi => exact audited_of_accrues h (accrues_withdrawQi h.linked) hrun
  | setWithdrawQiRoute => exact audited_of_accrues h (even evens_setWithdrawQiRoute) hrun
  | accountSimingProxy => exact audited_accountSimingProxy h hs hrun
  | accountSimingAdore => exact audited_accountSimingAdore h hs hrun
  | simingUpdate => exact audited_simingUpdate h hrun
  | declineAdoringRights => exact audited_of_accrues h (even evens_declineAdoringRights) hrun
  | claimRewardBalance a yang qi feigang =>
    refine audited_of_accrues h (.of_eq (accrues_claimRewardBalance h.linked) ?_) hrun
    rcases ho with rfl | hnone
    · exact funext fun c ↦ zero_mul _
    · exact counted_of_nil hnone
  | createContract => exact audited_of_accrues h (accrues_chargeTreasury h.linked) hrun
  | callContractFunction => exact audited_of_accrues h (accrues_chargeCaller h.linked) hrun

theorem audited_call (h : Audited s) (hs : Solvent s) (hp : Pooled s) {c : ContractCall}
    (hc : c.Books s) : Audited (after (c.apply hash) s) := by
  have hevens : ∀ {x : Call Unit}, Moves Evens x → Audited (after x s) := fun hx ↦
    audited_of_evens hx s h
  cases c with
  | transferByContract => exact audited_transferByContract hs hc h
  | transferNfaByContract => exact hevens evens_transferNfaByContract
  | withdrawByContract => exact audited_withdrawByContract h hs hp
  | depositByContract => exact audited_depositByContract h hs hp
  | convertQiToResource => exact hevens evens_convertQiToResource
  | convertResourceToQi => exact hevens evens_convertResourceToQi
  | injectMaterial => exact hevens evens_injectMaterial
  | separateMaterial => exact hevens evens_separateMaterial
  | takeQi => exact hevens evens_takeQi
  | chargeInCall => exact audited_chargeInCall h hs hp hc
  | consumeMaterial => exact hevens evens_consumeNfaMaterialRandom
  | createNfa => exact hevens frames_createNfa
  | createCultivation => exact hevens frames_createCultivation
  | participateCultivation => exact hevens frames_participate
  | startCultivation => exact hevens frames_start
  | stopAndCloseCultivation => exact hevens frames_stopAndClose
  | updateCultivation =>
    exact hevens (.bind moves_getCultivation fun _ ↦ .bind moves_requireOperator fun _ ↦
      frames_update)

theorem audited_routine (h : Audited s) (hs : Acyclic s.proxies) (hv : Solvent s) {r : Routine}
    (hr : (Action.routine r).Books s) (hrun : (r.apply hash).run s = .ok u t) : Audited t := by
  cases r with
  | processFunds => exact audited_of_accrues h (accrues_processFunds h.linked) hrun
  | processQiWithdrawals => exact audited_withdrawFrom h hv (after_get hrun)
  | processDeclineAdoringRights => exact audited_processDeclineAdoringRights h hs hrun
  | cleanCultivations => exact (audited_of_evens frames_clean).ends hrun h
  | payDebt => exact (audited_of_evens evens_payDebt).ends hrun h
  | chargeTick => exact (audited_of_evens evens_chargeTick).ends hrun h
  | chargeProposal => exact audited_of_accrues h (accrues_chargeProposal h.linked hr.1) hrun

theorem audited_step (h : Audited s) (hs : Acyclic s.proxies) (hv : Solvent s) (hp : Pooled s)
    {act : Action} (ha : act.Books s) (hstep : act.step hash s = some t) : Audited t := by
  have ht := after_of_step hstep
  cases act with
  | operation o => exact audited_operation h hs ha ht
  | contract c => exact ht ▸ audited_call h hv hp ha
  | routine r => exact audited_routine h hs hv ha ht
  | outside o => exact (audited_of_evens (evens_outside o)).ends ht h

section Genesis

variable {initSupply initQiSupply : ℕ}

/-- At first nobody has a proxy, nobody adores and nothing is counted. -/
theorem adoring_genesis (a : ℕ) : (genesis initSupply initQiSupply).adoring a = (none, ∅) ∧
    ((genesis initSupply initQiSupply).account a).proxiedVsfAdores = fun _ ↦ 0 := by
  simp only [State.adoring, State.account, genesis, getElem?_insert]
  repeat' split
  all_goals exact ⟨rfl, rfl⟩

theorem proxies_genesis (a : ℕ) : (genesis initSupply initQiSupply).proxies a = none := by
  rw [proxies_eq, (adoring_genesis a).1]

theorem behind_genesis (a : ℕ) : (genesis initSupply initQiSupply).behind a = [] := by
  rw [State.behind, cells_of_none (proxies_genesis a), (adoring_genesis a).1]
  rfl

theorem count_genesis (c : Cell) : (genesis initSupply initQiSupply).count c = 0 := by
  cases c with
  | proxied a i =>
    have hrow := congrFun (@adoring_genesis initSupply initQiSupply a).2 i
    rw [State.account] at hrow
    rw [State.count, State.adored]
    cases ha : (genesis initSupply initQiSupply).accounts[a]? with
    | none => rfl
    | some acc =>
      rw [ha] at hrow
      exact hrow
  | siming w =>
    simp only [State.count, State.adored, genesis, getElem?_insert]
    split
    · rfl
    · simp

theorem audited_genesis (initSupply initQiSupply : ℕ) :
    Audited (genesis initSupply initQiSupply) := by
  have hproxy : ∀ a p, (genesis initSupply initQiSupply).proxies a ≠ some p := fun a p hp ↦ by
    rw [proxies_genesis] at hp
    cases hp
  refine ⟨fun c ↦ ?_, fun a p hp ↦ absurd hp (hproxy a p), fun a w hw ↦ ?_, fun a p hp ↦
    absurd hp (hproxy a p)⟩
  · rw [count_genesis, State.qiIn, rowSum_eq_zero]
    intro a acc _
    rw [behind_genesis, ind_nil, mul_zero]
  · rw [show ((genesis initSupply initQiSupply).account a).adores = ∅ from
      congrArg Prod.snd (adoring_genesis a).1] at hw
    exact absurd hw Std.ExtTreeSet.not_mem_empty

end Genesis

theorem pooled_of_regular {initSupply initQiSupply : ℕ}
    (h : Reaches hash (fun s act ↦ act.Regular s) (genesis initSupply initQiSupply) s) : Pooled s :=
  pooled_of_weigh fun p ↦ (weigh_of_reaches (fair_pool p) h).trans (weigh_genesis (fair_pool p))

/-- Right books and full pools go together. -/
theorem audited_and_regular {initSupply initQiSupply : ℕ}
    (h : Reaches hash (fun s act ↦ act.Books s) (genesis initSupply initQiSupply) s) :
    Audited s ∧ Reaches hash (fun s act ↦ act.Regular s) (genesis initSupply initQiSupply) s := by
  induction h with
  | start => exact ⟨audited_genesis initSupply initQiSupply, .start⟩
  | step act _ ha hstep ih =>
    obtain ⟨haudited, hregular⟩ := ih
    have hs := solvent_of_reaches hregular
    have hp := pooled_of_regular hregular
    exact ⟨audited_step haudited (acyclic_of_reaches hregular) hs hp ha hstep,
      .step act hregular (regular_of_books haudited hs hp ha) hstep⟩

end Runs

end Books

section Total

variable {s : State} {a b p q left : ℕ} {i : Fin 4} {p? q? : Option ℕ}

/-- What `validate_invariants` adds up of an account. -/
def Account.vsfAdores (a : Account) : ℤ :=
  match a.proxy with
  | none => a.simingAdoreWeight
  | some _ => a.proxiedVsfAdores 3

/-- The last account that the QI of an account gets to. -/
def State.stops (s : State) : ℕ → ℕ → ℕ
  | 0, a => a
  | left + 1, a =>
    match s.proxies a with
    | none => a
    | some p => s.stops left p

theorem stops_of_none (h : s.proxies a = none) : s.stops (left + 1) a = a := by
  rw [State.stops, h]

theorem stops_of_some (h : s.proxies a = some p) : s.stops (left + 1) a = s.stops left p := by
  rw [State.stops, h]

theorem cells_of_some (h : s.proxies a = some p) :
    s.cells (left + 1) a = .proxied p (Checked.hop left) :: s.cells left p := by
  rw [State.cells, ← proxies_eq, h]

theorem stops_mem (hl : Linked s) (ha : a ∈ s.accounts) : s.stops left a ∈ s.accounts := by
  induction left generalizing a with
  | zero => exact ha
  | succ left ih =>
    cases hp : s.proxies a with
    | none => rwa [stops_of_none hp]
    | some p =>
      rw [stops_of_some hp]
      exact ih (hl.proxies a p hp)

theorem ne_of_proxies (ha : s.proxies a = p?) (hb : s.proxies b = q?) (hne : p? ≠ q?) : b ≠ a := by
  rintro rfl
  exact hne (ha.symm.trans hb)

theorem ind_simings {l : List ℕ} : ind (.proxied a i) (l.map .siming) = 0 := if_neg (by simp)

/-- An account without a proxy counts its own QI and what stops at it. -/
theorem ind_of_none (hleft : left ≤ taiyiMaxProxyRecursionDepth) (ha : s.proxies a = none) :
    (if b = a then 1 else 0) + ∑ i, ind (.proxied a i) (s.cells left b) =
      if s.stops left b = a then 1 else 0 := by
  have hsimings : ∀ left b, s.proxies b = none → ∑ i, ind (.proxied a i) (s.cells left b) = 0 :=
    fun left b hb ↦ Finset.sum_eq_zero fun i _ ↦ by rw [cells_of_none hb, ind_simings]
  induction left generalizing b with
  | zero =>
    cases hb : s.proxies b with
    | none => rw [hsimings 0 b hb, add_zero, State.stops]
    | some p =>
      have hcells : s.cells 0 b = [] := by
        rw [State.cells, ← proxies_eq, hb, if_neg (Option.some_ne_none p)]
      simp only [hcells, ind_nil, Finset.sum_const_zero, add_zero, State.stops]
      rfl
  | succ left ih =>
    cases hb : s.proxies b with
    | none => rw [hsimings _ b hb, add_zero, stops_of_none hb]
    | some p =>
      have hne := ne_of_proxies ha hb (Option.some_ne_none p).symm
      have hfirst : ∑ i, ind (.proxied a i) [.proxied p (Checked.hop left)] =
          if p = a then 1 else 0 := by
        by_cases hp : p = a
        · simp [ind, hp]
        · simp [ind, hp, Ne.symm hp]
      simp only [cells_of_some hb, ind_cons (hop_not_mem hleft), Finset.sum_add_distrib, hfirst,
        if_neg hne, zero_add]
      rw [ih (Nat.le_of_succ_le hleft), stops_of_some hb]

/-- An account with a proxy counts what stops at it for want of hops. -/
theorem ind_of_some (hleft : left + 1 ≤ taiyiMaxProxyRecursionDepth) (ha : s.proxies a = some q) :
    ind (.proxied a 3) (s.cells (left + 1) b) = if s.stops (left + 1) b = a then 1 else 0 := by
  induction left generalizing b with
  | zero =>
    cases hb : s.proxies b with
    | none =>
      have hne := ne_of_proxies ha hb (Option.some_ne_none q)
      rw [cells_of_none hb, ind_simings, stops_of_none hb, if_neg hne]
    | some p =>
      have hlast : ind (.proxied a 3) (s.cells 0 p) = 0 := if_neg fun hmem ↦ by
        have := hop_lt_of_mem (Nat.zero_le _) hmem
        simp [taiyiMaxProxyRecursionDepth] at this
      rw [cells_of_some hb, ind_cons (hop_not_mem hleft), hlast, add_zero, stops_of_some hb,
        State.stops]
      by_cases hp : p = a
      · simp [ind, hp, Checked.hop, taiyiMaxProxyRecursionDepth]
      · simp [ind, hp, Ne.symm hp]
  | succ left ih =>
    cases hb : s.proxies b with
    | none =>
      have hne := ne_of_proxies ha hb (Option.some_ne_none q)
      rw [cells_of_none hb, ind_simings, stops_of_none hb, if_neg hne]
    | some p =>
      have hearly : ind (.proxied a 3) [.proxied p (Checked.hop (left + 1))] = 0 := by
        refine if_neg fun hmem ↦ ?_
        have he := (Cell.proxied.inj (List.mem_singleton.mp hmem)).2
        have := congrArg Fin.val he
        simp [Checked.hop, taiyiMaxProxyRecursionDepth] at this
        omega
      rw [cells_of_some hb, ind_cons (hop_not_mem hleft), hearly, zero_add,
        ih (Nat.le_of_succ_le hleft), stops_of_some hb]

/-- What is added up of an account is the QI that stops at it. -/
theorem vsfAdores_eq (h : Tallied s) {acc : Account} (hacc : s.accounts[a]? = some acc) :
    acc.vsfAdores = rowSum (fun b v ↦ if s.stops taiyiMaxProxyRecursionDepth b = a then
      v.assets.qi else 0) s.accounts := by
  have hat : s.account a = acc := by rw [State.account, hacc, Option.getD_some]
  have hproxied : ∀ i, acc.proxiedVsfAdores i = s.qiIn s.behind (.proxied a i) := fun i ↦ by
    rw [← hat, h.proxied]
  have hproxy : s.proxies a = acc.proxy := congrArg Account.proxy hat
  unfold Account.vsfAdores
  cases hp : acc.proxy with
  | none =>
    have hown : acc.assets.qi = rowSum (fun b v ↦ if b = a then v.assets.qi else 0) s.accounts := by
      rw [rowSum_single, account_qi, hat]
    simp only [Account.simingAdoreWeight]
    rw [hown, Finset.sum_congr rfl fun i _ ↦ hproxied i]
    simp only [State.qiIn]
    rw [← rowSum_sum, ← rowSum_add]
    congr 1
    funext b v
    have hboole : ∀ k : ℕ, (if k = a then v.assets.qi else 0) =
        v.assets.qi * if k = a then 1 else 0 := fun k ↦ by rw [mul_ite, mul_one, mul_zero]
    rw [hboole, hboole, ← ind_of_none le_rfl (hproxy.trans hp), mul_add, Finset.mul_sum]
    rfl
  | some q =>
    simp only
    rw [hproxied, State.qiIn]
    congr 1
    funext b v
    rw [State.behind, taiyiMaxProxyRecursionDepth, ind_of_some le_rfl (hproxy.trans hp), mul_ite,
      mul_one, mul_zero]

theorem vsfAdores_total (h : Audited s) :
    rowSum (fun _ acc ↦ acc.vsfAdores) s.accounts =
      rowSum (fun _ acc ↦ acc.assets.qi) s.accounts := by
  rw [← rowSum_fibers (fun _ acc ↦ acc.assets.qi) fun a acc hacc ↦
    @stops_mem _ _ taiyiMaxProxyRecursionDepth h.linked
      ((mem_iff_getElem? _ _).mpr ⟨acc, hacc⟩)]
  refine congrArg List.sum (List.map_congr_left fun r hr ↦ ?_)
  exact vsfAdores_eq h.tallied ((mem_toList _ _ _).mp hr)

end Total

section Audits

variable {hash : ℕ → ℕ} {s t : State} {initSupply initQiSupply a b n payer payee caller : ℕ}
  {amount : ℤ} {u : Unit}

/-- What `validate_invariants` asserts of the adores holds after every run whose steps keep to the
conditions, and each cell counts the QI of those that adore through it. -/
theorem adores_audit
    (h : Reaches hash (fun s act ↦ act.Books s) (genesis initSupply initQiSupply) s) :
    (∀ c, s.count c = s.qiIn s.behind c) ∧
      rowSum (fun _ acc ↦ acc.vsfAdores) s.accounts =
        rowSum (fun _ acc ↦ acc.assets.qi) s.accounts ∧
      ∀ (w : ℕ) o, s.simings[w]? = some o → o.adores ≤ s.props.totalQi := by
  obtain ⟨haudited, hregular⟩ := audited_and_regular h
  exact ⟨haudited.tallied, vsfAdores_total haudited, fun _ _ ho ↦
    adores_le_pool haudited.tallied (solvent_of_reaches hregular) (pooled_of_regular hregular) ho⟩

theorem reaches_of_books {acts : List Action} {s₀ : State} (hall : ∀ act ∈ acts, ∀ s, act.Books s)
    (h : runActions hash s₀ acts = some s) : Reaches hash (fun s act ↦ act.Books s) s₀ s := by
  induction acts generalizing s₀ with
  | nil =>
    cases h
    exact .start
  | cons act acts ih =>
    obtain ⟨t, ht, hrest⟩ := Option.bind_eq_some_iff.mp h
    exact (Reaches.step act .start (hall act List.mem_cons_self s₀) ht).trans
      (ih (fun b hb ↦ hall b (List.mem_cons_of_mem _ hb)) hrest)

/-- The first siming has danuo as its proxy, who adores it and gets QI of his own. -/
theorem adores_audit_danuo : ∃ s,
    runActions (· + 1) (genesis 100 100000)
      [.operation (.accountSimingProxy initSiming (some danuo)),
        .operation (.accountSimingAdore danuo initSiming true),
        .operation (.transferToQi initSiming danuo 7)] = some s ∧
    (s.simings[initSiming]?).map Siming.adores = some 106990 ∧
    (∀ c, s.count c = s.qiIn s.behind c) ∧
    rowSum (fun _ acc ↦ acc.vsfAdores) s.accounts = rowSum (fun _ acc ↦ acc.assets.qi) s.accounts ∧
    ∀ (w : ℕ) o, s.simings[w]? = some o → o.adores ≤ s.props.totalQi := by
  have hrun : ((runActions (· + 1) (genesis 100 100000)
      [.operation (.accountSimingProxy initSiming (some danuo)),
        .operation (.accountSimingAdore danuo initSiming true),
        .operation (.transferToQi initSiming danuo 7)]).map fun s ↦
      decide ((s.simings[initSiming]?).map Siming.adores = some 106990)) = some true := by
    decide +kernel
  obtain ⟨s, hs, hadores⟩ := Option.map_eq_some_iff.mp hrun
  refine ⟨s, hs, of_decide_eq_true hadores,
    adores_audit (reaches_of_books (fun act hact s ↦ ?_) hs)⟩
  simp only [List.mem_cons, List.not_mem_nil, or_false] at hact
  rcases hact with rfl | rfl | rfl <;> trivial

/-- A charge that goes through is one of something, to somebody. -/
theorem of_rewardFeigang (hl : Linked s)
    (hrun : (rewardFeigang b a (.value amount)).run s = .ok u t) : 0 < amount ∧ b ∈ s.accounts := by
  unfold rewardFeigang at hrun
  simp only [AssetRef.read, pure_bind] at hrun
  obtain ⟨hpos, h₁⟩ := after_require hrun
  obtain ⟨_, s₁, hdebit, h₂⟩ := bind_ok.mp h₁
  obtain ⟨_, s₂, hadore, h₃⟩ := bind_ok.mp h₂
  obtain ⟨_, s₃, hreward, -⟩ := bind_ok.mp h₃
  obtain ⟨acc, _, hacc, -⟩ := bind_ok.mp hreward
  have hlike := (ShiftsOn.bind accrues_adjustBalance fun _ ↦ accrues_adjustProxied hl :
    Accrues s (adjustBalance a (-amount) .qi >>= fun _ ↦ adjustProxiedSimingAdores a (-amount)) _)
    s _ s₂ ⟨rfl, fun _ ↦ rfl⟩ (bind_ok.mpr ⟨_, s₁, hdebit, hadore⟩)
  refine ⟨hpos, mem_accounts_iff.mpr ?_⟩
  rw [← hlike.1.cells]
  exact mem_accounts_iff.mp (mem_of_getAccount hacc)

theorem chargeInCall_iff (h : Audited s) (hs : Solvent s) (hp : Pooled s) :
    (∃ t, (chargeInCall payee payer amount).run s = .ok ⟨⟩ t) ↔ payer ∈ s.accounts ∧
      payee ∈ s.accounts ∧ 0 < amount ∧ amount ≤ (s.account payer).assets.qi := by
  constructor
  · rintro ⟨t, hrun⟩
    obtain ⟨v, s₁, hv, h₁⟩ := bind_ok.mp hrun
    have hqi := account_of_getBalance hv
    obtain ⟨⟨acc, hacc, -⟩, rfl⟩ := getBalance_ok.mp hv
    obtain ⟨hle, h₂⟩ := after_require h₁
    obtain ⟨hpos, hpayee⟩ := of_rewardFeigang h.linked h₂
    exact ⟨(mem_iff_getElem? _ _).mpr ⟨acc, hacc⟩, hpayee, hpos, hqi ▸ hle⟩
  · rintro ⟨hpayer, hpayee, hpos, hle⟩
    obtain ⟨acc, hacc⟩ := (mem_iff_getElem? _ _).mp hpayer
    obtain ⟨t, ht⟩ := rewardFeigang_of hs (unwinds h hs hp hpayer hpos.le) hpos hle hpayee
    have hqi : (s.account payer).assets.qi = acc.assets.qi := by rw [State.account, hacc]; rfl
    have hpays : amount ≤ acc.assets.get .qi := hle.trans_eq hqi
    exact ⟨t, bind_ok.mpr ⟨_, s, getBalance_ok.mpr ⟨⟨acc, hacc, rfl⟩, rfl⟩,
      bind_ok.mpr ⟨⟨⟩, s, require_of hpays, ht⟩⟩⟩

theorem depositByContract_iff (h : Audited s) (hs : Solvent s) (hp : Pooled s) :
    (∃ t, (depositByContract caller a n amount .qi).run s = .ok ⟨⟩ t) ↔ caller = a ∧
      a ∈ s.accounts ∧ n ∈ s.nfas ∧ 0 ≤ amount ∧ amount ≤ (s.account a).assets.qi := by
  constructor
  · rintro ⟨t, hrun⟩
    obtain ⟨hcaller, h₁⟩ := after_require hrun
    obtain ⟨acc, s₁, hacc, h₂⟩ := bind_ok.mp h₁
    obtain ⟨v, s₂, hv, h₃⟩ := bind_ok.mp h₂
    obtain ⟨-, rfl⟩ := getAccount_ok.mp hacc
    obtain ⟨-, rfl⟩ := getNfa_ok.mp hv
    obtain ⟨balance, s₃, hbalance, h₄⟩ := bind_ok.mp h₃
    have hqi := account_of_getBalance hbalance
    obtain ⟨-, rfl⟩ := getBalance_ok.mp hbalance
    obtain ⟨hle, h₅⟩ := after_require h₄
    obtain ⟨hpos, -⟩ := after_require h₅
    exact ⟨hcaller, mem_of_getAccount hacc, mem_of_getNfa hv, hpos, hqi ▸ hle⟩
  · rintro ⟨hcaller, ha, hn, hpos, hle⟩
    obtain ⟨acc, hacc⟩ := (mem_iff_getElem? _ _).mp ha
    obtain ⟨v, hv⟩ := (mem_iff_getElem? _ _).mp hn
    obtain ⟨t, u, w, hdebit, hadore, hcredit⟩ := deposit_of h hs hp ha hn hpos hle
    have hqi : (s.account a).assets.qi = acc.assets.qi := by rw [State.account, hacc]; rfl
    have hpays : amount ≤ acc.assets.get .qi := hle.trans_eq hqi
    refine ⟨w, bind_ok.mpr ⟨⟨⟩, s, require_of hcaller, bind_ok.mpr ⟨acc, s,
      getAccount_ok.mpr ⟨hacc, rfl⟩, bind_ok.mpr ⟨v, s, getNfa_ok.mpr ⟨hv, rfl⟩, ?_⟩⟩⟩⟩
    exact bind_ok.mpr ⟨_, s, getBalance_ok.mpr ⟨⟨acc, hacc, rfl⟩, rfl⟩, bind_ok.mpr ⟨⟨⟩, s,
      require_of hpays, bind_ok.mpr ⟨⟨⟩, s, require_of hpos, bind_ok.mpr ⟨⟨⟩, t, hdebit,
        bind_ok.mpr ⟨⟨⟩, u, hadore, hcredit⟩⟩⟩⟩⟩

theorem withdrawByContract_iff (h : Audited s) (hs : Solvent s) (hp : Pooled s) :
    (∃ t, (withdrawByContract caller n a amount .qi).run s = .ok ⟨⟩ t) ↔ a ∈ s.accounts ∧
      ∃ v, s.nfas[n]? = some v ∧ v.operatedBy caller ∧ 0 ≤ amount ∧ amount ≤ v.assets.qi := by
  constructor
  · rintro ⟨t, hrun⟩
    obtain ⟨_, s₁, hop, h₁⟩ := bind_ok.mp hrun
    obtain ⟨v, s₂, hv, h₂⟩ := bind_ok.mp hop
    obtain ⟨hv, rfl⟩ := getNfa_ok.mp hv
    obtain ⟨hoperates, rfl⟩ := require_ok.mp h₂
    obtain ⟨acc, s₃, hacc, h₃⟩ := bind_ok.mp h₁
    obtain ⟨-, rfl⟩ := getAccount_ok.mp hacc
    obtain ⟨balance, s₄, hbalance, h₄⟩ := bind_ok.mp h₃
    obtain ⟨⟨u, hu, rfl⟩, rfl⟩ := getNfaBalance_ok.mp hbalance
    cases hv.symm.trans hu
    obtain ⟨hle, h₅⟩ := after_require h₄
    obtain ⟨hpos, -⟩ := after_require h₅
    exact ⟨mem_of_getAccount hacc, v, hv, hoperates, hpos, hle⟩
  · rintro ⟨ha, v, hv, hoperates, hpos, hle⟩
    obtain ⟨acc, hacc⟩ := (mem_iff_getElem? _ _).mp ha
    obtain ⟨t, u, w, hdebit, hcredit, hadore⟩ := withdraw_of h hs hp hv hacc hpos hle
    refine ⟨w, bind_ok.mpr ⟨⟨⟩, s, bind_ok.mpr ⟨v, s, getNfa_ok.mpr ⟨hv, rfl⟩,
      require_of hoperates⟩, bind_ok.mpr ⟨acc, s, getAccount_ok.mpr ⟨hacc, rfl⟩, ?_⟩⟩⟩
    exact bind_ok.mpr ⟨_, s, getNfaBalance_ok.mpr ⟨⟨v, hv, rfl⟩, rfl⟩, bind_ok.mpr ⟨⟨⟩, s,
      require_of hle, bind_ok.mpr ⟨⟨⟩, s, require_of hpos, bind_ok.mpr ⟨⟨⟩, t, hdebit,
        bind_ok.mpr ⟨⟨⟩, u, hcredit, hadore⟩⟩⟩⟩⟩

/-- The check of the adores against all QI never stops a call: a charge, a deposit and a
withdrawal of QI go through whenever there is the QI, and somebody on both sides. -/
theorem qi_calls
    (h : Reaches hash (fun s act ↦ act.Books s) (genesis initSupply initQiSupply) s) :
    (∀ payee payer amount, (∃ t, (chargeInCall payee payer amount).run s = .ok ⟨⟩ t) ↔
      payer ∈ s.accounts ∧ payee ∈ s.accounts ∧ 0 < amount ∧
        amount ≤ (s.account payer).assets.qi) ∧
    (∀ caller a n amount, (∃ t, (depositByContract caller a n amount .qi).run s = .ok ⟨⟩ t) ↔
      caller = a ∧ a ∈ s.accounts ∧ n ∈ s.nfas ∧ 0 ≤ amount ∧ amount ≤ (s.account a).assets.qi) ∧
    ∀ caller n a amount, (∃ t, (withdrawByContract caller n a amount .qi).run s = .ok ⟨⟩ t) ↔
      a ∈ s.accounts ∧
        ∃ v, s.nfas[n]? = some v ∧ v.operatedBy caller ∧ 0 ≤ amount ∧ amount ≤ v.assets.qi := by
  obtain ⟨haudited, hregular⟩ := audited_and_regular h
  have hs := solvent_of_reaches hregular
  have hp := pooled_of_regular hregular
  exact ⟨fun _ _ _ ↦ chargeInCall_iff haudited hs hp, fun _ _ _ _ ↦
    depositByContract_iff haudited hs hp, fun _ _ _ _ ↦ withdrawByContract_iff haudited hs hp⟩

/-- All that danuo got can be charged, but no more. -/
theorem qi_calls_danuo : ∃ s,
    runActions (· + 1) (genesis 100 100000)
      [.operation (.accountSimingProxy initSiming (some danuo)),
        .operation (.accountSimingAdore danuo initSiming true),
        .operation (.transferToQi initSiming danuo 7)] = some s ∧
    (∃ t, (chargeInCall taiyiDaoAccount danuo 7000).run s = .ok ⟨⟩ t) ∧
    (¬∃ t, (chargeInCall taiyiDaoAccount danuo 7001).run s = .ok ⟨⟩ t) ∧
    ∃ t, (depositByContract initSiming initSiming 0 99990 .qi).run s = .ok ⟨⟩ t := by
  have hrun : ((runActions (· + 1) (genesis 100 100000)
      [.operation (.accountSimingProxy initSiming (some danuo)),
        .operation (.accountSimingAdore danuo initSiming true),
        .operation (.transferToQi initSiming danuo 7)]).map fun s ↦
      decide ((taiyiDaoAccount ∈ s.accounts ∧ danuo ∈ s.accounts ∧ initSiming ∈ s.accounts ∧
        0 ∈ s.nfas) ∧ (s.account danuo).assets.qi = 7000 ∧
          (s.account initSiming).assets.qi = 99990)) = some true := by
    decide +kernel
  obtain ⟨s, hs, hkept⟩ := Option.map_eq_some_iff.mp hrun
  obtain ⟨⟨hdao, hdanuo, hsiming, hnfa⟩, hqi, hrest⟩ := of_decide_eq_true hkept
  have hcalls := qi_calls (reaches_of_books (fun act hact s ↦ by
    simp only [List.mem_cons, List.not_mem_nil, or_false] at hact
    rcases hact with rfl | rfl | rfl <;> trivial) hs)
  refine ⟨s, hs, (hcalls.1 _ _ _).mpr ⟨hdanuo, hdao, by decide, hqi.ge⟩, fun hcharge ↦ ?_,
    (hcalls.2.1 _ _ _ _).mpr ⟨rfl, hsiming, hnfa, by decide, hrest.ge⟩⟩
  have hle := ((hcalls.1 _ _ _).mp hcharge).2.2.2
  omega

end Audits

end Taiyi.Ledger
