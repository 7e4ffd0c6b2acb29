import Taiyi.Ledger.Checked
import Taiyi.Ledger.Cleaning
import Taiyi.Ledger.Supply

set_option autoImplicit false

namespace Taiyi.Ledger

open Library.IdMap Library.Frame Library.Meter Library.Outcome

variable {w : Weights} {k : ℤ}

section Writes

variable {s : State} {a n id : ℕ} {delta : ℤ} {symbol : Symbol}

theorem moves_modifyAccount {f : Account → Account} (h : ∀ acc, w.account (f acc) = w.account acc) :
    Moves (Same w.weigh) (modifyAccount a f) :=
  moves_modifyIn fun s acc hacc ↦ by
    simp only [Same, Weights.weigh, rowSum_insert _ hacc, h, sub_self, add_zero]

theorem moves_modifyNfa_weigh {f : Nfa → Nfa} (h : ∀ m, w.ofNfa (f m) = w.ofNfa m) :
    Moves (Same w.weigh) (modifyNfa n f) :=
  moves_modifyIn fun s m hm ↦ by
    simp only [Same, Weights.weigh, rowSum_insert _ hm, h, sub_self, add_zero]

theorem moves_modifySiming {f : Siming → Siming} : Moves (Same w.weigh) (modifySiming id f) :=
  moves_modifyIn fun _ _ _ ↦ rfl

theorem moves_modifyCultivation {f : Cultivation → Cultivation} :
    Moves (Same w.weigh) (modifyCultivation id f) := moves_modifyIn fun _ _ _ ↦ rfl

theorem moves_adjustProxied : Moves (Same w.weigh) (adjustProxiedSimingAdores a delta) :=
  moves_propagate (fun _ _ ↦ moves_modifyAccount fun _ ↦ rfl) fun _ _ ↦ moves_modifySiming

theorem moves_adjustProxiedArray {deltas : Fin 5 → ℤ} :
    Moves (Same w.weigh) (adjustProxiedArray a deltas) :=
  moves_propagate (fun _ _ ↦ moves_modifyAccount fun _ ↦ rfl) fun _ _ ↦ moves_modifySiming

theorem moves_adjustBalance_zero : Moves (Same w.weigh) (adjustBalance a 0 symbol) :=
  .bind moves_getBalance fun _ ↦ .bind moves_require fun _ ↦ .bind moves_getBalance fun _ ↦
    .bind moves_require fun _ ↦ moves_modifyAccount fun acc ↦ by
      simp only [Weights.account, Purse.dot_add, mul_zero, add_zero]

theorem moves_adjustNfaBalance_zero : Moves (Same w.weigh) (adjustNfaBalance n 0 symbol) := by
  have hwrite : Moves (Same w.weigh)
      (modifyNfa n fun nfa ↦ { nfa with assets := nfa.assets.add 0 symbol }) :=
    moves_modifyNfa_weigh fun m ↦ by simp only [Weights.ofNfa, Purse.dot_add, mul_zero, add_zero]
  refine .bind moves_getNfaBalance fun _ ↦ .bind moves_require fun _ ↦
    .ite (fun _ ↦ ?_) fun _ ↦ hwrite
  exact .bind moves_getNfaBalance fun _ ↦ .bind moves_require fun _ ↦ hwrite

theorem moves_adjustMaterial_zero {r : Resource} : Moves (Same w.weigh) (adjustMaterial n 0 r) :=
  .bind moves_getMaterial fun _ ↦ moves_modifyNfa_weigh fun m ↦ by
    simp only [Weights.ofNfa, Stock.dot_add, mul_zero, add_zero]

theorem account_empty : w.account {} = 0 := by
  simp [Weights.account, Purse.dot, Stock.dot]

theorem weigh_newNfa {m : Nfa} (h : s.nfas[n]? = none) (ha : m.assets = {}) (hm : m.material = {})
    (hc : m.cultivationValue = 0) : w.weigh { s with nfas := s.nfas.insert n m } = w.weigh s := by
  have hzero : w.ofNfa m = 0 := by simp [Weights.ofNfa, Purse.dot, Stock.dot, ha, hm, hc]
  simp only [Weights.weigh, rowSum_insert_new _ h, hzero, add_zero]

end Writes

section Operations

variable {a b n : ℕ} {f amount : ℤ} {symbol : Symbol}

/-- The QI of a charge goes from one pool to another. -/
theorem shifts_poolFeigang :
    Shifts w.weigh (modifyProps fun p ↦
      { p with
        pendingRewardedFeigang := p.pendingRewardedFeigang + f, totalQi := p.totalQi - f })
      (-(w.pendingRewardedFeigang * f - w.totalQi * f)) := by
  apply shifts_modifyProps
  intro p
  simp only [Weights.props]
  ring

theorem shifts_rewardFeigang (hw : w.Fair k) :
    Shifts w.weigh (rewardFeigang b a (.value f)) 0 := by
  unfold rewardFeigang
  simp only [AssetRef.read, pure_bind]
  refine .read shifts_require fun _ ↦ .of_eq (.bind shifts_adjustBalance fun _ ↦
    .read shifts_adjustProxied fun _ ↦ .bind shifts_modifyRewardBalance fun _ ↦
    shifts_poolFeigang) ?_
  simp only [Purse.get, hw.qi, hw.feigang, mul_zero, if_true]
  ring

theorem shifts_rewardFeigangFromNfa (hw : w.Fair k) :
    Shifts w.weigh (rewardFeigangFromNfa b n f) 0 := by
  refine .read shifts_require fun _ ↦ .of_eq (.bind shifts_adjustNfaBalance fun _ ↦
    .bind shifts_modifyRewardBalance fun _ ↦ shifts_poolFeigang) ?_
  simp only [Purse.get, hw.nfa, hw.qi, hw.feigang, mul_zero, if_true]
  ring

theorem shifts_chargeTreasury (hw : w.Fair k) : Shifts w.weigh (chargeTreasury a f) 0 :=
  .read shifts_getBalance fun _ ↦ .read shifts_require fun _ ↦ shifts_rewardFeigang hw

theorem shifts_chargeCaller (hw : w.Fair k) {drops points : ℤ} :
    Shifts w.weigh (chargeCaller b a drops points) 0 :=
  .read shifts_getBalance fun _ ↦ .read shifts_require fun _ ↦ .read (shifts_rewardFeigang hw)
    fun _ ↦ shifts_chargeTreasury hw

/-- What one account pays another gets. -/
theorem shifts_transferPair {payer payee : ℕ} :
    Shifts w.weigh (do
      adjustBalance payer (-amount) symbol
      adjustBalance payee amount symbol) 0 :=
  .of_eq (.bind shifts_adjustBalance fun _ ↦ shifts_adjustBalance) (by ring)

theorem weigh_newAccount {s : State} (h : s.accounts[a]? = none) :
    w.weigh { s with accounts := s.accounts.insert a {} } = w.weigh s := by
  simp only [Weights.weigh, rowSum_insert_new _ h, account_empty, add_zero]

theorem shifts_accountCreate (hw : w.Fair k) : Shifts w.weigh (accountCreate a b f) 0 := by
  intro s u t h
  obtain ⟨hpos, h₁⟩ := after_require h
  obtain ⟨_, s₁, hfee, h₂⟩ := bind_ok.mp h₁
  obtain ⟨hnone, h₃⟩ := after_require (after_get h₂)
  obtain ⟨_, s₂, hnew, h₄⟩ := bind_ok.mp h₃
  cases hnew
  have hlast : Shifts w.weigh (if 0 < f then do let _ ← createQi b f else pure ())
      (1000 * k * f) := by
    refine .ite (fun _ ↦ .of_eq (.bind shifts_createQi fun _ ↦ .pure _) ?_) fun hnot ↦ ?_
    · rw [hw.qi]
      ring
    · have hzero : f = 0 := by omega
      exact .of_eq (.pure _) (by rw [hzero, mul_zero])
  rw [hlast _ u t h₄, weigh_newAccount hnone, shifts_adjustBalance s _ s₁ hfee, Purse.get, hw.yang]
  ring

theorem shifts_transfer (hw : w.Fair k) : Shifts w.weigh (transfer a b amount symbol) 0 :=
  .read shifts_require fun _ ↦ .read shifts_require fun _ ↦ .read (shifts_chargeTreasury hw)
    fun _ ↦ shifts_transferPair

theorem shifts_transferToQi (hw : w.Fair k) : Shifts w.weigh (transferToQi a b amount) 0 := by
  refine .read shifts_require fun _ ↦ .read (shifts_chargeTreasury hw) fun _ ↦
    .of_eq (.bind shifts_adjustBalance fun _ ↦ .bind shifts_createQi fun _ ↦ .pure _) ?_
  rw [Purse.get, hw.yang, hw.qi]
  ring

theorem shifts_withdrawQi (hw : w.Fair k) : Shifts w.weigh (withdrawQi a amount) 0 := by
  have hset : ∀ g : Account → Account, (∀ acc, w.account (g acc) = w.account acc) →
      Shifts w.weigh (modifyAccount a g) 0 := fun g hg ↦ (moves_modifyAccount hg).keeps.shifts
  refine .read shifts_require fun _ ↦ .read (shifts_chargeTreasury hw) fun _ ↦
    .read shifts_getAccount fun _ ↦ .read shifts_require fun _ ↦ .ite (fun _ ↦ ?_) fun _ ↦ ?_
  · exact .read shifts_require fun _ ↦ hset _ fun _ ↦ rfl
  · exact .read shifts_require fun _ ↦ .read .get fun _ ↦ hset _ fun _ ↦ rfl

theorem moves_setWithdrawQiRoute {percent : ℕ} {autoVest : Bool} :
    Moves (Same w.weigh) (setWithdrawQiRoute a b percent autoVest) := by
  have hlast : Moves (Same w.weigh) (do
      require (totalPercent (← getAccount a).routes ≤ 10000)
        "More than 100% of qi withdrawals allocated to destinations.") :=
    .bind moves_getAccount fun _ ↦ moves_require
  refine .bind moves_require fun _ ↦ .bind moves_getAccount fun acc ↦
    .bind moves_getAccount fun _ ↦ .bind moves_require fun _ ↦ ?_
  split
  · exact .bind moves_require fun _ ↦ .bind moves_require fun _ ↦
      .bind (moves_modifyAccount fun _ ↦ rfl) fun _ ↦ hlast
  · split
    · exact .bind (moves_modifyAccount fun _ ↦ rfl) fun _ ↦ hlast
    · exact .bind (moves_modifyAccount fun _ ↦ rfl) fun _ ↦ hlast

theorem moves_accountSimingProxy {proxy : Option ℕ} :
    Moves (Same w.weigh) (accountSimingProxy a proxy) := by
  refine .bind moves_require fun _ ↦ .bind moves_getAccount fun _ ↦ .bind moves_require fun _ ↦
    .bind moves_require fun _ ↦ .bind moves_adjustProxiedArray fun _ ↦ ?_
  split
  · exact .bind moves_getAccount fun _ ↦ .bind moves_checkProxyLoop fun _ ↦
      .bind (moves_modifyAccount fun _ ↦ rfl) fun _ ↦
      .bind (moves_modifyAccount fun _ ↦ rfl) fun _ ↦ moves_adjustProxiedArray
  · exact moves_modifyAccount fun _ ↦ rfl

theorem moves_accountSimingAdore {siming : ℕ} {approve : Bool} :
    Moves (Same w.weigh) (accountSimingAdore a siming approve) := by
  have hadore : ∀ delta, Moves (Same w.weigh) (adjustSimingAdore siming delta) := fun _ ↦
    moves_adjustSimingAdore fun _ _ ↦ moves_modifySiming
  refine .bind moves_getAccount fun _ ↦ .bind moves_require fun _ ↦ .bind moves_require fun _ ↦
    .bind moves_getSiming fun _ ↦ .ite (fun _ ↦ ?_) fun _ ↦ ?_
  · exact .bind moves_require fun _ ↦ .bind (hadore _) fun _ ↦ moves_modifyAccount fun _ ↦ rfl
  · exact .bind moves_require fun _ ↦ .bind moves_require fun _ ↦ .bind (hadore _) fun _ ↦
      moves_modifyAccount fun _ ↦ rfl

theorem shifts_simingUpdate (hw : w.Fair k) : Shifts w.weigh (simingUpdate a) 0 :=
  .read .get fun _ ↦ .ite (fun _ ↦ .read (shifts_chargeTreasury hw) fun _ ↦
    .update fun _ ↦ (add_zero _).symm) fun _ ↦ .pure _

theorem moves_declineAdoringRights {decline : Bool} :
    Moves (Same w.weigh) (declineAdoringRights a decline) :=
  .bind moves_getAccount fun _ ↦ .bind .get fun _ ↦
    .ite (fun _ ↦ .bind moves_require fun _ ↦ .update fun _ ↦ rfl) fun _ ↦
      .bind moves_require fun _ ↦ .update fun _ ↦ rfl

theorem shifts_operation (hw : w.Fair k) (o : Operation) : Shifts w.weigh o.apply 0 := by
  cases o with
  | accountCreate => exact shifts_accountCreate hw
  | transfer => exact shifts_transfer hw
  | transferToQi => exact shifts_transferToQi hw
  | withdrawQi => exact shifts_withdrawQi hw
  | setWithdrawQiRoute => exact moves_setWithdrawQiRoute.keeps.shifts
  | accountSimingProxy => exact moves_accountSimingProxy.keeps.shifts
  | accountSimingAdore => exact moves_accountSimingAdore.keeps.shifts
  | simingUpdate => exact shifts_simingUpdate hw
  | declineAdoringRights => exact moves_declineAdoringRights.keeps.shifts
  | claimRewardBalance => exact shifts_claimRewardBalance hw
  | createContract => exact shifts_chargeTreasury hw
  | callContractFunction => exact shifts_chargeCaller hw

end Operations

section Calls

variable {s t : State} {caller a b m n : ℕ} {amount : ℤ} {symbol : Symbol} {r : Resource}

theorem same_of_ok {x : Call Unit} (h : Shifts w.weigh x 0) (hx : ∃ t, x.run s = .ok ⟨⟩ t) :
    Same w.weigh s (after x s) := by
  obtain ⟨t, ht⟩ := hx
  rw [after_ok ht]
  exact (h s _ t ht).trans (add_zero _)

theorem same_of_pair {x y : Call Unit} (hx : x.run s = .ok ⟨⟩ t) (hy : ∃ u, y.run t = .ok ⟨⟩ u)
    (h : Shifts w.weigh (x >>= fun _ ↦ y) 0) : Same w.weigh s (after (x >>= fun _ ↦ y) s) := by
  obtain ⟨u, hu⟩ := hy
  exact same_of_ok h ⟨u, bind_ok.mpr ⟨⟨⟩, t, hx, hu⟩⟩

theorem adjustBalance_of {acc : Account} {delta : ℤ} (ha : s.accounts[a]? = some acc)
    (h : 0 ≤ acc.assets.get symbol + delta) :
    (adjustBalance a delta symbol).run s = .ok ⟨⟩ { s with
      accounts := s.accounts.insert a { acc with assets := acc.assets.add delta symbol } } := by
  have hget : (getBalance a symbol).run s = .ok (acc.assets.get symbol) s :=
    getBalance_ok.mpr ⟨⟨acc, ha, rfl⟩, rfl⟩
  refine bind_ok.mpr ⟨_, s, hget, bind_ok.mpr ⟨⟨⟩, s, require_of (by omega), ?_⟩⟩
  exact bind_ok.mpr ⟨_, s, hget, bind_ok.mpr ⟨⟨⟩, s, require_of h, modifyIn_ok.mpr ⟨acc, ha, rfl⟩⟩⟩

theorem credits_account (hs : Solvent s) (hb : b ∈ s.accounts) (h : 0 ≤ amount) :
    ∃ t, (adjustBalance b amount symbol).run s = .ok ⟨⟩ t := by
  obtain ⟨acc, hacc⟩ := (mem_iff_getElem? _ _).mp hb
  exact ⟨_, adjustBalance_of hacc (add_nonneg ((hs.account b acc hacc).assets symbol) h)⟩

theorem credits_nfa (hs : Solvent s) (hn : n ∈ s.nfas) (h : 0 ≤ amount) :
    ∃ t, (adjustNfaBalance n amount symbol).run s = .ok ⟨⟩ t := by
  obtain ⟨v, hv⟩ := (mem_iff_getElem? _ _).mp hn
  exact ⟨_, adjustNfaBalance_of hv (add_nonneg (hs.nfa n v hv symbol) h)⟩

theorem mem_of_getAccount {acc : Account} (h : (getAccount a).run s = .ok acc t) : a ∈ s.accounts :=
  (mem_iff_getElem? _ _).mpr ⟨acc, (getAccount_ok.mp h).1⟩

theorem mem_of_getNfa {v : Nfa} (h : (getNfa n).run s = .ok v t) : n ∈ s.nfas :=
  (mem_iff_getElem? _ _).mpr ⟨v, (getNfa_ok.mp h).1⟩

theorem same_transferByContract (hs : Solvent s) :
    Same w.weigh s (after (transferByContract a b amount symbol) s) := by
  refine Moves.read_at moves_require fun _ _ ↦ ?_
  refine Moves.read_at moves_getAccount fun _ hb ↦ ?_
  refine Moves.read_at moves_getBalance fun v hv ↦ ?_
  obtain ⟨⟨acc, hacc, rfl⟩, -⟩ := getBalance_ok.mp hv
  refine Moves.read_at moves_require fun _ hle ↦ ?_
  refine Moves.read_at moves_require fun _ hpos ↦ ?_
  have hle := (require_ok.mp hle).1
  have hdebit := adjustBalance_of hacc (show 0 ≤ acc.assets.get symbol + -amount by omega)
  have hb : b ∈ s.accounts := mem_of_getAccount hb
  exact same_of_pair hdebit (credits_account (solvent_adjustBalance.ends hdebit hs)
    ((mem_insert _ _ _ _).mpr (.inr hb)) (require_ok.mp hpos).1) shifts_transferPair

theorem same_transferNfaByContract (hs : Solvent s) :
    Same w.weigh s (after (transferNfaByContract caller m n amount symbol) s) := by
  refine Moves.read_at moves_require fun _ _ ↦ ?_
  refine Moves.read_at moves_requireOperator fun _ _ ↦ ?_
  refine Moves.read_at moves_getNfa fun _ hn ↦ ?_
  refine Moves.read_at moves_getNfaBalance fun _ hv ↦ ?_
  obtain ⟨⟨u, hu, rfl⟩, -⟩ := getNfaBalance_ok.mp hv
  refine Moves.read_at moves_require fun _ hle ↦ ?_
  refine Moves.read_at moves_require fun _ hpos ↦ ?_
  have hle := (require_ok.mp hle).1
  have hdebit := adjustNfaBalance_of hu (show 0 ≤ u.assets.get symbol + -amount by omega)
  exact same_of_pair hdebit (credits_nfa (solvent_adjustNfaBalance.ends hdebit hs)
    ((mem_insert _ _ _ _).mpr (.inr (mem_of_getNfa hn))) (require_ok.mp hpos).1)
    (.of_eq (.bind shifts_adjustNfaBalance fun _ ↦ shifts_adjustNfaBalance) (by ring))

theorem same_withdrawByContract (hw : w.Fair k) (hs : Solvent s) :
    Same w.weigh s (after (withdrawByContract caller n a amount symbol) s) := by
  refine Moves.read_at moves_requireOperator fun _ _ ↦ ?_
  refine Moves.read_at moves_getAccount fun _ ha ↦ ?_
  refine Moves.read_at moves_getNfaBalance fun _ hv ↦ ?_
  obtain ⟨⟨u, hu, rfl⟩, -⟩ := getNfaBalance_ok.mp hv
  refine Moves.read_at moves_require fun _ hle ↦ ?_
  refine Moves.read_at moves_require fun _ hpos ↦ ?_
  have hle := (require_ok.mp hle).1
  have hdebit := adjustNfaBalance_of hu (show 0 ≤ u.assets.get symbol + -amount by omega)
  have ha : a ∈ s.accounts := mem_of_getAccount ha
  obtain ⟨t, hcredit⟩ := @credits_account _ a _ symbol (solvent_adjustNfaBalance.ends hdebit hs) ha
    (require_ok.mp hpos).1
  have hpaid : Shifts w.weigh (do
      adjustNfaBalance n (-amount) symbol
      adjustBalance a amount symbol) 0 :=
    .of_eq (.bind shifts_adjustNfaBalance fun _ ↦ shifts_adjustBalance) (by rw [hw.nfa]; ring)
  have hlast : Moves (Same w.weigh)
      (if symbol = .qi then adjustProxiedSimingAdores a amount else pure ()) :=
    .ite (fun _ ↦ moves_adjustProxied) fun _ ↦ .pure _
  rw [after_bind_ok hdebit, after_bind_ok hcredit]
  exact (hlast t).trans ((hpaid s _ t (bind_ok.mpr ⟨⟨⟩, _, hdebit, hcredit⟩)).trans (add_zero _))

theorem shifts_adjustMaterial :
    Shifts w.weigh (adjustMaterial n amount r) (w.material.get r * amount) := by
  have hread : Moves (Same w.weigh) (getMaterial n) := moves_getMaterial
  refine .read hread.keeps.shifts fun _ ↦ shifts_modifyNfa fun m ↦ ?_
  simp only [Weights.ofNfa, Stock.dot_add]
  ring

theorem adjustMaterial_of {v : Nfa} (hv : s.nfas[n]? = some v) (h : v.hasMaterial = true) :
    (adjustMaterial n amount r).run s = .ok ⟨⟩ { s with
      nfas := s.nfas.insert n { v with material := v.material.add amount r } } := by
  have hread : (getMaterial n).run s = .ok v.material s := bind_ok.mpr ⟨v, s,
    getNfa_ok.mpr ⟨hv, rfl⟩, bind_ok.mpr ⟨⟨⟩, s, require_of h, rfl⟩⟩
  exact bind_ok.mpr ⟨_, s, hread, modifyIn_ok.mpr ⟨v, hv, rfl⟩⟩

theorem getMaterial_ok {v : Stock} (h : (getMaterial n).run s = .ok v t) :
    ∃ u : Nfa, s.nfas[n]? = some u ∧ u.hasMaterial = true ∧ u.material = v := by
  obtain ⟨u, _, hu, h₁⟩ := bind_ok.mp h
  obtain ⟨hu, rfl⟩ := getNfa_ok.mp hu
  obtain ⟨hm, h₂⟩ := after_require h₁
  cases h₂
  exact ⟨u, hu, hm, rfl⟩

theorem adjustMaterial_succeeds (hs : Solvent s) (h : HasMaterial s n) :
    ∃ t, (adjustMaterial n amount r).run s = .ok ⟨⟩ t ∧ Solvent t ∧ HasMaterial t n := by
  obtain ⟨v, hv, hmat⟩ := h
  have hrun : (adjustMaterial n amount r).run s = .ok ⟨⟩ _ := adjustMaterial_of hv hmat
  have hsolvent : Moves (Holds Solvent) (adjustMaterial n amount r) := frames_adjustMaterial
  exact ⟨_, hrun, hsolvent.ends hrun hs, _, (getElem?_insert _ _ _ _).trans (if_pos rfl), hmat⟩

/-- Resources are only injected into an NFA whose material was created. -/
theorem same_injectMaterial (hw : w.Fair k)
    (h : 0 < amount → ∀ v, s.nfas[n]? = some v → v.hasMaterial = true) :
    Same w.weigh s (after (injectMaterialByContract caller m n amount r) s) := by
  refine Moves.read_at moves_require fun _ hpos ↦ ?_
  refine Moves.read_at moves_requireOperator fun _ _ ↦ ?_
  refine Moves.read_at moves_requireOperator fun _ hop ↦ ?_
  refine Moves.read_at moves_getNfaBalance fun _ hv ↦ ?_
  obtain ⟨⟨u, hu, rfl⟩, -⟩ := getNfaBalance_ok.mp hv
  refine Moves.read_at moves_require fun _ hle ↦ ?_
  have hle := (require_ok.mp hle).1
  rcases (require_ok.mp hpos).1.eq_or_lt with hzero | hpos
  · -- nothing is injected
    subst hzero
    exact (Moves.bind moves_adjustNfaBalance_zero fun _ ↦ moves_adjustMaterial_zero :
      Moves (Same w.weigh) _) s
  obtain ⟨v, _, hn, -⟩ := bind_ok.mp hop
  obtain ⟨hn, -⟩ := getNfa_ok.mp hn
  have hdebit := adjustNfaBalance_of hu
    (show 0 ≤ u.assets.get (.resource r) + -amount by omega)
  have hput : ∃ v', (s.nfas.insert m
      { u with assets := u.assets.add (-amount) (.resource r) })[n]? = some v' ∧
      v'.hasMaterial = true := by
    rw [getElem?_insert]
    split
    · next hmn => exact ⟨_, rfl, h hpos u (hmn ▸ hu)⟩
    · exact ⟨v, hn, h hpos v hn⟩
  obtain ⟨v', hv', hmat⟩ := hput
  refine same_of_pair hdebit ⟨_, adjustMaterial_of hv' hmat⟩
    (.of_eq (.bind shifts_adjustNfaBalance fun _ ↦ shifts_adjustMaterial) ?_)
  rw [hw.nfa, hw.material, Purse.get]
  ring

theorem same_separateMaterial (hw : w.Fair k) (hs : Solvent s) :
    Same w.weigh s (after (separateMaterialByContract caller m n amount r) s) := by
  refine Moves.read_at moves_require fun _ hpos ↦ ?_
  refine Moves.read_at moves_requireOperator fun _ _ ↦ ?_
  refine Moves.read_at moves_getNfa fun _ hn ↦ ?_
  refine Moves.read_at moves_getMaterial fun _ hmat ↦ ?_
  obtain ⟨u, hu, hhas, rfl⟩ := getMaterial_ok hmat
  refine Moves.read_at moves_require fun _ _ ↦ ?_
  have htaken : (adjustMaterial m (-amount) r).run s = .ok ⟨⟩ _ := adjustMaterial_of hu hhas
  have hsolvent : Moves (Holds Solvent) (adjustMaterial m (-amount) r) := frames_adjustMaterial
  have hn : n ∈ s.nfas := mem_of_getNfa hn
  refine same_of_pair htaken (credits_nfa (hsolvent.ends htaken hs)
    ((mem_insert _ _ _ _).mpr (.inr hn)) (require_ok.mp hpos).1)
    (.of_eq (.bind shifts_adjustMaterial fun _ ↦ shifts_adjustNfaBalance) ?_)
  rw [hw.nfa, hw.material, Purse.get]
  ring

end Calls

section Charges

variable {s t : State} {caller a b n : ℕ} {amount : ℤ} {symbol : Symbol}

/-- The adores behind an account can be lowered by this much: none of them is more than all QI
without the QI that is taken. -/
def Unwinds (s : State) (a : ℕ) (amount : ℤ) : Prop :=
  Checked.Carries (fun _ ↦ True) s (s.props.totalQi + amount) (-amount)
    taiyiMaxProxyRecursionDepth a

/-- After the debit of an account its adores are lowered. -/
theorem debit_unwinds (hs : Solvent s) (h : Unwinds s a amount)
    (hle : amount ≤ (s.account a).assets.qi) :
    ∃ t u, (adjustBalance a (-amount) .qi).run s = .ok ⟨⟩ t ∧
      (adjustProxiedSimingAdores a (-amount)).run t = .ok ⟨⟩ u ∧ Solvent u ∧
        (∀ c, c ∈ s.accounts → c ∈ u.accounts) ∧ u.nfas = s.nfas := by
  have hacc := h
  obtain ⟨acc, hacc, -⟩ := hacc
  rw [State.account, hacc, Option.getD_some] at hle
  have hpays : 0 ≤ acc.assets.get .qi + -amount := by
    change 0 ≤ acc.assets.qi + _
    omega
  have hdebit := adjustBalance_of hacc hpays
  have hcarries := (Checked.carries_insert (t := { s with
    accounts := s.accounts.insert a { acc with assets := acc.assets.add (-amount) .qi } })
    hacc rfl rfl ⟨rfl, rfl, fun _ _ ↦ rfl⟩).mpr h
  rw [← Int.sub_neg] at hcarries
  obtain ⟨⟨⟩, u, hadore, -⟩ := (Checked.completes_adjustProxied le_rfl).mpr hcarries
  have hadore := Checked.refines_adjustProxied a (-amount) _ _ _ hadore
  have hmem : ∀ c, Moves (Holds fun s : State ↦ c ∈ s.accounts)
      (adjustProxiedSimingAdores a (-amount)) := fun c ↦
    moves_propagate (fun _ _ ↦ moves_modifyIn fun _ _ _ hc ↦ (mem_insert _ _ _ _).mpr (.inr hc))
      fun _ _ ↦ moves_modifyIn fun _ _ _ ↦ id
  have hnfas : Moves (Same State.nfas) (adjustProxiedSimingAdores a (-amount)) :=
    moves_propagate (fun _ _ ↦ moves_modifyIn fun _ _ _ ↦ rfl) fun _ _ ↦
      moves_modifyIn fun _ _ _ ↦ rfl
  have hsolvent : Moves (Holds Solvent) (adjustProxiedSimingAdores a (-amount)) :=
    frames_adjustProxied
  have hsame : Same State.nfas _ u := hnfas.ends hadore
  exact ⟨_, u, hdebit, hadore, hsolvent.ends hadore (solvent_adjustBalance.ends hdebit hs),
    fun c hc ↦ (hmem c).ends hadore ((mem_insert _ _ _ _).mpr (.inr hc)), hsame⟩

theorem modifyRewardBalance_of {value share feigang : ℤ} (hb : b ∈ s.accounts) :
    ∃ t, (modifyRewardBalance b value share feigang false).run s = .ok ⟨⟩ t := by
  obtain ⟨acc, hacc⟩ := (mem_iff_getElem? _ _).mp hb
  exact ⟨_, bind_ok.mpr ⟨acc, s, getAccount_ok.mpr ⟨hacc, rfl⟩, bind_ok.mpr ⟨⟨⟩, s,
    require_of Bool.noConfusion, bind_ok.mpr ⟨⟨⟩, s, require_of Bool.noConfusion,
      modifyIn_ok.mpr ⟨acc, hacc, rfl⟩⟩⟩⟩⟩

theorem same_chargeInCall (hw : w.Fair k) (hs : Solvent s)
    (h : 0 < amount → amount ≤ (s.account a).assets.qi → b ∈ s.accounts ∧ Unwinds s a amount) :
    Same w.weigh s (after (chargeInCall b a amount) s) := by
  refine Moves.read_at moves_getBalance fun v hv ↦ ?_
  obtain rfl := account_of_getBalance hv
  refine Moves.read_at moves_require fun _ hle ↦ ?_
  have hle := (require_ok.mp hle).1
  by_cases hpos : 0 < amount
  · obtain ⟨hb, hunwinds⟩ := h hpos hle
    obtain ⟨t, u, hdebit, hadore, -, hmem, -⟩ := debit_unwinds hs hunwinds hle
    obtain ⟨v, hreward⟩ := @modifyRewardBalance_of _ _ 0 0 amount (hmem b hb)
    exact same_of_ok (shifts_rewardFeigang hw) ⟨_, bind_ok.mpr ⟨amount, s, rfl,
      bind_ok.mpr ⟨⟨⟩, s, require_of hpos, bind_ok.mpr ⟨amount, s, rfl, bind_ok.mpr ⟨⟨⟩, t, hdebit,
        bind_ok.mpr ⟨amount, t, rfl, bind_ok.mpr ⟨⟨⟩, u, hadore, bind_ok.mpr ⟨amount, u, rfl,
          bind_ok.mpr ⟨⟨⟩, v, hreward, bind_ok.mpr ⟨amount, v, rfl, rfl⟩⟩⟩⟩⟩⟩⟩⟩⟩⟩
  · -- nothing is charged
    refine Moves.read_at (Moves.pure amount) fun v hv ↦ ?_
    cases hv
    exact Moves.read_at moves_require fun _ hr ↦ absurd (require_ok.mp hr).1 hpos

theorem same_takeQi (hw : w.Fair k) (hs : Solvent s) :
    Same w.weigh s (after (takeQi caller n amount) s) := by
  refine Moves.read_at moves_requireOperator fun _ _ ↦ ?_
  refine Moves.read_at moves_getNfaBalance fun _ hv ↦ ?_
  obtain ⟨⟨m, hm, rfl⟩, -⟩ := getNfaBalance_ok.mp hv
  refine Moves.read_at moves_require fun _ hle ↦ ?_
  have hle := (require_ok.mp hle).1
  by_cases hpos : 0 < amount
  · have hdebit := adjustNfaBalance_of hm (show 0 ≤ m.assets.get .qi + -amount by omega)
    obtain ⟨t, hreward⟩ := @modifyRewardBalance_of _ _ 0 0 amount
      (solvent_adjustNfaBalance.ends hdebit hs).treasury
    exact same_of_ok (shifts_rewardFeigangFromNfa hw) ⟨_, bind_ok.mpr ⟨⟨⟩, s, require_of hpos,
      bind_ok.mpr ⟨⟨⟩, _, hdebit, bind_ok.mpr ⟨⟨⟩, t, hreward, rfl⟩⟩⟩⟩
  · exact Moves.read_at moves_require fun _ hr ↦ absurd (require_ok.mp hr).1 hpos

/-- A deposit of QI is booked whole when the adores of the account can be lowered. -/
theorem same_depositByContract (hw : w.Fair k) (hs : Solvent s)
    (h : symbol = .qi → 0 < amount → amount ≤ (s.account a).assets.qi → Unwinds s a amount) :
    Same w.weigh s (after (depositByContract caller a n amount symbol) s) := by
  refine Moves.read_at moves_require fun _ _ ↦ ?_
  refine Moves.read_at moves_getAccount fun _ _ ↦ ?_
  refine Moves.read_at moves_getNfa fun _ hn ↦ ?_
  refine Moves.read_at moves_getBalance fun _ hv ↦ ?_
  refine Moves.read_at moves_require fun _ hle ↦ ?_
  refine Moves.read_at moves_require fun _ hpos ↦ ?_
  have hn : n ∈ s.nfas := mem_of_getNfa hn
  have hpos := (require_ok.mp hpos).1
  have hle := (require_ok.mp hle).1
  have hpaid : Shifts w.weigh (adjustNfaBalance n amount symbol) (w.assets.get symbol * amount) :=
    .of_eq shifts_adjustNfaBalance (by rw [hw.nfa])
  by_cases hsymbol : symbol = .qi
  · subst hsymbol
    obtain rfl := account_of_getBalance hv
    rcases hpos.eq_or_lt with hzero | hpos
    · -- nothing is deposited
      subst hzero
      exact (Moves.bind moves_adjustBalance_zero fun _ ↦ .bind moves_adjustProxied fun _ ↦
        moves_adjustNfaBalance_zero : Moves (Same w.weigh) _) s
    · obtain ⟨t, u, hdebit, hadore, hsolvent, -, hnfas⟩ := debit_unwinds hs (h rfl hpos hle) hle
      obtain ⟨v, hcredit⟩ := @credits_nfa _ n _ .qi hsolvent (hnfas ▸ hn) hpos.le
      refine same_of_ok (.of_eq (.bind shifts_adjustBalance fun _ ↦
        .read shifts_adjustProxied fun _ ↦ hpaid) (by ring)) ⟨v, ?_⟩
      exact bind_ok.mpr ⟨⟨⟩, t, hdebit, bind_ok.mpr ⟨⟨⟩, u, hadore, hcredit⟩⟩
  · obtain ⟨⟨acc, hacc, rfl⟩, -⟩ := getBalance_ok.mp hv
    have hdebit := adjustBalance_of hacc (show 0 ≤ acc.assets.get symbol + -amount by omega)
    simp only [if_neg hsymbol]
    exact same_of_pair hdebit (credits_nfa (solvent_adjustBalance.ends hdebit hs) hn hpos)
      (.of_eq (.bind shifts_adjustBalance fun _ ↦ hpaid) (by ring))

end Charges

section Nfas

variable {hash : ℕ → ℕ} {s : State} {caller cult n seed value : ℕ}

/-- What an NFA loses of its material, the treasury gains. -/
theorem same_consumeNfaMaterialRandom (hw : w.Fair k) (hs : Solvent s) :
    Same w.weigh s (after (consumeNfaMaterialRandom hash n seed) s) := by
  refine Moves.read_at moves_getNfa fun v hv ↦ ?_
  refine Moves.read_at moves_getMaterial fun _ hmat ↦ ?_
  obtain ⟨u, hu, hhas, rfl⟩ := getMaterial_ok hmat
  cases (getNfa_ok.mp hv).1.symm.trans hu
  split
  · generalize ((v.minEquivalentQi / 50 : ℕ) : ℤ) = base
    have hmaterial : ∀ l : List Resource, ∃ t,
        (l.forM fun r ↦ adjustMaterial n (-consumed hash v.material base seed r) r).run s =
          .ok ⟨⟩ t ∧ Solvent t ∧ HasMaterial t n := fun l ↦
      forM_succeeds (fun t ↦ Solvent t ∧ HasMaterial t n)
        (fun _ _ _ ht ↦ adjustMaterial_succeeds ht.1 ht.2) ⟨hs, v, hu, hhas⟩
    have hcredit : ∀ (l : List Resource) (t : State), Solvent t → ∃ q,
        (l.forM fun r ↦ adjustBalance taiyiDaoAccount (consumed hash v.material base seed r)
          (.resource r)).run t = .ok ⟨⟩ q := fun l t ht ↦ by
      obtain ⟨q, hq, -⟩ := forM_succeeds Solvent (fun r _ t ht ↦ by
        obtain ⟨q, hq⟩ := @credits_account _ taiyiDaoAccount (consumed hash v.material base seed r)
          (.resource r) ht ht.treasury (le_max_left 0 _)
        exact ⟨q, hq, solvent_adjustBalance.ends hq ht⟩) ht
      exact ⟨q, hq⟩
    obtain ⟨t, ht, hsolvent, -⟩ := hmaterial [.gold, .food, .wood, .fabric, .herb]
    have hmoved : ∀ l : List Resource, Shifts w.weigh (do
        l.forM fun r ↦ adjustMaterial n (-consumed hash v.material base seed r) r
        l.forM fun r ↦ adjustBalance taiyiDaoAccount (consumed hash v.material base seed r)
          (.resource r)) 0 := fun l ↦ by
      refine .of_eq (.bind (.forM fun r _ ↦ shifts_adjustMaterial) fun _ ↦
        .forM fun r _ ↦ shifts_adjustBalance) ?_
      rw [← List.sum_map_add]
      refine List.sum_eq_zero fun x hx ↦ ?_
      obtain ⟨r, -, rfl⟩ := List.mem_map.mp hx
      rw [hw.material, Purse.get]
      ring
    exact same_of_pair ht (hcredit _ t hsolvent) (hmoved _)
  · exact (Moves.pure () : Moves (Same w.weigh) (pure () : Call Unit)) s

theorem moves_createNfa {creator minQi : ℕ} {ok : Bool} :
    Moves (Same w.weigh) (createNfa n creator minQi ok) := by
  intro s
  refine Moves.read_at .get fun s' hs' ↦ ?_
  cases hs'
  refine Moves.read_at moves_require fun _ hr ↦ ?_
  have hnew := (require_ok.mp hr).1
  have hlast : Moves (Same w.weigh) (do
      require ok "the init function failed"
      modifyNfa n fun nfa ↦ { nfa with hasMaterial := true }) :=
    .bind moves_require fun _ ↦ moves_modifyNfa_weigh fun _ ↦ rfl
  refine Moves.bind_at ?_ fun _ t _ ↦ hlast t
  exact weigh_newNfa hnew rfl rfl rfl

theorem moves_createCultivation {manager time : ℕ} {entries : List (ℕ × ℤ)} :
    Moves (Same w.weigh) (createCultivation caller cult manager entries time) :=
  .bind moves_requireOperator fun _ ↦
    .bind (.forM fun _ _ ↦ .bind moves_getNfa fun _ ↦ moves_require) fun _ ↦
    .bind moves_require fun _ ↦ .bind moves_require fun _ ↦
    .bind (.forM fun _ _ ↦ .bind moves_getNfa fun _ ↦ moves_require) fun _ ↦
    .bind moves_require fun _ ↦ .bind .get fun _ ↦ .bind moves_require fun _ ↦ .update fun _ ↦ rfl

/-- The NFA has put in nothing before. -/
theorem same_participate (hw : w.Fair k) :
    Same w.weigh s (after (participateCultivation caller cult n value) s) := by
  refine Moves.read_at moves_getCultivation fun c hc ↦ ?_
  refine Moves.read_at moves_require fun _ _ ↦ ?_
  refine Moves.read_at moves_requireOperator fun _ _ ↦ ?_
  refine Moves.read_at moves_getNfa fun v hv ↦ ?_
  refine Moves.read_at moves_require fun _ hnone ↦ ?_
  refine Moves.read_at moves_require fun _ _ ↦ ?_
  refine Moves.read_at moves_require fun _ _ ↦ ?_
  have hc := (getCultivation_ok.mp hc).1
  have hv := (getNfa_ok.mp hv).1
  have hnone := (require_ok.mp hnone).1
  refine Moves.bind_at (moves_modifyCultivation s) fun _ t ht ↦ ?_
  have hv : t.nfas[n]? = some v := by
    obtain ⟨_, -, rfl⟩ := modifyIn_ok.mp ht
    exact hv
  have hput : (modifyNfa n fun n ↦
      { n with
        cultivationValue := value
        assets := n.assets.add (-value) .qi }).run t = .ok ⟨⟩ _ := modifyIn_ok.mpr ⟨v, hv, rfl⟩
  have hprops : Shifts w.weigh (modifyProps fun p ↦
      { p with
        totalQi := p.totalQi - value
        pendingCultivationQi := p.pendingCultivationQi + value })
      (-(w.pendingCultivationQi * value - w.totalQi * value)) := by
    apply shifts_modifyProps
    intro p
    simp only [Weights.props]
    ring
  rw [after_bind_ok hput]
  refine (hprops _ ⟨⟩ _ rfl).trans ?_
  simp only [Weights.weigh, rowSum_insert _ hv, Weights.ofNfa, Purse.dot_add, Purse.get, hw.nfa,
    hw.qi, hw.cultivation, hnone]
  push_cast
  ring

theorem moves_start : Moves (Same w.weigh) (startCultivation caller cult) :=
  .bind moves_getCultivation fun _ ↦ .bind moves_requireOperator fun _ ↦
    .bind moves_require fun _ ↦ .bind moves_require fun _ ↦ .bind .get fun _ ↦
    moves_modifyCultivation

theorem moves_update : Moves (Same w.weigh) (updateCultivation hash cult seed) := by
  refine .bind moves_getCultivation fun _ ↦ .bind moves_require fun _ ↦ .bind .get fun _ ↦
    .bind moves_require fun _ ↦ .ite (fun _ ↦ ?_) fun _ ↦ .pure _
  exact .bind moves_zoneOfActor fun _ ↦ .bind moves_energy fun _ ↦
    .bind moves_gatherParticipants fun _ ↦ .bind moves_efficiency fun _ ↦
    .ite (fun _ ↦ moves_modifyCultivation) fun _ ↦ .pure _

end Nfas

end Taiyi.Ledger
