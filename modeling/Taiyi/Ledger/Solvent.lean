import Taiyi.Ledger.Reserved

set_option autoImplicit false

namespace Taiyi.Ledger

open Library.IdMap Library.Outcome Library.Frame

/-- No amount is negative. -/
def Purse.Solvent (p : Purse) : Prop := ∀ symbol, 0 ≤ p.get symbol

structure Account.Solvent (a : Account) : Prop where
  assets : a.assets.Solvent
  toWithdraw : 0 ≤ a.toWithdraw
  rate : 0 ≤ a.qiWithdrawRate

/-- Nobody holds less than nothing, and the treasury has its account. -/
structure Solvent (s : State) : Prop where
  account : ∀ (a : ℕ) (acc : Account), s.accounts[a]? = some acc → acc.Solvent
  nfa : ∀ (id : ℕ) (n : Nfa), s.nfas[id]? = some n → n.assets.Solvent
  treasury : taiyiDaoAccount ∈ s.accounts

section Writes

variable {s t : State} {a n : ℕ} {delta : ℤ} {symbol : Symbol} {p : Purse}

theorem Purse.solvent_empty : ({} : Purse).Solvent := by
  intro symbol
  cases symbol with
  | yang => exact le_rfl
  | qi => exact le_rfl
  | resource r => cases r <;> exact le_rfl

theorem Purse.Solvent.add (h : p.Solvent) (hd : 0 ≤ p.get symbol + delta) :
    (p.add delta symbol).Solvent := by
  intro b
  rw [Purse.get_add]
  split
  · next hb => exact hb ▸ hd
  · exact h b

theorem Account.solvent_empty : ({} : Account).Solvent := ⟨Purse.solvent_empty, le_rfl, le_rfl⟩

theorem Solvent.at (hs : Solvent s) (a : ℕ) : (s.account a).Solvent := by
  unfold State.account
  cases ha : s.accounts[a]? with
  | none => exact Account.solvent_empty
  | some acc => exact hs.account a acc ha

theorem Solvent.insertAccount {acc : Account} (hs : Solvent s) (h : acc.Solvent) :
    Solvent { s with accounts := s.accounts.insert a acc } where
  account b v hb := by
    change (s.accounts.insert a acc)[b]? = some v at hb
    rw [getElem?_insert] at hb
    split at hb
    · cases hb
      exact h
    · exact hs.account b v hb
  nfa := hs.nfa
  treasury := (mem_insert _ _ _ _).mpr (.inr hs.treasury)

theorem Solvent.insertNfa {v : Nfa} (hs : Solvent s) (h : v.assets.Solvent) :
    Solvent { s with nfas := s.nfas.insert n v } where
  account := hs.account
  nfa b w hb := by
    change (s.nfas.insert n v)[b]? = some w at hb
    rw [getElem?_insert] at hb
    split at hb
    · cases hb
      exact h
    · exact hs.nfa b w hb
  treasury := hs.treasury

/-- Solvency is about accounts and NFAs. -/
theorem Solvent.congr (hs : Solvent s) (ha : t.accounts = s.accounts) (hn : t.nfas = s.nfas) :
    Solvent t :=
  ⟨fun b acc hb ↦ hs.account b acc (ha ▸ hb), fun b v hb ↦ hs.nfa b v (hn ▸ hb),
    ha ▸ hs.treasury⟩

theorem solvent_modifyAccount_at {f : Account → Account}
    (h : ∀ acc, s.accounts[a]? = some acc → acc.Solvent → (f acc).Solvent) :
    Holds Solvent s (after (modifyAccount a f) s) :=
  modifyIn_at fun acc hacc hs ↦ hs.insertAccount (h acc hacc (hs.account a acc hacc))

theorem solvent_modifyAccount {f : Account → Account} (h : ∀ acc, acc.Solvent → (f acc).Solvent) :
    Moves (Holds Solvent) (modifyAccount a f) :=
  fun _ ↦ solvent_modifyAccount_at fun acc _ ↦ h acc

theorem solvent_modifyNfa_at {f : Nfa → Nfa}
    (h : ∀ v, s.nfas[n]? = some v → v.assets.Solvent → (f v).assets.Solvent) :
    Holds Solvent s (after (modifyNfa n f) s) :=
  modifyIn_at fun v hv hs ↦ hs.insertNfa (h v hv (hs.nfa n v hv))

theorem getBalance_ok {v : ℤ} :
    (getBalance a symbol).run s = .ok v t ↔
      (∃ acc, s.accounts[a]? = some acc ∧ v = acc.assets.get symbol) ∧ t = s := by
  unfold getBalance
  simp only [bind_ok, getAccount_ok]
  constructor
  · rintro ⟨acc, _, ⟨hacc, rfl⟩, h⟩
    cases h
    exact ⟨⟨acc, hacc, rfl⟩, rfl⟩
  · rintro ⟨⟨acc, hacc, rfl⟩, rfl⟩
    exact ⟨acc, t, ⟨hacc, rfl⟩, rfl⟩

theorem getNfaBalance_ok {v : ℤ} :
    (getNfaBalance n symbol).run s = .ok v t ↔
      (∃ m, s.nfas[n]? = some m ∧ v = m.assets.get symbol) ∧ t = s := by
  unfold getNfaBalance
  simp only [bind_ok, getNfa_ok]
  constructor
  · rintro ⟨m, _, ⟨hm, rfl⟩, h⟩
    cases h
    exact ⟨⟨m, hm, rfl⟩, rfl⟩
  · rintro ⟨⟨m, hm, rfl⟩, rfl⟩
    exact ⟨m, t, ⟨hm, rfl⟩, rfl⟩

theorem solvent_adjustBalance : Moves (Holds Solvent) (adjustBalance a delta symbol) := by
  intro s
  refine Moves.read_at moves_getBalance fun _ _ ↦ ?_
  refine Moves.read_at moves_require fun _ _ ↦ ?_
  refine Moves.read_at moves_getBalance fun v hv ↦ ?_
  obtain ⟨⟨acc, hacc, rfl⟩, -⟩ := getBalance_ok.mp hv
  refine Moves.read_at moves_require fun _ hr ↦ solvent_modifyAccount_at fun b hb h ↦ ?_
  cases hacc.symm.trans hb
  exact ⟨h.assets.add (require_ok.mp hr).1, h.toWithdraw, h.rate⟩

/-- A debit of an NFA is checked against its balance. -/
theorem solvent_adjustNfaBalance : Moves (Holds Solvent) (adjustNfaBalance n delta symbol) := by
  intro s
  refine Moves.read_at moves_getNfaBalance fun v hv ↦ ?_
  obtain ⟨⟨m, hm, rfl⟩, -⟩ := getNfaBalance_ok.mp hv
  refine Moves.read_at moves_require fun _ hr ↦ ?_
  have hlow := (require_ok.mp hr).1
  have hwrite : Holds Solvent s
      (after (modifyNfa n fun nfa ↦ { nfa with assets := nfa.assets.add delta symbol }) s) :=
    solvent_modifyNfa_at fun b hb h ↦ by
      cases hm.symm.trans hb
      have := h symbol
      exact h.add (by omega)
  split
  · exact Moves.read_at moves_getNfaBalance fun _ _ ↦ Moves.read_at moves_require fun _ _ ↦ hwrite
  · exact hwrite

end Writes

section Parts

variable {s : State} {a : ℕ}

theorem solvent_of_same {α : Type} {x : Call α}
    (h : Moves (Same fun s : State ↦ (s.accounts, s.nfas)) x) : Moves (Holds Solvent) x :=
  h.mono fun _ _ hst hs ↦ hs.congr (congrArg Prod.fst hst) (congrArg Prod.snd hst)

theorem solvent_modifyProps {f : Props → Props} : Moves (Holds Solvent) (modifyProps f) :=
  .update fun _ hs ↦ hs.congr rfl rfl

theorem solvent_modifyFund {id : ℕ} {f : RewardFund → RewardFund} :
    Moves (Holds Solvent) (modifyFund id f) := moves_modifyIn fun _ _ _ hs ↦ hs.congr rfl rfl

instance : FramesParts (Holds Solvent) where
  balance := solvent_adjustBalance
  rewardBalance := .bind moves_getAccount fun _ ↦ .bind moves_require fun _ ↦
    .bind moves_require fun _ ↦ solvent_modifyAccount fun _ h ↦ ⟨h.assets, h.toWithdraw, h.rate⟩
  nfaBalance := solvent_adjustNfaBalance
  account h := solvent_modifyAccount fun acc hs ↦ by
    have hh := (h acc).2
    simp only [Account.holdings, Prod.mk.injEq] at hh
    obtain ⟨ha, hw, hr⟩ := hh
    exact ⟨ha ▸ hs.assets, hw ▸ hs.toWithdraw, hr ▸ hs.rate⟩
  reward h := solvent_modifyAccount fun acc hs ↦
    ⟨hs.assets.add (add_nonneg (hs.assets _) h), hs.toWithdraw, hs.rate⟩
  schedule hr hw := solvent_modifyAccount fun _ hs ↦ ⟨hs.assets, hw, hr⟩
  nfa h := fun s ↦ solvent_modifyNfa_at fun v _ hv ↦ (h v).2.2 ▸ hv
  siming := moves_modifyIn fun _ _ _ hs ↦ hs.congr rfl rfl
  fund := solvent_modifyFund
  props _ := solvent_modifyProps
  newAccount _ hs := hs.insertAccount Account.solvent_empty
  newSiming hs := hs.congr rfl rfl
  declines hs := hs.congr rfl rfl

instance : FramesNfaParts (Holds Solvent) where
  balance := solvent_adjustNfaBalance
  joins {_ _ value n} hn hle hs := by
    have hqi : 0 ≤ n.assets.get .qi + -(value : ℤ) := by
      change 0 ≤ n.assets.qi + _
      omega
    exact hs.insertNfa ((hs.nfa _ _ hn).add hqi)
  repay := fun s ↦ solvent_modifyNfa_at fun v _ hv ↦
    hv.add (add_nonneg (hv .qi) (Int.natCast_nonneg _))
  material := fun s ↦ solvent_modifyNfa_at fun _ _ hv ↦ hv
  cultivation := moves_modifyIn fun _ _ _ hs ↦ hs.congr rfl rfl
  cultivations hs := hs.congr rfl rfl
  newNfa h hs := hs.insertNfa (h ▸ Purse.solvent_empty)
  fund := solvent_modifyFund
  props _ := solvent_modifyProps

end Parts

section Withdrawals

variable {s : State} {a : ℕ} {due : ℤ}

theorem Account.Solvent.dueAmount {acc : Account} (h : acc.Solvent) :
    0 ≤ acc.dueAmount ∧ acc.dueAmount ≤ acc.assets.qi := by
  have hqi : 0 ≤ acc.assets.qi := h.assets .qi
  have hr := h.rate
  have hw := h.toWithdraw
  have hmod : 0 ≤ acc.toWithdraw % acc.qiWithdrawRate := by
    rcases eq_or_ne acc.qiWithdrawRate 0 with hz | hz
    · rwa [hz, Int.emod_zero]
    · exact Int.emod_nonneg _ hz
  unfold Account.dueAmount
  split <;> omega

theorem solvent_vestPart {r : ℕ × Route} : Moves (Holds Solvent) (vestPart due r) :=
  .ite (fun hpos ↦ .bind (solvent_modifyAccount fun _ h ↦
      ⟨h.assets.add (add_nonneg (h.assets _) hpos.le), h.toWithdraw, h.rate⟩) fun _ ↦
    frames_adjustProxied) fun _ ↦ .pure _

theorem solvent_convertPart {r : ℕ × Route} : Moves (Holds Solvent) (convertPart due r) := by
  intro s
  refine Moves.read_at moves_getAccount fun _ _ ↦ ?_
  refine Moves.read_at moves_timesPrice fun yang hyang ↦ ?_
  obtain ⟨⟨hpart, rfl⟩, -⟩ := qiToYang_ok.mp hyang
  have hyang : 0 ≤ r.2.part due / 1000 := Int.ediv_nonneg hpart (by decide)
  have hcredit : Moves (Holds Solvent) (modifyAccount r.1 fun a ↦
      { a with assets := a.assets.add (r.2.part due / 1000) .yang }) :=
    solvent_modifyAccount fun _ h ↦
      ⟨h.assets.add (add_nonneg (h.assets _) hyang), h.toWithdraw, h.rate⟩
  exact (Moves.ite (fun _ ↦ .bind hcredit fun _ ↦ solvent_modifyProps) fun _ ↦ .pure _ :
    Moves (Holds Solvent) _) s

/-- The parts that go to others take nothing of what the account itself is to be debited. -/
theorem solvent_withdrawTurn : Moves (Holds Solvent) (withdrawTurn a) := by
  intro s hs
  refine Moves.read_at (R := Holds Solvent) moves_getAccount (fun acc hacc ↦ ?_) hs
  obtain ⟨hacc, -⟩ := getAccount_ok.mp hacc
  obtain ⟨hdue, hle⟩ := (hs.account a acc hacc).dueAmount
  have hvest : Moves (Holds Solvent) (acc.vestRoutes.forM (vestPart acc.dueAmount)) :=
    .forM fun _ _ ↦ solvent_vestPart
  have hyang : Moves (Holds Solvent) (acc.yangRoutes.forM (convertPart acc.dueAmount)) :=
    .forM fun _ _ ↦ solvent_convertPart
  refine Moves.bind_at (hvest s) fun _ u hu ↦ ?_
  refine Moves.bind_at (hyang u) fun _ v hv ↦ ?_
  have hspared : Spends 0 s v := IsTrans.trans _ _ _
    (Moves.ends (.forM fun _ _ ↦ spares_vestPart) hu)
    (Moves.ends (.forM fun _ _ ↦ spares_convertPart) hv)
  have hqi : acc.assets.qi ≤ (v.account a).assets.qi := by
    have h := hspared.qi a
    rw [State.account, hacc] at h
    simpa using h
  refine Moves.read_at moves_require fun _ _ ↦ ?_
  refine Moves.read_at moves_timesPrice fun yang hprice ↦ ?_
  obtain ⟨⟨hrest, rfl⟩, -⟩ := qiToYang_ok.mp hprice
  refine Moves.bind_at (solvent_modifyAccount_at fun b hb h ↦ ?_) fun _ w _ ↦ ?_
  · rw [State.account, hb] at hqi
    have hdebit : 0 ≤ b.assets.get .qi + -acc.dueAmount := by
      simp only [Option.getD_some] at hqi
      change 0 ≤ b.assets.qi + _
      omega
    have hpurse := (h.assets.add hdebit).add
      (add_nonneg ((h.assets.add hdebit) .yang) (Int.ediv_nonneg hrest (by decide : (0 : ℤ) ≤ 1000)))
    refine ⟨hpurse, h.toWithdraw, ?_⟩
    unfold Account.afterWithdrawal
    dsimp only
    split
    · exact le_rfl
    · exact h.rate
  · have hlast : Moves (Holds Solvent) (do
        modifyProps fun p ↦ { p with totalQi := p.totalQi - (acc.dueAmount -
          parts acc.yangRoutes acc.dueAmount - parts acc.vestRoutes acc.dueAmount) }
        if 0 < acc.dueAmount then adjustProxiedSimingAdores a (-acc.dueAmount)) :=
      .bind solvent_modifyProps fun _ ↦ .ite (fun _ ↦ frames_adjustProxied) fun _ ↦ .pure _
    exact hlast w

end Withdrawals

section Runs

variable {s t : State} {hash : ℕ → ℕ}

theorem solvent_outside (o : Outside) : Moves (Holds Solvent) o.apply := by
  cases o with
  | headBlock =>
    exact .bind .get fun _ ↦ .bind moves_require fun _ ↦ .update fun _ hs ↦ hs.congr rfl rfl
  | changeOwner => exact fun s ↦ solvent_modifyNfa_at fun _ _ h ↦ h
  | setTick => exact fun s ↦ solvent_modifyNfa_at fun _ _ h ↦ h
  | delegateQi => exact solvent_modifyAccount fun _ h ↦ ⟨h.assets, h.toWithdraw, h.rate⟩
  | createActor => exact .bind moves_getMaterial fun _ ↦ .update fun _ hs ↦ hs.congr rfl rfl
  | settleActor =>
    exact .bind .get fun _ ↦ .bind moves_lookup fun _ ↦ moves_modifyIn fun _ _ _ hs ↦ hs.congr rfl rfl
  | createZone => exact .bind moves_getMaterial fun _ ↦ .update fun _ hs ↦ hs.congr rfl rfl

theorem solvent_step {act : Action} (h : act.step hash s = some t) (hs : Solvent s) : Solvent t := by
  have ht := after_of_step h
  have hset : ∀ {a : ℕ} {f : Account → Account}, (∀ acc, (f acc).holdings = acc.holdings) →
      Moves (Holds Solvent) (modifyAccount a f) := fun hf ↦ solvent_modifyAccount fun acc h ↦ by
    have hh := hf acc
    simp only [Account.holdings, Prod.mk.injEq] at hh
    obtain ⟨ha, hw, hr⟩ := hh
    exact ⟨ha ▸ h.assets, hw ▸ h.toWithdraw, hr ▸ h.rate⟩
  cases act with
  | operation o => exact (frames_operation o fun _ _ _ ↦ hset fun _ ↦ rfl).ends ht hs
  | contract c => exact ht ▸ (frames_call c : Moves (Holds Solvent) (c.apply hash)) s hs
  | routine r =>
    exact (frames_routine r (fun _ ↦ solvent_withdrawTurn) fun _ ↦ hset fun _ ↦ rfl).ends ht hs
  | outside o => exact (solvent_outside o).ends ht hs

theorem solvent_genesis (initSupply initQiSupply : ℕ) : Solvent (genesis initSupply initQiSupply) where
  account a acc h := by
    have hcases : acc = {} ∨ acc = { assets := { yang := initSupply, qi := initQiSupply } } := by
      simp only [genesis, getElem?_insert] at h
      repeat' split at h
      all_goals first | (cases h; simp) | simp at h
    rcases hcases with rfl | rfl
    · exact Account.solvent_empty
    · refine ⟨fun symbol ↦ ?_, le_rfl, le_rfl⟩
      cases symbol with
      | yang => exact Int.natCast_nonneg _
      | qi => exact Int.natCast_nonneg _
      | resource r => exact Purse.solvent_empty (.resource r)
  nfa id n h := by
    simp only [genesis, getElem?_insert] at h
    split at h
    · cases h
      exact Purse.solvent_empty
    · simp at h
  treasury := by
    simp only [genesis, mem_insert]
    simp

theorem solvent_of_reaches {P : State → Action → Prop} {initSupply initQiSupply : ℕ}
    (h : Reaches hash P (genesis initSupply initQiSupply) s) : Solvent s := by
  induction h with
  | start => exact solvent_genesis initSupply initQiSupply
  | step act _ _ hstep ih => exact solvent_step hstep ih

end Runs

end Taiyi.Ledger
