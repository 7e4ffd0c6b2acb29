import Taiyi.Ledger.Solvent
import Taiyi.Ledger.Tally

set_option autoImplicit false

namespace Taiyi.Ledger

open Library.Meter Library.IdMap Library.Frame Library.Outcome

variable {s s₀ t : State} {a b n id : ℕ} {c : Cell} {delta amount : ℤ} {u : Unit}

/-- What comes after a check may rely on it. -/
theorem guard_shifts {P : State → Prop} {α : Type} {m : State → Cell → ℤ} {d : Cell → ℤ} {c : Prop}
    [Decidable c] {msg : String} {f : Unit → Call α} (h : c → ShiftsOn P m (f ⟨⟩) d) :
    ShiftsOn P m (require c msg >>= f) d := by
  intro s v t hs hr
  obtain ⟨hc, hr⟩ := after_require hr
  exact h hc s v t hs hr

namespace State

/-- What the cells count more than the QI of the accounts that adore through them. -/
def excess (behind : ℕ → List Cell) (s : State) (c : Cell) : ℤ := s.count c - s.qiIn behind c

/-- A change of the QI of an account as the cells are to count it. -/
def counted (s : State) (a : ℕ) (delta : ℤ) (c : Cell) : ℤ := delta * ind c (s.behind a)

theorem counted_neg : s.counted a (-delta) = -s.counted a delta := funext fun _ ↦ neg_mul ..

end State

/-- Everybody adores as before, and there are the same cells. -/
structure Like (s₀ s : State) : Prop where
  adoring : s.adoring = s₀.adoring
  cells : ∀ c, (s.adored c).isSome = (s₀.adored c).isSome

theorem Like.behind (h : Like s₀ s) : s.behind = s₀.behind := funext fun _ ↦ cells_congr h.adoring

theorem Linked.of_like (hl : Linked s) (h : Like s t) : Linked t := by
  have hproxy : t.proxies 0 = s.proxies 0 := congrArg Prod.fst (congrFun h.adoring 0)
  have hadores : (t.account 0).adores = (s.account 0).adores :=
    congrArg Prod.snd (congrFun h.adoring 0)
  refine hl.relinked h.cells (fun b _ ↦ congrFun h.adoring b) (fun p hp ↦ ?_) fun w hw ↦
    hl.simings 0 w (hadores ▸ hw)
  rw [hproxy] at hp
  exact ⟨hl.proxies 0 p hp, hadores.trans (hl.free 0 p hp)⟩

/-- Everybody adores as before, and what the cells count is as far from the QI behind them. -/
structure Evens (s t : State) : Prop where
  like : Like s t
  excess : ∀ behind, t.excess behind = s.excess behind

instance : IsPreorder State Evens where
  refl _ := ⟨⟨rfl, fun _ ↦ rfl⟩, fun _ ↦ rfl⟩
  trans _ _ _ h h' :=
    ⟨⟨h'.like.adoring.trans h.like.adoring, fun c ↦ (h'.like.cells c).trans (h.like.cells c)⟩,
      fun l ↦ (h'.excess l).trans (h.excess l)⟩

/-- The cells gain this much against the QI behind them. -/
abbrev Accrues {α : Type} (s₀ : State) (x : Call α) (d : Cell → ℤ) : Prop :=
  ShiftsOn (Like s₀) (State.excess s₀.behind) x d

theorem even {α : Type} {x : Call α} (hx : Moves Evens x) : Accrues s₀ x 0 := by
  intro s a t hs h
  have hst := hx.ends h
  exact ⟨⟨hst.like.adoring.trans hs.adoring, fun c ↦ (hst.like.cells c).trans (hs.cells c)⟩,
    (hst.excess _).trans (add_zero _).symm⟩

theorem Audited.of_like (h : Audited s) (hlike : Like s t)
    (hexcess : t.excess s.behind = s.excess s.behind) : Audited t := by
  refine ⟨fun c ↦ ?_, h.linked.of_like hlike⟩
  have hc := congrFun hexcess c
  simp only [State.excess, h.tallied c, sub_self] at hc
  rw [hlike.behind]
  exact sub_eq_zero.mp hc

theorem audited_of_evens {α : Type} {x : Call α} (hx : Moves Evens x) : Moves (Holds Audited) x :=
  hx.mono fun _ _ hst h ↦ h.of_like hst.like (hst.excess _)

/-- The books stay right where nothing is gained. -/
theorem audited_of_accrues {α : Type} {x : Call α} {v : α} (h : Audited s)
    (hx : Accrues s x 0) (hrun : x.run s = .ok v t) : Audited t := by
  obtain ⟨hlike, hexcess⟩ := hx s v t ⟨rfl, fun _ ↦ rfl⟩ hrun
  exact h.of_like hlike (hexcess.trans (add_zero _))

theorem audited_of_ok {x : Call Unit} (hx : Linked s → Accrues s x 0)
    (hrun : ∃ t, x.run s = .ok ⟨⟩ t) : Holds Audited s (after x s) := fun h ↦ by
  obtain ⟨t, ht⟩ := hrun
  exact after_ok ht ▸ audited_of_accrues h (hx h.linked) ht

section Writes

/-- The write of an account that changes its QI. -/
theorem accrued_insert {f : Account → Account} {acc : Account} (hacc : s.accounts[a]? = some acc)
    (hf : (f acc).proxy = acc.proxy ∧ (f acc).adores = acc.adores ∧
      (f acc).proxiedVsfAdores = acc.proxiedVsfAdores ∧ (f acc).assets.qi = acc.assets.qi + delta) :
    Like s { s with accounts := s.accounts.insert a (f acc) } ∧
      ∀ behind c, State.excess behind { s with accounts := s.accounts.insert a (f acc) } c =
        s.excess behind c - delta * ind c (behind a) := by
  have hadored : State.adored { s with accounts := s.accounts.insert a (f acc) } = s.adored := by
    funext c
    cases c with
    | siming w => rfl
    | proxied b i =>
      simp only [State.adored, getElem?_insert]
      split
      · next hb => rw [← hb, hacc, Option.map_some, Option.map_some, hf.2.2.1]
      · rfl
  refine ⟨⟨?_, fun c ↦ by rw [hadored]⟩, fun behind c ↦ ?_⟩
  · funext b
    simp only [State.adoring, State.account, getElem?_insert]
    split
    · next hb => rw [← hb, hacc, Option.getD_some, Option.getD_some, hf.1, hf.2.1]
    · rfl
  · simp only [State.excess, State.count, hadored, State.qiIn, rowSum_insert _ hacc, hf.2.2.2]
    ring

theorem accrues_modifyAccount {f : Account → Account}
    (hf : ∀ acc, (f acc).proxy = acc.proxy ∧ (f acc).adores = acc.adores ∧
      (f acc).proxiedVsfAdores = acc.proxiedVsfAdores ∧ (f acc).assets.qi = acc.assets.qi + delta) :
    Accrues s₀ (modifyAccount a f) (-s₀.counted a delta) := by
  intro s _ t hs h
  obtain ⟨acc, hacc, rfl⟩ := modifyIn_ok.mp h
  obtain ⟨hlike, hexcess⟩ := accrued_insert hacc (hf acc)
  exact ⟨⟨hlike.adoring.trans hs.adoring, fun c ↦ (hlike.cells c).trans (hs.cells c)⟩,
    funext fun c ↦ (hexcess _ c).trans (sub_eq_add_neg _ _)⟩

theorem evens_modifyAccount {f : Account → Account}
    (hf : ∀ acc, (f acc).proxy = acc.proxy ∧ (f acc).adores = acc.adores ∧
      (f acc).proxiedVsfAdores = acc.proxiedVsfAdores ∧ (f acc).assets.qi = acc.assets.qi) :
    Moves Evens (modifyAccount a f) := by
  refine moves_modifyIn fun s acc hacc ↦ ?_
  obtain ⟨hp, ha, hv, hq⟩ := hf acc
  obtain ⟨hlike, hexcess⟩ := @accrued_insert s _ 0 f acc hacc
    ⟨hp, ha, hv, by rw [hq, add_zero]⟩
  exact ⟨hlike, fun behind ↦ funext fun c ↦ by rw [hexcess, zero_mul, sub_zero]⟩

theorem evens_of_same (ha : t.accounts = s.accounts) (hw : t.simings = s.simings) : Evens s t := by
  have hadored : t.adored = s.adored := funext fun c ↦ by
    cases c <;> simp only [State.adored, ha, hw]
  refine ⟨⟨funext fun b ↦ ?_, fun c ↦ by rw [hadored]⟩, fun behind ↦ funext fun c ↦ ?_⟩
  · simp only [State.adoring, State.account, ha]
  · simp only [State.excess, State.count, State.qiIn, hadored, ha]

instance : FramesNfas Evens where
  nfa := moves_modifyIn fun _ _ _ ↦ evens_of_same rfl rfl
  cultivation := moves_modifyIn fun _ _ _ ↦ evens_of_same rfl rfl
  cultivations := evens_of_same rfl rfl
  newNfa := evens_of_same rfl rfl
  fund := moves_modifyIn fun _ _ _ ↦ evens_of_same rfl rfl
  props _ := .update fun _ ↦ evens_of_same rfl rfl

theorem evens_modifyProps {f : Props → Props} : Moves Evens (modifyProps f) :=
  .update fun _ ↦ evens_of_same rfl rfl

theorem evens_adjustBalance {symbol : Symbol} (h : symbol ≠ .qi) :
    Moves Evens (adjustBalance a delta symbol) := by
  refine .bind moves_getBalance fun _ ↦ .bind moves_require fun _ ↦ .bind moves_getBalance fun _ ↦
    .bind moves_require fun _ ↦ evens_modifyAccount fun acc ↦ ⟨rfl, rfl, rfl, ?_⟩
  cases symbol with
  | qi => exact absurd rfl h
  | yang => rfl
  | resource => rfl

theorem evens_modifyRewardBalance {value share feigang : ℤ} {check : Bool} :
    Moves Evens (modifyRewardBalance a value share feigang check) :=
  .bind moves_getAccount fun _ ↦ .bind moves_require fun _ ↦ .bind moves_require fun _ ↦
    evens_modifyAccount fun _ ↦ ⟨rfl, rfl, rfl, rfl⟩

theorem accrues_adjustBalance : Accrues s₀ (adjustBalance a delta .qi) (-s₀.counted a delta) :=
  .read (even moves_getBalance) fun _ ↦ .read (even moves_require) fun _ ↦
    .read (even moves_getBalance) fun _ ↦ .read (even moves_require) fun _ ↦
    accrues_modifyAccount fun _ ↦ ⟨rfl, rfl, rfl, rfl⟩

theorem accrues_adjustProxied (hl : Linked s₀) :
    Accrues s₀ (adjustProxiedSimingAdores a delta) (s₀.counted a delta) := by
  intro s _ t hs h
  have hadored := (adjustProxied_ok h).1
  rw [adjustProxiedSimingAdores_eq] at h
  obtain ⟨-, hadoring, hqi⟩ := adjustProxiedArray_ok h
  have hcells : ∀ c, t.adored c = (s.adored c).map (· + delta * ind c (s.behind a)) := fun c ↦ by
    rw [hadored, raised_eq]
  refine ⟨⟨hadoring.trans hs.adoring, fun c ↦ ?_⟩, funext fun c ↦ ?_⟩
  · rw [hcells, Option.isSome_map, hs.cells]
  · have hrows : t.qiIn s₀.behind c = s.qiIn s₀.behind c :=
      rowSum_congr (fun b x ↦ x * ind c (s₀.behind b)) (congrFun hqi)
    have hcount : t.count c = s.count c + delta * ind c (s.behind a) := by
      refine count_of_adored (hcells c) fun hnone ↦ ?_
      have hout : c ∉ s.behind a := fun hc ↦ by
        have hsome := hl.isSome (hs.behind ▸ hc)
        rw [← hs.cells, hnone] at hsome
        cases hsome
      rw [ind, if_neg hout, mul_zero]
    simp only [State.excess, Pi.add_apply, State.counted, hcount, hrows, hs.behind]
    ring

end Writes

section Charges

variable (hl : Linked s₀)

include hl

theorem accrues_createQi : Accrues s₀ (createQi a delta) 0 :=
  .read (even moves_timesPrice) fun _ ↦ .of_eq (.bind accrues_adjustBalance fun _ ↦
    .read (even evens_modifyProps) fun _ ↦ .bind (accrues_adjustProxied hl) fun _ ↦ .pure _)
    (by rw [add_zero, neg_add_cancel])

theorem accrues_rewardFeigang : Accrues s₀ (rewardFeigang b a (.value delta)) 0 := by
  unfold rewardFeigang
  simp only [AssetRef.read, pure_bind]
  exact .read (even moves_require) fun _ ↦ .of_eq (.bind accrues_adjustBalance fun _ ↦
    .bind (accrues_adjustProxied hl) fun _ ↦ .read (even evens_modifyRewardBalance) fun _ ↦
    even evens_modifyProps) (by rw [add_zero, neg_add_cancel])

theorem accrues_chargeTreasury : Accrues s₀ (chargeTreasury a delta) 0 :=
  .read (even moves_getBalance) fun _ ↦ .read (even moves_require) fun _ ↦
    accrues_rewardFeigang hl

theorem accrues_chargeCaller {drops points : ℤ} : Accrues s₀ (chargeCaller b a drops points) 0 :=
  .read (even moves_getBalance) fun _ ↦ .read (even moves_require) fun _ ↦
    .read (accrues_rewardFeigang hl) fun _ ↦ accrues_chargeTreasury hl

theorem accrues_transfer {symbol : Symbol} : Accrues s₀ (transfer a b amount symbol) 0 := by
  exact guard_shifts fun h ↦ .read (even moves_require) fun _ ↦
    .read (accrues_chargeTreasury hl) fun _ ↦
    even (.bind (evens_adjustBalance h.1) fun _ ↦ evens_adjustBalance h.1)

theorem accrues_transferToQi : Accrues s₀ (transferToQi a b amount) 0 :=
  .read (even moves_require) fun _ ↦ .read (accrues_chargeTreasury hl) fun _ ↦
    .read (even (evens_adjustBalance nofun)) fun _ ↦ .read (accrues_createQi hl) fun _ ↦ .pure _

theorem accrues_withdrawQi : Accrues s₀ (withdrawQi a amount) 0 := by
  refine .read (even moves_require) fun _ ↦ .read (accrues_chargeTreasury hl) fun _ ↦
    even (.bind moves_getAccount fun _ ↦ .bind moves_require fun _ ↦ .ite (fun _ ↦ ?_) fun _ ↦ ?_)
  · exact .bind moves_require fun _ ↦ evens_modifyAccount fun _ ↦ ⟨rfl, rfl, rfl, rfl⟩
  · exact .bind moves_require fun _ ↦ .bind .get fun _ ↦
      evens_modifyAccount fun _ ↦ ⟨rfl, rfl, rfl, rfl⟩

/-- The Feigang is counted once more than it is claimed. -/
theorem accrues_claimRewardBalance {yang qi feigang : ℤ} :
    Accrues s₀ (claimRewardBalance a yang qi feigang) (s₀.counted a feigang) := by
  have hread : ∀ {c : Prop} [Decidable c] {msg : String}, Accrues s₀ (require c msg) 0 :=
    even moves_require
  refine .read hread fun _ ↦ .read hread fun _ ↦ .read (even moves_getAccount) fun _ ↦
    .read hread fun _ ↦ .read hread fun _ ↦ .read hread fun _ ↦
    .read (even evens_modifyRewardBalance) fun _ ↦ .read (even (evens_adjustBalance nofun)) fun _ ↦
    .read (even evens_modifyRewardBalance) fun _ ↦ .of_eq (.bind accrues_adjustBalance fun _ ↦
    .read (even evens_modifyRewardBalance) fun _ ↦ .bind accrues_adjustBalance fun _ ↦
    .bind (accrues_adjustProxied hl) fun _ ↦ .read (even evens_modifyProps) fun _ ↦
    accrues_adjustProxied hl) ?_
  funext c
  simp only [Pi.add_apply, Pi.neg_apply, State.counted]
  ring

theorem accrues_paySiming : Accrues s₀ (paySiming amount) 0 :=
  .read (even .get) fun _ ↦ .read (even moves_getSiming) fun _ ↦
    .read (even moves_getAccount) fun _ ↦ .ite (fun _ ↦ accrues_createQi hl) fun _ ↦
      even (.bind (evens_modifyAccount fun _ ↦ ⟨rfl, rfl, rfl, rfl⟩) fun _ ↦ moves_timesPrice)

theorem accrues_vestPart {r : ℕ × Route} : Accrues s₀ (vestPart delta r) 0 :=
  .ite (fun _ ↦ .of_eq (.bind (accrues_modifyAccount fun _ ↦ ⟨rfl, rfl, rfl, rfl⟩) fun _ ↦
    accrues_adjustProxied hl) (neg_add_cancel _)) fun _ ↦ .pure _

omit hl in
theorem evens_convertPart {r : ℕ × Route} : Moves Evens (convertPart delta r) :=
  .bind moves_getAccount fun _ ↦ .bind moves_timesPrice fun _ ↦
    .ite (fun _ ↦ .bind (evens_modifyAccount fun _ ↦ ⟨rfl, rfl, rfl, rfl⟩) fun _ ↦
      evens_modifyProps) fun _ ↦ .pure _

end Charges

section Steps

theorem audited_withdrawTurn (h : Audited s) (hv : Solvent s)
    (hrun : (withdrawTurn a).run s = .ok u t) : Audited t := by
  obtain ⟨acc, s₀, hacc, hrest⟩ := bind_ok.mp hrun
  obtain ⟨rfl, rfl⟩ := account_of_getAccount hacc
  have hdue := (hv.at a).dueAmount.1
  generalize s₀.account a = acc at hrest hdue
  have hdebit : ∀ yang, Accrues s₀ (modifyAccount a fun b ↦ b.afterWithdrawal acc.dueAmount yang)
      (-s₀.counted a (-acc.dueAmount)) := fun _ ↦ accrues_modifyAccount fun _ ↦ ⟨rfl, rfl, rfl, rfl⟩
  have hlast : Accrues s₀
      (if 0 < acc.dueAmount then adjustProxiedSimingAdores a (-acc.dueAmount) else pure ())
      (s₀.counted a (-acc.dueAmount)) := by
    refine .ite (fun _ ↦ accrues_adjustProxied h.linked) fun hnot ↦
      .of_eq (.pure _) (funext fun c ↦ ?_)
    have hzero : acc.dueAmount = 0 := by omega
    rw [State.counted, hzero, neg_zero, zero_mul, Pi.zero_apply]
  refine audited_of_accrues h ?_ hrest
  exact .read (.forM_zero fun _ _ ↦ accrues_vestPart h.linked) fun _ ↦
    .read (even (.forM fun _ _ ↦ evens_convertPart)) fun _ ↦ .read (even moves_require) fun _ ↦
    .read (even moves_timesPrice) fun yang ↦ .of_eq (.bind (hdebit yang) fun _ ↦
    .read (even evens_modifyProps) fun _ ↦ hlast) (neg_add_cancel _)

theorem audited_withdrawFrom {current : Option ℕ} (h : Audited s) (hv : Solvent s)
    (hrun : (withdrawFrom n current).run s = .ok u t) : Audited t := by
  induction n generalizing s current with
  | zero => cases current <;> cases hrun
  | succ n ih =>
    cases current with
    | none =>
      cases hrun
      exact h
    | some b =>
      obtain ⟨acc, s₀, hacc, hrest⟩ := bind_ok.mp hrun
      obtain ⟨-, rfl⟩ := account_of_getAccount hacc
      replace hrest := after_get hrest
      split at hrest
      · obtain ⟨_, s₁, hturn, hrest₁⟩ := bind_ok.mp hrest
        exact ih (audited_withdrawTurn h hv hturn) (solvent_withdrawTurn.ends hturn hv) hrest₁
      · cases hrest
        exact h

/-- A new object counts nothing. -/
theorem getD_insert_new {V : Type} {m : Table V} {k : ℕ} {v : V} {f : V → ℤ} (h : m[k]? = none)
    (hv : f v = 0) (j : ℕ) :
    (((m.insert k v)[j]?).map f).getD 0 = ((m[j]?).map f).getD 0 := by
  rw [getElem?_insert]
  split
  · next hj =>
    rw [← hj, h]
    simp [hv]
  · rfl

theorem audited_newAccount (h : Audited s) (hnone : s.accounts[a]? = none) :
    Audited { s with accounts := s.accounts.insert a {} } := by
  have haccount : ∀ b,
      State.account { s with accounts := s.accounts.insert a {} } b = s.account b :=
    account_new hnone rfl
  have hadoring : State.adoring { s with accounts := s.accounts.insert a {} } = s.adoring :=
    funext fun b ↦ by rw [State.adoring, State.adoring, haccount]
  refine ⟨fun c ↦ ?_, ⟨fun b p hp ↦ (mem_insert _ _ _ _).mpr (.inr ?_), fun b w hw ↦ ?_,
    fun b p hp ↦ ?_⟩⟩
  · have hcount : State.count { s with accounts := s.accounts.insert a {} } c = s.count c := by
      cases c with
      | siming w => rfl
      | proxied b i => exact getD_insert_new hnone rfl b
    have hbehind : State.behind { s with accounts := s.accounts.insert a {} } = s.behind :=
      funext fun b ↦ cells_congr hadoring
    rw [hcount, hbehind, h.tallied c, State.qiIn, State.qiIn, rowSum_insert_new _ hnone, zero_mul,
      add_zero]
  · exact h.linked.proxies b p ((congrArg Account.proxy (haccount b)).symm.trans hp)
  · exact h.linked.simings b w (haccount b ▸ hw)
  · rw [haccount]
    exact h.linked.free b p ((congrArg Account.proxy (haccount b)).symm.trans hp)

theorem audited_newSiming {w : ℕ} (h : Audited s) (hnone : s.simings[w]? = none) :
    Audited { s with simings := s.simings.insert w {} } := by
  refine ⟨fun c ↦ ?_, ⟨h.linked.proxies,
    fun b v hv ↦ (mem_insert _ _ _ _).mpr (.inr (h.linked.simings b v hv)), h.linked.free⟩⟩
  have hcount : State.count { s with simings := s.simings.insert w {} } c = s.count c := by
    cases c with
    | proxied b i => rfl
    | siming v => exact getD_insert_new hnone rfl v
  have hbehind : State.behind { s with simings := s.simings.insert w {} } = s.behind :=
    funext fun b ↦ cells_congr rfl
  rw [hcount, hbehind]
  exact h.tallied c

theorem audited_accountCreate (h : Audited s)
    (hrun : (accountCreate a b amount).run s = .ok u t) : Audited t := by
  obtain ⟨-, h₁⟩ := after_require hrun
  obtain ⟨_, s₁, hfee, h₂⟩ := bind_ok.mp h₁
  obtain ⟨hnone, h₃⟩ := after_require (after_get h₂)
  obtain ⟨_, s₂, hnew, h₄⟩ := bind_ok.mp h₃
  have hyang : Moves Evens (adjustBalance a (-amount) .yang) := evens_adjustBalance nofun
  have hpaid := audited_of_accrues h (even hyang) hfee
  cases hnew
  have hnewAccount := audited_newAccount hpaid hnone
  exact audited_of_accrues hnewAccount
    (.ite (fun _ ↦ .read (accrues_createQi hnewAccount.linked) fun _ ↦ .pure _) fun _ ↦ .pure _) h₄

theorem audited_simingUpdate (h : Audited s)
    (hrun : (simingUpdate a).run s = .ok u t) : Audited t := by
  replace hrun := after_get hrun
  split at hrun
  · next hnone =>
    obtain ⟨_, s₁, hcharge, h₁⟩ := bind_ok.mp hrun
    have hpaid := audited_of_accrues h (accrues_chargeTreasury h.linked) hcharge
    obtain ⟨hlike, -⟩ := accrues_chargeTreasury h.linked s _ s₁ ⟨rfl, fun _ ↦ rfl⟩ hcharge
    have hcell := hlike.cells (.siming a)
    simp only [State.adored, Option.isSome_map, hnone, Option.isSome_none] at hcell
    cases h₁
    exact audited_newSiming hpaid (Option.not_isSome_iff_eq_none.mp (Bool.eq_false_iff.mp hcell))
  · cases hrun
    exact h

end Steps

section Calls

variable {caller m : ℕ} {symbol : Symbol} {r : Resource}

theorem evens_rewardFeigangFromNfa : Moves Evens (rewardFeigangFromNfa b n delta) :=
  .bind moves_require fun _ ↦ .bind frames_nfaBalance fun _ ↦
    .bind evens_modifyRewardBalance fun _ ↦ evens_modifyProps

theorem evens_transferNfaByContract :
    Moves Evens (transferNfaByContract caller m n amount symbol) :=
  .bind moves_require fun _ ↦ .bind moves_requireOperator fun _ ↦ .bind moves_getNfa fun _ ↦
    .bind moves_getNfaBalance fun _ ↦ .bind moves_require fun _ ↦ .bind moves_require fun _ ↦
    .bind frames_nfaBalance fun _ ↦ frames_nfaBalance

theorem evens_convertQiToResource : Moves Evens (convertQiToResource caller n amount r) :=
  .bind moves_requireOperator fun _ ↦ .bind moves_require fun _ ↦ .bind moves_getNfaBalance fun _ ↦
    .bind moves_require fun _ ↦ .bind moves_timesPrice fun _ ↦ .bind moves_timesPrice fun _ ↦
    .bind frames_nfaBalance fun _ ↦ .bind frames_nfaBalance fun _ ↦ evens_modifyProps

theorem evens_convertResourceToQi : Moves Evens (convertResourceToQi caller n amount r) :=
  .bind moves_requireOperator fun _ ↦ .bind moves_require fun _ ↦ .bind moves_getNfaBalance fun _ ↦
    .bind moves_require fun _ ↦ .bind moves_timesPrice fun _ ↦
    .bind frames_nfaBalance fun _ ↦ .bind frames_nfaBalance fun _ ↦ evens_modifyProps

theorem evens_adjustMaterial : Moves Evens (adjustMaterial n amount r) :=
  .bind moves_getMaterial fun _ ↦ FramesNfas.nfa

theorem evens_injectMaterial : Moves Evens (injectMaterialByContract caller m n amount r) :=
  .bind moves_require fun _ ↦ .bind moves_requireOperator fun _ ↦
    .bind moves_requireOperator fun _ ↦ .bind moves_getNfaBalance fun _ ↦
    .bind moves_require fun _ ↦ .bind frames_nfaBalance fun _ ↦ evens_adjustMaterial

theorem evens_separateMaterial : Moves Evens (separateMaterialByContract caller m n amount r) :=
  .bind moves_require fun _ ↦ .bind moves_requireOperator fun _ ↦ .bind moves_getNfa fun _ ↦
    .bind moves_getMaterial fun _ ↦ .bind moves_require fun _ ↦ .bind evens_adjustMaterial fun _ ↦
    frames_nfaBalance

theorem evens_takeQi : Moves Evens (takeQi caller n amount) :=
  .bind moves_requireOperator fun _ ↦ .bind moves_getNfaBalance fun _ ↦
    .bind moves_require fun _ ↦ evens_rewardFeigangFromNfa

theorem evens_consumeNfaMaterialRandom {hash : ℕ → ℕ} {seed : ℕ} :
    Moves Evens (consumeNfaMaterialRandom hash n seed) :=
  .bind moves_getNfa fun _ ↦ .bind moves_getMaterial fun _ ↦
    .ite (fun _ ↦ .bind (.forM fun _ _ ↦ evens_adjustMaterial) fun _ ↦
      .forM fun _ _ ↦ evens_adjustBalance nofun) fun _ ↦ .pure _

theorem evens_payRewardFunds {yang qi usedYang usedQi : ℤ} {l : List (ℕ × RewardFund)} :
    Moves Evens (payRewardFunds yang qi l usedYang usedQi) := by
  induction l generalizing usedYang usedQi with
  | nil => exact .pure _
  | cons fund l ih =>
    exact .bind moves_timesPrice fun _ ↦ .bind FramesNfas.fund fun _ ↦
      .bind evens_modifyProps fun _ ↦ .bind moves_require fun _ ↦ .bind moves_require fun _ ↦ ih

theorem accrues_processFunds (hl : Linked s₀) : Accrues s₀ processFunds 0 :=
  .read (even .get) fun _ ↦ .read (even evens_payRewardFunds) fun _ ↦
    .read (accrues_paySiming hl) fun _ ↦ even evens_modifyProps

theorem evens_setWithdrawQiRoute {percent : ℕ} {autoVest : Bool} :
    Moves Evens (setWithdrawQiRoute a b percent autoVest) := by
  have hset : ∀ f : Account → Account, (∀ acc, (f acc).proxy = acc.proxy ∧
      (f acc).adores = acc.adores ∧ (f acc).proxiedVsfAdores = acc.proxiedVsfAdores ∧
      (f acc).assets.qi = acc.assets.qi) → Moves Evens (modifyAccount a f >>= fun _ ↦ do
        require (totalPercent (← getAccount a).routes ≤ 10000)
          "More than 100% of qi withdrawals allocated to destinations.") :=
    fun f hf ↦ .bind (evens_modifyAccount hf) fun _ ↦ .bind moves_getAccount fun _ ↦ moves_require
  refine .bind moves_require fun _ ↦ .bind moves_getAccount fun acc ↦
    .bind moves_getAccount fun _ ↦ .bind moves_require fun _ ↦ ?_
  split
  · exact .bind moves_require fun _ ↦ .bind moves_require fun _ ↦
      hset _ fun _ ↦ ⟨rfl, rfl, rfl, rfl⟩
  · split
    · exact hset _ fun _ ↦ ⟨rfl, rfl, rfl, rfl⟩
    · exact hset _ fun _ ↦ ⟨rfl, rfl, rfl, rfl⟩

theorem evens_declineAdoringRights {decline : Bool} :
    Moves Evens (declineAdoringRights a decline) :=
  .bind moves_getAccount fun _ ↦ .bind .get fun _ ↦
    .ite (fun _ ↦ .bind moves_require fun _ ↦ .update fun _ ↦ evens_of_same rfl rfl) fun _ ↦
      .bind moves_require fun _ ↦ .update fun _ ↦ evens_of_same rfl rfl

theorem evens_payDebt {owner : ℕ} : Moves Evens (payDebt n owner) :=
  .bind moves_getNfa fun _ ↦ .bind moves_require fun _ ↦ .bind evens_rewardFeigangFromNfa fun _ ↦
    FramesNfas.nfa

theorem evens_chargeTick {contract owner : ℕ} {drops points : ℤ} {fail : Bool} :
    Moves Evens (chargeTick n contract owner drops points fail) := by
  have hlast : ∀ {c : Prop} [Decidable c] {f : Nfa → Nfa},
      Moves Evens (if c then modifyNfa n f else pure ()) :=
    .ite (fun _ ↦ FramesNfas.nfa) fun _ ↦ .pure _
  refine .bind moves_getNfa fun _ ↦ .ite (fun _ ↦ ?_) fun _ ↦ .ite (fun _ ↦ ?_) fun _ ↦ hlast
  · exact .bind evens_rewardFeigangFromNfa fun _ ↦ .ite
      (fun _ ↦ .bind evens_rewardFeigangFromNfa fun _ ↦ hlast) fun _ ↦ hlast
  · exact .bind evens_rewardFeigangFromNfa fun _ ↦ hlast

theorem counted_of_nil (h : s.behind a = []) : s.counted a delta = 0 := by
  funext c
  rw [State.counted, h, ind_nil, mul_zero, Pi.zero_apply]

/-- A treasury that adores nobody may be drained. -/
theorem accrues_chargeProposal (hl : Linked s₀) (h : s₀.behind taiyiDaoAccount = []) {owner : ℕ}
    {drops points : ℤ} : Accrues s₀ (chargeProposal owner drops points) 0 := by
  have hadjust : ∀ {delta : ℤ}, Accrues s₀ (adjustBalance taiyiDaoAccount delta .qi) 0 :=
    .of_eq accrues_adjustBalance (by rw [counted_of_nil h, neg_zero])
  have hproxied : ∀ {delta : ℤ}, Accrues s₀ (adjustProxiedSimingAdores taiyiDaoAccount delta) 0 :=
    .of_eq (accrues_adjustProxied hl) (counted_of_nil h)
  have hdrain : ∀ {b : ℕ} {r : AssetRef}, Accrues s₀ (rewardFeigang b taiyiDaoAccount r) 0 :=
    .read (even moves_read) fun _ ↦ .read (even moves_require) fun _ ↦
      .read (even moves_read) fun _ ↦ .read hadjust fun _ ↦ .read (even moves_read) fun _ ↦
      .read hproxied fun _ ↦ .read (even moves_read) fun _ ↦
      .read (even evens_modifyRewardBalance) fun _ ↦ .read (even moves_read) fun _ ↦
      even evens_modifyProps
  have hcharge : ∀ {payee : ℕ} {qi : ℤ}, Accrues s₀ (chargeOrDrain payee owner qi) 0 :=
    .read (even moves_getBalance) fun _ ↦ .ite (fun _ ↦ hdrain) fun _ ↦
      .ite (fun _ ↦ hdrain) fun _ ↦ .pure _
  exact .read hcharge fun _ ↦ hcharge

theorem evens_outside (o : Outside) : Moves Evens o.apply := by
  cases o with
  | headBlock => exact .bind .get fun _ ↦ .bind moves_require fun _ ↦ evens_modifyProps
  | changeOwner => exact FramesNfas.nfa
  | setTick => exact FramesNfas.nfa
  | delegateQi => exact evens_modifyAccount fun _ ↦ ⟨rfl, rfl, rfl, rfl⟩
  | createActor => exact .bind moves_getMaterial fun _ ↦ .update fun _ ↦ evens_of_same rfl rfl
  | settleActor =>
    exact .bind .get fun _ ↦ .bind moves_lookup fun _ ↦ moves_modifyIn fun _ _ _ ↦
      evens_of_same rfl rfl
  | createZone => exact .bind moves_getMaterial fun _ ↦ .update fun _ ↦ evens_of_same rfl rfl

end Calls

end Taiyi.Ledger
