import Taiyi.Ledger.Instalments

set_option autoImplicit false

namespace Taiyi.Ledger

open Library.IdMap Library.Frame Library.Outcome Library.Wp Checked

section Turn

variable {s t : State} {b : ℕ} {u : Unit}

/-- What a turn leaves of the accounts, but for what others proxy to them. -/
def turned (s : State) (b a : ℕ) : Account :=
  let acc := s.account b
  let due := acc.dueAmount
  let routed :=
    (s.bare a).routed (received id due acc.vestRoutes a) (received (· / 1000) due acc.yangRoutes a)
  if b = a then
    routed.afterWithdrawal due ((due - parts acc.yangRoutes due - parts acc.vestRoutes due) / 1000)
  else routed

theorem settleTurn_ok {acc : Account} (h : (settleTurnWith adjustProxiedSimingAdores b acc).run s = .ok u t) :
    (∀ a, t.bare a = if b = a then (s.bare a).afterWithdrawal acc.dueAmount
      ((acc.dueAmount - parts acc.yangRoutes acc.dueAmount -
        parts acc.vestRoutes acc.dueAmount) / 1000) else s.bare a) ∧
      t.props = { s.props with totalQi := s.props.totalQi - (acc.dueAmount -
        parts acc.yangRoutes acc.dueAmount - parts acc.vestRoutes acc.dueAmount) } ∧
      ∀ a, a ∈ t.accounts ↔ a ∈ s.accounts := by
  obtain ⟨-, h₁⟩ := after_require h
  obtain ⟨yang, s₁, hprice, h₂⟩ := bind_ok.mp h₁
  obtain ⟨⟨-, rfl⟩, rfl⟩ := qiToYang_ok.mp hprice
  obtain ⟨_, s₂, hmod, h₃⟩ := bind_ok.mp h₂
  obtain ⟨hadored, hprops⟩ := adored_of_modifyAccount hmod fun _ ↦ rfl
  have hbare := bare_modifyAccount hmod fun _ ↦ rfl
  obtain ⟨_, s₃, htotal, h₄⟩ := bind_ok.mp h₃
  cases htotal
  split at h₄
  · obtain ⟨hadored', hbare', hprops'⟩ := adjustProxied_ok h₄
    refine ⟨fun a ↦ (congrFun hbare' a).trans (hbare a), ?_, fun a ↦ ?_⟩
    · rw [hprops', ← hprops]
    · rw [mem_accounts_iff, mem_accounts_iff, hadored', raised, Option.isSome_map, ← hadored]
      rfl
  · cases h₄
    refine ⟨hbare, ?_, fun a ↦ ?_⟩
    · rw [← hprops]
    · rw [mem_accounts_iff, mem_accounts_iff, ← hadored]
      rfl

theorem turned_ok (hdue : 0 ≤ (s.account b).dueAmount) (h : (withdrawTurn b).run s = .ok u t) :
    (∀ a, t.bare a = turned s b a) ∧
      t.props = { s.props with totalQi := s.props.totalQi - ((s.account b).dueAmount -
        parts (s.account b).vestRoutes (s.account b).dueAmount) } ∧
      ∀ a, a ∈ t.accounts ↔ a ∈ s.accounts := by
  rw [← withdrawTurnWith_eq] at h
  obtain ⟨acc, s₀, hacc, h₀⟩ := bind_ok.mp h
  obtain ⟨rfl, rfl⟩ := account_of_getAccount hacc
  obtain ⟨_, s₁, hvest, h₁⟩ := bind_ok.mp h₀
  obtain ⟨_, s₂, hyang, h₂⟩ := bind_ok.mp h₁
  have hr₁ : Routed s₀ (s₀.account b).dueAmount (s₀.account b).vestRoutes [] s₁ :=
    forM_trace (R := fun l ↦ Routed s₀ (s₀.account b).dueAmount l [])
      (fun l r u v hr hstep ↦ hr.vestPart (part_nonneg hdue) hstep) .start hvest
  have hr₂ : Routed s₀ (s₀.account b).dueAmount (s₀.account b).vestRoutes (s₀.account b).yangRoutes s₂ :=
    forM_trace (R := Routed s₀ (s₀.account b).dueAmount (s₀.account b).vestRoutes)
      (fun l r u v hr hstep ↦ hr.convertPart (part_nonneg hdue) hstep) hr₁ hyang
  obtain ⟨hbare, hprops, haccounts⟩ := settleTurn_ok h₂
  refine ⟨fun a ↦ ?_, ?_, fun a ↦ (haccounts a).trans hr₂.accounts⟩
  · rw [hbare a, hr₂.bare a]
    rfl
  · rw [hprops, hr₂.props]
    dsimp only
    congr 1
    omega

/-- The books of a turn: the account is debited what is due, the rest of which leaves the total QI
as YANG when the parts of the routes with auto-vest have been credited. -/
structure PaidOut (s : State) (b : ℕ) (t : State) : Prop where
  qi : ∀ a, (t.account a).assets.qi = (s.account a).assets.qi +
    received id (s.account b).dueAmount (s.account b).vestRoutes a -
    if b = a then (s.account b).dueAmount else 0
  yang : ∀ a, (t.account a).assets.yang = (s.account a).assets.yang +
    received (· / 1000) (s.account b).dueAmount (s.account b).yangRoutes a +
    if b = a then ((s.account b).dueAmount -
      parts (s.account b).yangRoutes (s.account b).dueAmount -
      parts (s.account b).vestRoutes (s.account b).dueAmount) / 1000 else 0
  total : s.props.totalQi - t.props.totalQi +
    parts (s.account b).vestRoutes (s.account b).dueAmount = (s.account b).dueAmount

theorem paidOut_turn (hdue : 0 ≤ (s.account b).dueAmount) (h : (withdrawTurn b).run s = .ok u t) :
    PaidOut s b t := by
  obtain ⟨hbare, hprops, -⟩ := turned_ok hdue h
  have hassets : ∀ a, (t.account a).assets = (turned s b a).assets := fun a ↦
    show (t.bare a).assets = _ from congrArg Account.assets (hbare a)
  refine ⟨fun a ↦ ?_, fun a ↦ ?_, ?_⟩
  · rw [hassets a, turned]
    split
    · simp [Account.afterWithdrawal, Account.routed, Purse.add, State.bare, sub_eq_add_neg]
    · simp [Account.routed, Purse.add, State.bare]
  · rw [hassets a, turned]
    split
    · simp [Account.afterWithdrawal, Account.routed, Purse.add, State.bare]
    · simp [Account.routed, Purse.add, State.bare]
  · rw [hprops]
    dsimp only
    omega

end Turn

section Orderly

variable {s t : State} {a b : ℕ} {u : Unit}

/-- What the operations keep up: no balance is negative, a withdrawal that is to come has a rate,
and the routes of an account share no more than there is. -/
structure Orderly (s : State) : Prop where
  time : s.props.time < maximum
  qi : ∀ a, 0 ≤ (s.account a).assets.qi
  toWithdraw : ∀ a, 0 ≤ (s.account a).toWithdraw
  rate : ∀ a, (s.account a).nextQiWithdrawalTime ≠ maximum → 0 < (s.account a).qiWithdrawRate
  percent : ∀ a, totalPercent (s.account a).routes ≤ 10000

theorem Orderly.due_bounds (h : Orderly s) (hdue : (s.account b).nextQiWithdrawalTime ≤ s.props.time) :
    0 ≤ (s.account b).dueAmount ∧ (s.account b).dueAmount ≤ (s.account b).assets.qi := by
  have htime := h.time
  have hrate := h.rate b (by omega)
  have hmod := Int.emod_nonneg (s.account b).toWithdraw (by omega : (s.account b).qiWithdrawRate ≠ 0)
  have hqi := h.qi b
  unfold Account.dueAmount
  split <;> omega

theorem received_nonneg {due : ℤ} (hdue : 0 ≤ due) (l : List (ℕ × Route)) : 0 ≤ received id due l a := by
  refine List.sum_nonneg fun x hx ↦ ?_
  obtain ⟨r, -, rfl⟩ := List.mem_map.mp hx
  split
  · exact part_nonneg hdue
  · exact le_rfl

theorem Orderly.turn (h : Orderly s) (hdue : (s.account b).nextQiWithdrawalTime ≤ s.props.time)
    (hrun : (withdrawTurn b).run s = .ok u t) : Orderly t := by
  obtain ⟨hnonneg, hle⟩ := h.due_bounds hdue
  obtain ⟨hbare, hprops, -⟩ := turned_ok hnonneg hrun
  have hqi := (paidOut_turn hnonneg hrun).qi
  have hsame : ∀ a, (t.account a).toWithdraw = (s.account a).toWithdraw ∧
      (t.account a).routes = (s.account a).routes := by
    intro a
    have ha : ((t.account a).toWithdraw, (t.account a).routes) =
        ((turned s b a).toWithdraw, (turned s b a).routes) :=
      congrArg (fun acc ↦ (acc.toWithdraw, acc.routes)) (hbare a)
    refine ⟨(congrArg Prod.fst ha).trans ?_, (congrArg Prod.snd ha).trans ?_⟩
    all_goals
      rw [turned]
      dsimp only
      split <;> rfl
  have htime : t.props.time = s.props.time := by rw [hprops]
  refine ⟨htime ▸ h.time, fun a ↦ ?_, fun a ↦ (hsame a).1 ▸ h.toWithdraw a, fun a hne ↦ ?_,
    fun a ↦ (hsame a).2 ▸ h.percent a⟩
  · have hgot := received_nonneg (a := a) hnonneg (s.account b).vestRoutes
    have hhad := h.qi a
    rw [hqi a]
    split
    · next heq =>
      subst heq
      omega
    · omega
  · obtain ⟨q, -, -, -, hafter⟩ := withdrawTurn_ok hrun
    have ha := hafter a
    simp only [Account.withdrawal, Account.paid] at ha
    split at ha
    · next heq =>
      subst heq
      simp only [Prod.mk.injEq] at ha
      obtain ⟨hrate, hnext, -⟩ := ha
      split at hnext
      · exact absurd hnext hne
      · next hnot =>
        rw [if_neg hnot] at hrate
        have htime := h.time
        exact hrate ▸ h.rate b (by omega)
    · simp only [Prod.mk.injEq] at ha
      obtain ⟨hrate, hnext, -⟩ := ha
      exact hrate ▸ h.rate a (hnext ▸ hne)

end Orderly

section Fuel

variable {s t : State} {a b : ℕ} {u : Unit}

theorem turnsLeft_eq (s : State) : turnsLeft s =
    ((s.accounts.toList.map Prod.fst).map fun a ↦ (s.account a).turnsLeft s.props.time).sum := by
  rw [turnsLeft, List.map_map]
  refine congrArg List.sum (List.map_congr_left fun r hr ↦ ?_)
  have hacc : s.accounts[r.1]? = some r.2 := (mem_toList _ _ _).mp hr
  rw [Function.comp_apply, State.account, hacc]
  rfl

theorem turnsLeft_paid {acc acc' : Account} {time : ℕ} {q : ℤ} (hdue : acc.nextQiWithdrawalTime ≤ time)
    (htime : time < maximum) (h : acc'.withdrawal = acc.paid q) :
    acc'.turnsLeft time < acc.turnsLeft time := by
  simp only [Account.withdrawal, Account.paid, Prod.mk.injEq] at h
  obtain ⟨-, hnext, -⟩ := h
  unfold Account.turnsLeft
  rw [if_pos hdue, hnext]
  unfold weekInSeconds
  split <;> split <;> omega

/-- A turn that is due lowers the number of turns that are left. -/
theorem turnsLeft_turn (h : s.props.time < maximum)
    (hdue : (s.account b).nextQiWithdrawalTime ≤ s.props.time)
    (haccounts : ∀ a, a ∈ t.accounts ↔ a ∈ s.accounts) (hb : b ∈ s.accounts)
    (hrun : (withdrawTurn b).run s = .ok u t) : turnsLeft t < turnsLeft s := by
  obtain ⟨q, -, -, htime, hafter⟩ := withdrawTurn_ok hrun
  have hkeys : (t.accounts.toList.map Prod.fst).Perm (s.accounts.toList.map Prod.fst) := by
    have hmem : ∀ {m : Table Account} {a : ℕ}, a ∈ m.toList.map Prod.fst ↔ a ∈ m := by
      intro m a
      rw [mem_iff_getElem?, List.mem_map]
      constructor
      · rintro ⟨r, hr, rfl⟩
        exact ⟨r.2, (mem_toList _ _ _).mp hr⟩
      · rintro ⟨v, hv⟩
        exact ⟨(a, v), (mem_toList _ _ _).mpr hv, rfl⟩
    have hnodup : ∀ m : Table Account, (m.toList.map Prod.fst).Nodup := fun m ↦
      List.pairwise_map.mpr ((ids_sorted m).imp fun h ↦ Nat.ne_of_lt h)
    refine (List.perm_ext_iff_of_nodup (hnodup _) (hnodup _)).mpr fun a ↦ ?_
    rw [hmem, hmem, haccounts]
  rw [turnsLeft_eq, turnsLeft_eq, (hkeys.map _).sum_eq, htime]
  refine List.sum_lt_sum _ _ (fun a _ ↦ ?_) ⟨b, ?_, ?_⟩
  · have ha := hafter a
    split at ha
    · next heq =>
      subst heq
      exact (turnsLeft_paid hdue h ha).le
    · have hnext : (t.account a).nextQiWithdrawalTime = (s.account a).nextQiWithdrawalTime :=
        congrArg (fun w ↦ w.2.1) ha
      rw [Account.turnsLeft, Account.turnsLeft, hnext]
  · obtain ⟨v, hv⟩ := (mem_iff_getElem? _ _).mp hb
    exact List.mem_map.mpr ⟨(b, v), (mem_toList _ _ _).mpr hv, rfl⟩
  · have hb := hafter b
    rw [if_pos rfl] at hb
    exact turnsLeft_paid hdue h hb

theorem mem_of_firstOf {l : List (ℕ × ℕ)} {k : ℕ × ℕ} (h : firstOf l = some k) : k ∈ l := by
  cases l with
  | nil => cases h
  | cons x l =>
    obtain ⟨first, hfirst, hmem, -⟩ := firstOf_spec (List.mem_cons_self (a := x) (l := l))
    rw [hfirst] at h
    cases h
    exact hmem

theorem mem_of_nextWithdrawal {last : Option (ℕ × ℕ)} (h : nextWithdrawal s last = some b) :
    b ∈ s.accounts := by
  rw [nextWithdrawal, Option.map_eq_some_iff] at h
  obtain ⟨k, hk, rfl⟩ := h
  obtain ⟨r, hr, rfl⟩ := List.mem_map.mp (List.mem_filter.mp (mem_of_firstOf hk)).1
  exact (mem_iff_getElem? _ _).mpr ⟨r.2, (mem_toList _ _ _).mp hr⟩

end Fuel

section Loop

variable {s t : State} {u : Unit} {n : ℕ} {current : Option ℕ}

theorem withdrawFromWith_eq (n : ℕ) (current : Option ℕ) :
    withdrawFromWith adjustProxiedSimingAdores n current = withdrawFrom n current := by
  induction n generalizing current with
  | zero => cases current <;> rfl
  | succ n ih =>
    cases current with
    | none => rfl
    | some b => simp only [withdrawFromWith, withdrawFrom, withdrawTurnWith_eq, ih]

theorem refines_withdrawFrom (n : ℕ) (current : Option ℕ) :
    Refines (withdrawFromWith watchAdores n current) (withdrawFrom n current) := by
  rw [← withdrawFromWith_eq]
  induction n generalizing current with
  | zero => cases current <;> exact .refl _
  | succ n ih =>
    cases current with
    | none => exact .refl _
    | some b =>
      exact .bind (.refl _) fun _ ↦ .bind (.refl _) fun _ ↦
        .ite (.bind (refines_withdrawTurn refines_watchAdores b) fun _ ↦ ih _) (.refl _)

/-- The accounts that get a turn in the step, with the state in which it begins. -/
def turns (s : State) : List (ℕ × State) := turnsFrom (turnsLeft s + 1) (nextWithdrawal s none) s

/-- The loop goes through with every value watched when each turn clears. -/
theorem completes_withdrawFrom (h : Orderly s) (hfuel : turnsLeft s < n)
    (hcurrent : ∀ b ∈ current, b ∈ s.accounts) :
    Completes (withdrawFromWith watchAdores n current) s ↔
      ∀ turn ∈ turnsFrom n current s, Clears turn.2 turn.1 := by
  induction n generalizing s current with
  | zero => omega
  | succ n ih =>
    cases current with
    | none => exact ⟨fun _ turn hturn ↦ absurd hturn List.not_mem_nil, fun _ ↦ ⟨⟨⟩, s, rfl, trivial⟩⟩
    | some b =>
      have hb := hcurrent b rfl
      obtain ⟨acc, hacc⟩ := (mem_iff_getElem? _ _).mp hb
      obtain rfl : s.account b = acc := by
        rw [State.account, hacc]
        rfl
      have hget : ∀ Q : Account → State → Prop, wp (getAccount b) Q s ↔ Q (s.account b) s := fun Q ↦ by
        rw [wp_getAccount]
        simp [hacc]
      rw [Completes, withdrawFromWith, wp_bind, hget, wp_bind, wp_get, turnsFrom]
      split
      · next hdue =>
        have hnonneg := (h.due_bounds hdue).1
        rw [List.forall_mem_cons, ← completes_withdrawTurn_iff hb hnonneg (h.percent b)]
        refine completes_bind fun v t ht ↦ ?_
        have ht' := refines_withdrawTurn refines_watchAdores b s v t ht
        rw [withdrawTurnWith_eq] at ht'
        obtain ⟨-, -, haccounts⟩ := turned_ok hnonneg ht'
        have hlt := turnsLeft_turn h.time hdue haccounts hb ht'
        rw [after_ok ht']
        exact ih (h.turn hdue ht') (by omega) fun c hc ↦ (haccounts c).mpr (mem_of_nextWithdrawal hc)
      · exact ⟨fun _ turn hturn ↦ absurd hturn List.not_mem_nil, fun _ ↦ ⟨⟨⟩, s, rfl, trivial⟩⟩

theorem paidOut_withdrawFrom (h : Orderly s) (hrun : (withdrawFrom n current).run s = .ok u t) :
    Orderly t ∧ ∀ turn ∈ turnsFrom n current s,
      PaidOut turn.2 turn.1 (after (withdrawTurn turn.1) turn.2) := by
  induction n generalizing s current with
  | zero => cases current <;> cases hrun
  | succ n ih =>
    cases current with
    | none =>
      cases hrun
      exact ⟨h, fun _ hturn ↦ absurd hturn List.not_mem_nil⟩
    | some b =>
      obtain ⟨acc, s₀, hacc, hrest⟩ := bind_ok.mp hrun
      obtain ⟨rfl, rfl⟩ := account_of_getAccount hacc
      replace hrest := after_get hrest
      rw [turnsFrom]
      split at hrest
      · next hdue =>
        obtain ⟨_, s₁, hturn, hrest₁⟩ := bind_ok.mp hrest
        obtain ⟨ht, hall⟩ := ih (h.turn hdue hturn) hrest₁
        rw [if_pos hdue, after_ok hturn]
        refine ⟨ht, List.forall_mem_cons.mpr ⟨?_, hall⟩⟩
        exact after_ok hturn ▸ paidOut_turn (h.due_bounds hdue).1 hturn
      · next hnot =>
        cases hrest
        rw [if_neg hnot]
        exact ⟨h, fun _ hturn ↦ absurd hturn List.not_mem_nil⟩

/-- The step of the withdrawals completes within the bounds of every adores value, leaves no
account with less than nothing and keeps the books of each turn exactly when every turn clears. -/
theorem withdrawals (h : Orderly s) :
    (∃ t, watchedWithdrawals.run s = .ok ⟨⟩ t ∧ processQiWithdrawals.run s = .ok ⟨⟩ t ∧
      (∀ a, 0 ≤ (t.account a).assets.qi) ∧
      ∀ turn ∈ turns s, PaidOut turn.2 turn.1 (after (withdrawTurn turn.1) turn.2)) ↔
    ∀ turn ∈ turns s, Clears turn.2 turn.1 := by
  have hloop : Completes (withdrawFromWith watchAdores (turnsLeft s + 1) (nextWithdrawal s none)) s ↔
      ∀ turn ∈ turns s, Clears turn.2 turn.1 :=
    completes_withdrawFrom h (Nat.lt_succ_self _) fun _ hb ↦ mem_of_nextWithdrawal hb
  constructor
  · rintro ⟨t, hwatched, -⟩
    exact hloop.mp ⟨⟨⟩, t, hwatched, trivial⟩
  · intro hall
    obtain ⟨⟨⟩, t, hwatched, -⟩ := hloop.mpr hall
    have hrun := refines_withdrawFrom _ _ s ⟨⟩ t hwatched
    obtain ⟨ht, hpaid⟩ := paidOut_withdrawFrom h hrun
    exact ⟨t, hwatched, hrun, ht.qi, hpaid⟩

end Loop

section Overrun

/-- Two accounts that adore the same siming, where the first withdraws to the second. -/
def twoAdorers (others : ℤ) : State where
  accounts := ((∅ : Table Account).insert 1
    { assets := { qi := 4000 }, qiWithdrawRate := 1000, nextQiWithdrawalTime := 10, toWithdraw := 4000,
      adores := (∅ : IdSet).insert 7, routes := (∅ : Table Route).insert 2 ⟨10000, true⟩ }).insert 2
    { assets := { qi := 1000 }, adores := (∅ : IdSet).insert 7 }
  simings := (∅ : Table Siming).insert 7 { adores := 5000 }
  props := { time := 10, totalQi := 5000 + others }

theorem twoAdorers_orderly (others : ℤ) : Orderly (twoAdorers others) := by
  have hcases : ∀ a, (twoAdorers others).account a = {} ∨
      (twoAdorers others).account a = (twoAdorers 0).account 1 ∨
      (twoAdorers others).account a = (twoAdorers 0).account 2 := by
    intro a
    simp only [State.account, twoAdorers, getElem?_insert]
    by_cases h₂ : 2 = a
    · simp [h₂]
    · by_cases h₁ : 1 = a
      · simp [h₂, h₁]
      · simp [h₂, h₁]
  have hall : ∀ P : Account → Prop, P {} → P ((twoAdorers 0).account 1) →
      P ((twoAdorers 0).account 2) → ∀ a, P ((twoAdorers others).account a) := by
    intro P h₀ h₁ h₂ a
    rcases hcases a with h | h | h <;> rw [h] <;> assumption
  refine ⟨show 10 < maximum by decide, hall (fun acc ↦ 0 ≤ acc.assets.qi) ?_ ?_ ?_,
    hall (fun acc ↦ 0 ≤ acc.toWithdraw) ?_ ?_ ?_,
    hall (fun acc ↦ acc.nextQiWithdrawalTime ≠ maximum → 0 < acc.qiWithdrawRate) ?_ ?_ ?_,
    hall (fun acc ↦ totalPercent acc.routes ≤ 10000) ?_ ?_ ?_⟩
  all_goals decide +kernel

/-- With enough QI that adores another siming the deposit has room. -/
theorem withdrawals_twoAdorers :
    Orderly (twoAdorers 1000) ∧ ∀ turn ∈ turns (twoAdorers 1000), Clears turn.2 turn.1 := by
  have hrun : succeeds watchedWithdrawals (twoAdorers 1000) = true := by decide +kernel
  obtain ⟨⟨⟩, t, ht⟩ := ok_of_succeeds hrun
  have h := withdrawals (twoAdorers_orderly 1000)
  refine ⟨twoAdorers_orderly 1000, h.mp ⟨t, ht, ?_⟩⟩
  obtain ⟨hrun', hrest⟩ := paidOut_withdrawFrom (twoAdorers_orderly 1000)
    (refines_withdrawFrom _ _ _ _ _ ht)
  exact ⟨refines_withdrawFrom _ _ _ _ _ ht, hrun'.qi, hrest⟩

/-- The deposit is counted before the debit: the adores of the siming would be more than all QI. -/
theorem deposit_exceeds_totalQi :
    Orderly (twoAdorers 0) ∧ ¬∃ t, processQiWithdrawals.run (twoAdorers 0) = .ok ⟨⟩ t := by
  refine ⟨twoAdorers_orderly 0, ?_⟩
  rintro ⟨t, ht⟩
  have hrun : succeeds processQiWithdrawals (twoAdorers 0) = false := by decide +kernel
  unfold Library.Outcome.succeeds at hrun
  rw [ht] at hrun
  cases hrun

end Overrun

end Taiyi.Ledger
