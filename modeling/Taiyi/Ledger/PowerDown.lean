import Taiyi.Ledger.Reserved

set_option autoImplicit false

namespace Taiyi.Ledger

open Library.IdMap Library.Outcome Library.Frame

namespace Account

/-- The rate, the next time, what is withdrawn and what is to be withdrawn. -/
def withdrawal (a : Account) : ℤ × ℕ × ℤ × ℤ :=
  (a.qiWithdrawRate, a.nextQiWithdrawalTime, a.withdrawn, a.toWithdraw)

/-- The next instalment, if the balance covers it. -/
def instalment (a : Account) : ℤ :=
  if a.toWithdraw - a.withdrawn < a.qiWithdrawRate then a.toWithdraw % a.qiWithdrawRate
  else a.qiWithdrawRate

theorem dueAmount_eq (a : Account) : a.dueAmount = min a.assets.qi a.instalment := by
  unfold dueAmount instalment
  split <;> rfl

theorem withdrawal_of_promised {a b : Account} (h : b.promised = a.promised) :
    b.withdrawal = a.withdrawal := congrArg Prod.snd h

end Account

section Conditions

/-- The instalment is not cut short by a balance of which the account's own routes return a part. -/
def Whole (id : ℕ) (a : Account) : Prop :=
  a.instalment ≤ a.assets.qi ∨ ∀ r ∈ a.vestRoutes, r.1 = id → r.2.part a.dueAmount ≤ 0

instance (id : ℕ) (a : Account) : Decidable (Whole id a) := inferInstanceAs (Decidable (_ ∨ _))

/-- The balance covers the instalment, and more while more is to come. -/
def Suffices (a : Account) : Prop :=
  a.instalment ≤ a.assets.qi ∧ (a.instalment < a.toWithdraw - a.withdrawn → a.instalment < a.assets.qi)

end Conditions

section Turns

/-- The accounts that get their turn in the loop of `process_qi_withdrawals`, with the state in
which it begins. -/
def turnsFrom : ℕ → Option ℕ → State → List (ℕ × State)
  | 0, _, _ => []
  | _ + 1, none, _ => []
  | turns + 1, some fromAccount, s =>
    if (s.account fromAccount).nextQiWithdrawalTime ≤ s.props.time then
      (fromAccount, s) :: turnsFrom turns
        (nextWithdrawal s (some ((s.account fromAccount).nextQiWithdrawalTime, fromAccount)))
        (after (withdrawTurn fromAccount) s)
    else []

/-- The account at the beginning of each of its turns in an action. -/
def Action.turnsOf (id : ℕ) (s : State) : Action → List Account
  | .routine .processQiWithdrawals =>
    ((turnsFrom (turnsLeft s + 1) (nextWithdrawal s none) s).filter (·.1 = id)).map
      fun turn ↦ turn.2.account id
  | _ => []

/-- The account asks for no other withdrawal, and a week can be counted in 32 bits from every
block time. -/
def Action.calm (id : ℕ) : Action → Bool
  | .operation (.withdrawQi a _) => a ≠ id
  | .outside (.headBlock _ time _ _) => time + weekInSeconds < maximum
  | _ => true

/-- The calm runs from `s₀`, with the turns of the account. -/
inductive PowersDown (hash : ℕ → ℕ) (id : ℕ) (s₀ : State) : List Account → State → Prop
  | start : PowersDown hash id s₀ [] s₀
  | step {turns : List Account} {s t : State} (act : Action) (h : PowersDown hash id s₀ turns s)
      (hcalm : act.calm id = true) (hact : act.step hash s = some t) :
      PowersDown hash id s₀ (turns ++ act.turnsOf id s) t

/-- The QI that the turns take from the account. -/
def debited (turns : List Account) : ℤ := (turns.map Account.dueAmount).sum

end Turns

section Qi

variable {a b : ℕ} {delta : ℤ} {s t : State}

def State.qiOf (a : ℕ) (s : State) : ℤ := (s.account a).assets.qi

theorem keepsQi_of_accounts {f : Account → Account} (h : b = a → ∀ acc, (f acc).assets.qi = acc.assets.qi) :
    Moves (Same (State.qiOf a)) (modifyAccount b f) :=
  moves_modifyIn fun s acc hacc ↦ by
    change State.qiOf a _ = _
    rw [State.qiOf, account_insert hacc rfl]
    split
    · next heq => exact h heq _
    · rfl

theorem keepsQi_adjustProxied : Moves (Same (State.qiOf a)) (adjustProxiedSimingAdores b delta) :=
  moves_propagate (fun _ _ ↦ keepsQi_of_accounts fun _ _ ↦ rfl) fun _ _ ↦ moves_modifyIn fun _ _ _ ↦ rfl

theorem keepsQi_vestPart {due : ℤ} {r : ℕ × Route} (h : r.1 = a → r.2.part due ≤ 0) :
    Moves (Same (State.qiOf a)) (vestPart due r) := by
  refine .ite (fun hpos ↦ .bind (keepsQi_of_accounts fun heq _ ↦ ?_) fun _ ↦ keepsQi_adjustProxied)
    fun _ ↦ .pure _
  have := h heq
  omega

theorem keepsQi_convertPart {due : ℤ} {r : ℕ × Route} : Moves (Same (State.qiOf a)) (convertPart due r) :=
  .bind moves_getAccount fun _ ↦ .bind moves_timesPrice fun _ ↦
    .ite (fun _ ↦ .bind (keepsQi_of_accounts fun _ _ ↦ rfl) fun _ ↦ .update fun _ ↦ rfl) fun _ ↦ .pure _

end Qi

section Turn

variable {b id : ℕ} {q : ℤ} {s t : State} {u : Unit}

/-- The withdrawal of the account after its turn, when it holds `q` before the instalment leaves. -/
def Account.paid (a : Account) (q : ℤ) : ℤ × ℕ × ℤ × ℤ :=
  let done := a.toWithdraw ≤ a.withdrawn + a.dueAmount ∨ q - a.dueAmount = 0
  (if done then 0 else a.qiWithdrawRate,
    if done then maximum else a.nextQiWithdrawalTime + weekInSeconds,
    a.withdrawn + a.dueAmount, a.toWithdraw)

theorem withdrawal_afterWithdrawal {a c : Account} {yang : ℤ} (h : c.withdrawal = a.withdrawal) :
    (c.afterWithdrawal a.dueAmount yang).withdrawal = a.paid c.assets.qi := by
  simp only [Account.withdrawal, Prod.mk.injEq] at h
  obtain ⟨hrate, hnext, hwithdrawn, hto⟩ := h
  have hqi : ((c.assets.add (-a.dueAmount) .qi).add yang .yang).qi = c.assets.qi - a.dueAmount := rfl
  simp only [Account.withdrawal, Account.afterWithdrawal, Account.paid, hqi, hrate, hnext, hwithdrawn, hto]

/-- A turn changes the withdrawal of its own account only. -/
theorem withdrawTurn_ok (hrun : (withdrawTurn b).run s = .ok u t) :
    ∃ q, (s.account b).assets.qi ≤ q ∧
      ((∀ r ∈ (s.account b).vestRoutes, r.1 = b → r.2.part (s.account b).dueAmount ≤ 0) →
        q = (s.account b).assets.qi) ∧
      t.props.time = s.props.time ∧
      ∀ c, (t.account c).withdrawal =
        if b = c then (s.account b).paid q else (s.account c).withdrawal := by
  obtain ⟨acc, s₀, hacc, h₀⟩ := bind_ok.mp hrun
  obtain ⟨rfl, rfl⟩ := account_of_getAccount hacc
  obtain ⟨_, s₁, hvest, h₁⟩ := bind_ok.mp h₀
  obtain ⟨_, s₂, hyang, h₂⟩ := bind_ok.mp h₁
  have hs : Spends 0 s₀ s₂ := trans_of (Spends 0)
    (after_ok hvest ▸ Moves.forM (fun _ _ ↦ spares_vestPart) s₀)
    (after_ok hyang ▸ Moves.forM (fun _ _ ↦ spares_convertPart) s₁)
  obtain ⟨yang, s₃, hprice, h₃⟩ := bind_ok.mp (after_require h₂).2
  obtain ⟨-, rfl⟩ := qiToYang_ok.mp hprice
  obtain ⟨_, s₄, hmod, h₄⟩ := bind_ok.mp h₃
  obtain ⟨hafter, htime₄⟩ := modifyAccount_ok hmod
  have hlast : Spends 0 s₄ t := by
    rw [← after_ok h₄]
    refine (?_ : Spares _) s₄
    exact .bind (spares_modifyProps fun _ ↦ rfl) fun _ ↦
      .ite (fun _ ↦ spares_adjustProxied) fun _ ↦ .pure _
  refine ⟨(s₃.account b).assets.qi, by simpa using hs.qi b, fun hown ↦ ?_,
    hlast.time.trans (htime₄.trans hs.time), fun c ↦ ?_⟩
  · -- only a route back to the account changes its QI
    have hv : Same (State.qiOf b) s₀ s₁ :=
      after_ok hvest ▸ Moves.forM (fun r hr ↦ keepsQi_vestPart (hown r hr)) s₀
    have hy : Same (State.qiOf b) s₁ s₃ :=
      after_ok hyang ▸ Moves.forM (fun _ _ ↦ keepsQi_convertPart) s₁
    exact hy.trans hv
  · rw [Account.withdrawal_of_promised (hlast.promised c), hafter c]
    split
    · next heq =>
      subst heq
      exact withdrawal_afterWithdrawal (Account.withdrawal_of_promised (hs.promised b))
    · exact Account.withdrawal_of_promised (hs.promised c)

end Turn

section Progress

variable {V q : ℤ} {turns : List Account} {a b : Account} {id : ℕ}

theorem le_four_rates (V : ℤ) : V ≤ 4 * withdrawRate V := by
  unfold withdrawRate
  dsimp only
  split <;> split <;> omega

theorem debited_append : debited (turns ++ [a]) = debited turns + a.dueAmount := by
  rw [debited, List.map_append, List.sum_append, List.map_singleton, List.sum_singleton, debited]

/-- How far a withdrawal of `V` is after some turns. -/
structure Progress (V : ℤ) (turns : List Account) (a : Account) : Prop where
  toWithdraw : a.toWithdraw = V
  withdrawn : a.withdrawn = debited turns
  le : debited turns ≤ V
  running : a.nextQiWithdrawalTime ≠ maximum → a.qiWithdrawRate = withdrawRate V ∧
    debited turns = turns.length * withdrawRate V ∧ debited turns < V
  done : a.nextQiWithdrawalTime = maximum →
    turns.length ≤ 4 ∧ ((∀ c ∈ turns, Suffices c) → debited turns = V)

theorem Progress.congr (h : Progress V turns a) (hb : b.withdrawal = a.withdrawal) :
    Progress V turns b := by
  simp only [Account.withdrawal, Prod.mk.injEq] at hb
  obtain ⟨hrate, hnext, hwithdrawn, hto⟩ := hb
  exact ⟨hto.trans h.toWithdraw, hwithdrawn.trans h.withdrawn, h.le,
    fun hne ↦ hrate ▸ h.running (hnext ▸ hne), fun heq ↦ h.done (hnext ▸ heq)⟩

/-- After whole rates, an instalment is another rate or all that is left. -/
theorem Progress.instalment (h : Progress V turns a) (hne : a.nextQiWithdrawalTime ≠ maximum) :
    a.instalment ≤ V - debited turns ∧
      (a.instalment = V - debited turns ∨ a.instalment = withdrawRate V) := by
  obtain ⟨hrate, hpaid, hlt⟩ := h.running hne
  unfold Account.instalment
  rw [h.toWithdraw, h.withdrawn, hrate]
  generalize withdrawRate V = rate at hpaid ⊢
  split
  · next hrem =>
    have hmod : V % rate = V - debited turns := by
      have hsplit : V = (V - debited turns) + rate * turns.length := by
        rw [hpaid, mul_comm]
        omega
      calc V % rate = ((V - debited turns) + rate * turns.length) % rate := by rw [← hsplit]
        _ = (V - debited turns) % rate := Int.add_mul_emod_self_left ..
        _ = V - debited turns := Int.emod_eq_of_lt (by omega) hrem
    exact ⟨hmod.le, .inl hmod⟩
  · omega

/-- The turns done so far are less than four. -/
theorem Progress.length_lt (h : Progress V turns a) (hV : 0 < V)
    (hne : a.nextQiWithdrawalTime ≠ maximum) : turns.length < 4 := by
  obtain ⟨-, hpaid, hlt⟩ := h.running hne
  have hfour := le_four_rates V
  by_contra hge
  have hmul : 4 * withdrawRate V ≤ turns.length * withdrawRate V :=
    Int.mul_le_mul_of_nonneg_right (by omega) (withdrawRate_pos hV).le
  omega

theorem Progress.turn (h : Progress V turns a) (hV : 0 < V) (hne : a.nextQiWithdrawalTime ≠ maximum)
    (hnext : a.nextQiWithdrawalTime + weekInSeconds ≠ maximum) (hwhole : Whole id a)
    (hle : a.assets.qi ≤ q)
    (hq : (∀ r ∈ a.vestRoutes, r.1 = id → r.2.part a.dueAmount ≤ 0) → q = a.assets.qi)
    (hb : b.withdrawal = a.paid q) : Progress V (turns ++ [a]) b := by
  obtain ⟨hrate, hpaid, hlt⟩ := h.running hne
  have hlen := h.length_lt hV hne
  have hinstalment := h.instalment hne
  have hdue := a.dueAmount_eq
  simp only [Account.withdrawal, Account.paid, Prod.mk.injEq] at hb
  obtain ⟨hrate', hnext', hwithdrawn', hto'⟩ := hb
  rw [h.toWithdraw, h.withdrawn] at hrate' hnext'
  have hled : debited turns + a.dueAmount ≤ V := by omega
  refine ⟨hto'.trans h.toWithdraw, ?_, ?_, fun hrun ↦ ?_, fun hmax ↦ ⟨?_, fun hall ↦ ?_⟩⟩
  · rw [hwithdrawn', h.withdrawn, debited_append]
  · rwa [debited_append]
  · -- the withdrawal goes on: the instalment was a whole rate
    split at hnext'
    · exact absurd hnext' hrun
    · next hnot =>
      rw [if_neg hnot] at hrate'
      have hcovered : a.instalment ≤ a.assets.qi := by
        rcases hwhole with hcovered | hown
        · exact hcovered
        · have := hq hown
          omega
      rw [debited_append, List.length_append, List.length_singleton]
      refine ⟨hrate'.trans hrate, ?_, by omega⟩
      push_cast
      rw [add_mul, one_mul]
      omega
  · rw [List.length_append, List.length_singleton]
    omega
  · obtain ⟨hcovered, hmore⟩ := hall a (List.mem_append_right _ List.mem_cons_self)
    rw [h.toWithdraw, h.withdrawn] at hmore
    rw [debited_append]
    split at hnext'
    · omega
    · exact absurd (hnext'.symm.trans hmax) hnext

end Progress

section Order

variable {s t : State} {a b id : ℕ} {k k' : ℕ × ℕ} {u : Unit}

/-- The place of an account in `by_next_qi_withdrawal_time`. -/
def State.place (s : State) (a : ℕ) : ℕ × ℕ := ((s.account a).nextQiWithdrawalTime, a)

theorem before_iff : before k k' = true ↔ k.1 < k'.1 ∨ k.1 = k'.1 ∧ k.2 < k'.2 := decide_eq_true_iff

theorem firstOf_spec {l : List (ℕ × ℕ)} (h : k ∈ l) :
    ∃ first, firstOf l = some first ∧ first ∈ l ∧ before k first = false := by
  induction l generalizing k with
  | nil => cases h
  | cons x l ih =>
    rw [firstOf]
    cases hl : firstOf l with
    | none =>
      rcases List.mem_cons.mp h with rfl | h
      · exact ⟨k, rfl, List.mem_cons_self, by simp [before]⟩
      · obtain ⟨first, hfirst, -⟩ := ih h
        rw [hl] at hfirst
        cases hfirst
    | some y =>
      have hy : ∀ z ∈ l, y ∈ l ∧ before z y = false := fun z hz ↦ by
        obtain ⟨first, hfirst, hmem, hle⟩ := ih hz
        rw [hl] at hfirst
        cases hfirst
        exact ⟨hmem, hle⟩
      dsimp only
      split
      · next hxy =>
        refine ⟨x, rfl, List.mem_cons_self, ?_⟩
        rcases List.mem_cons.mp h with rfl | h
        · simp [before]
        · have hle := (hy k h).2
          rw [Bool.eq_false_iff, ne_eq, before_iff] at hle ⊢
          rw [before_iff] at hxy
          omega
      · next hxy =>
        rcases List.mem_cons.mp h with rfl | h
        · have hmem : y ∈ l := by
            cases l with
            | nil => cases hl
            | cons z l => exact (hy z List.mem_cons_self).1
          exact ⟨y, rfl, List.mem_cons_of_mem _ hmem, by simpa using hxy⟩
        · exact ⟨y, rfl, List.mem_cons_of_mem _ (hy k h).1, (hy k h).2⟩

/-- An account that is withdrawing is found from every place before its own. -/
theorem nextWithdrawal_spec (last : Option (ℕ × ℕ)) (hne : (s.account id).nextQiWithdrawalTime ≠ maximum)
    (hafter : ∀ k ∈ last, before k (s.place id) = true) :
    ∃ c, nextWithdrawal s last = some c ∧ before (s.place id) (s.place c) = false ∧
      ∀ k ∈ last, before k (s.place c) = true := by
  obtain ⟨acc, hacc⟩ : ∃ acc, s.accounts[id]? = some acc := by
    by_contra hnone
    rw [State.account, Option.eq_none_iff_forall_ne_some.mpr fun acc h ↦ hnone ⟨acc, h⟩] at hne
    exact hne rfl
  have hplace : ∀ {b : ℕ} {x : Account}, s.accounts[b]? = some x →
      s.place b = (x.nextQiWithdrawalTime, b) := fun hx ↦ by
    rw [State.place, State.account, hx]
    rfl
  have hmem : s.place id ∈ (s.accounts.toList.map fun r ↦ (r.2.nextQiWithdrawalTime, r.1)).filter
      fun k ↦ last.all fun k' ↦ before k' k :=
    List.mem_filter.mpr ⟨List.mem_map.mpr ⟨(id, acc), (mem_toList _ _ _).mpr hacc, (hplace hacc).symm⟩,
      (Option.all_eq_true _ _).mpr hafter⟩
  obtain ⟨first, hfirst, hin, hle⟩ := firstOf_spec hmem
  obtain ⟨hin, hall⟩ := List.mem_filter.mp hin
  obtain ⟨⟨c, x⟩, hx, rfl⟩ := List.mem_map.mp hin
  have hc := hplace ((mem_toList _ _ _).mp hx)
  refine ⟨c, by rw [nextWithdrawal, hfirst]; rfl, hc ▸ hle, hc ▸ (Option.all_eq_true _ _).mp hall⟩

theorem place_withdrawTurn (hturn : (withdrawTurn b).run s = .ok u t) (h : b ≠ a) :
    t.place a = s.place a := by
  obtain ⟨q, -, -, -, hafter⟩ := withdrawTurn_ok hturn
  have ha := hafter a
  rw [if_neg h] at ha
  have hnext : (t.account a).nextQiWithdrawalTime = (s.account a).nextQiWithdrawalTime :=
    congrArg (fun w ↦ w.2.1) ha
  rw [State.place, State.place, hnext]

/-- The loop gives a turn to each account that is due and that it has not passed. -/
theorem turn_of_due {n c : ℕ} (hmax : s.props.time < maximum)
    (hdue : (s.account id).nextQiWithdrawalTime ≤ s.props.time)
    (hc : before (s.place id) (s.place c) = false) (hrun : (withdrawFrom n (some c)).run s = .ok u t) :
    ∃ turn ∈ turnsFrom n (some c) s, turn.1 = id := by
  induction n generalizing s c with
  | zero => cases hrun
  | succ n ih =>
    rw [Bool.eq_false_iff, ne_eq, before_iff] at hc
    simp only [State.place] at hc
    have hcdue : (s.account c).nextQiWithdrawalTime ≤ s.props.time := by omega
    obtain ⟨acc, _, hacc, hrest⟩ := bind_ok.mp hrun
    obtain ⟨rfl, rfl⟩ := account_of_getAccount hacc
    replace hrest := after_get hrest
    rw [turnsFrom, if_pos hcdue]
    rw [if_pos hcdue] at hrest
    by_cases heq : c = id
    · exact ⟨_, List.mem_cons_self, heq⟩
    · obtain ⟨_, s₁, hturn, hrest₁⟩ := bind_ok.mp hrest
      obtain ⟨q, -, -, htime₁, -⟩ := withdrawTurn_ok hturn
      rename_i s₀ _
      obtain ⟨d, hd, hle, hlt⟩ := nextWithdrawal_spec (s := s₀) (some (s₀.place c))
        (by omega : (s₀.account id).nextQiWithdrawalTime ≠ maximum) (by
          rintro k ⟨⟩
          rw [before_iff]
          simp only [State.place]
          omega)
      have hcd : c ≠ d := by
        rintro rfl
        have := before_iff.mp (hlt _ rfl)
        omega
      change nextWithdrawal s₀ (some ((s₀.account c).nextQiWithdrawalTime, c)) = some d at hd
      rw [hd, after_ok hturn]
      rw [hd] at hrest₁
      have hid := place_withdrawTurn hturn heq
      have hdue₁ : (s₁.account id).nextQiWithdrawalTime ≤ s₁.props.time := by
        have hnext : (s₁.account id).nextQiWithdrawalTime = (s₀.account id).nextQiWithdrawalTime :=
          congrArg Prod.fst hid
        omega
      obtain ⟨turn, hmem, hturn₁⟩ := ih (htime₁ ▸ hmax) hdue₁
        (by rw [hid, place_withdrawTurn hturn hcd]; exact hle) hrest₁
      exact ⟨turn, List.mem_cons_of_mem _ hmem, hturn₁⟩

end Order

section Runs

variable {hash : ℕ → ℕ} {V qi : ℤ} {turns : List Account} {id b : ℕ} {s s₀ s₁ t : State} {u : Unit}

theorem progress_withdrawFrom {n : ℕ} {current : Option ℕ} (hV : 0 < V)
    (htime : s.props.time + weekInSeconds < maximum) (h : Progress V turns (s.account id))
    (hrun : (withdrawFrom n current).run s = .ok u t)
    (hwhole : ∀ c ∈ ((turnsFrom n current s).filter (·.1 = id)).map fun turn ↦ turn.2.account id,
      Whole id c) :
    Progress V (turns ++ ((turnsFrom n current s).filter (·.1 = id)).map fun turn ↦ turn.2.account id)
      (t.account id) ∧ t.props.time = s.props.time := by
  induction n generalizing s current turns with
  | zero => cases current <;> cases hrun
  | succ n ih =>
    cases current with
    | none =>
      cases hrun
      exact ⟨by simpa [turnsFrom] using h, rfl⟩
    | some b =>
      obtain ⟨acc, _, hacc, hrest⟩ := bind_ok.mp hrun
      obtain ⟨rfl, rfl⟩ := account_of_getAccount hacc
      replace hrest := after_get hrest
      rw [turnsFrom] at hwhole ⊢
      split at hrest
      · next hdue =>
        obtain ⟨_, s₁, hturn, hrest₁⟩ := bind_ok.mp hrest
        obtain ⟨q, hle, hq, htime₁, hafter⟩ := withdrawTurn_ok hturn
        rw [if_pos hdue, after_ok hturn] at hwhole ⊢
        by_cases hb : b = id
        · subst hb
          rw [List.filter_cons_of_pos (by simp), List.map_cons] at hwhole ⊢
          have hb := hafter b
          rw [if_pos rfl] at hb
          have hstep := h.turn hV (by omega) (by omega) (hwhole _ List.mem_cons_self) hle hq hb
          obtain ⟨hp, ht⟩ := ih (htime₁ ▸ htime) hstep hrest₁
            fun c hc ↦ hwhole c (List.mem_cons_of_mem _ hc)
          rw [List.append_assoc] at hp
          exact ⟨hp, ht.trans htime₁⟩
        · rw [List.filter_cons_of_neg (by simpa using hb)] at hwhole ⊢
          have hid := hafter id
          rw [if_neg hb] at hid
          obtain ⟨hp, ht⟩ := ih (htime₁ ▸ htime) (h.congr hid) hrest₁ hwhole
          exact ⟨hp, ht.trans htime₁⟩
      · next hdue =>
        cases hrest
        rw [if_neg hdue]
        exact ⟨by simpa using h, rfl⟩

/-- A request changes the withdrawal of its own account only. -/
theorem withdrawQi_other (hrun : (withdrawQi b qi).run s = .ok u t) (hb : b ≠ id) :
    (t.account id).withdrawal = (s.account id).withdrawal ∧ t.props.time = s.props.time := by
  obtain ⟨hqi, hrest⟩ := after_require hrun
  obtain ⟨_, r₀, hfee, hrest₁⟩ := bind_ok.mp hrest
  have hs : Spends (taken b 10) s r₀ := after_ok hfee ▸ spends_chargeTreasury
  obtain ⟨acc, r, hacc, hrest₂⟩ := bind_ok.mp hrest₁
  obtain ⟨rfl, rfl⟩ := account_of_getAccount hacc
  have hkept : ∀ {f : Account → Account}, (modifyAccount b f).run r = .ok u t →
      (t.account id).withdrawal = (s.account id).withdrawal ∧ t.props.time = s.props.time := by
    intro f hmod
    obtain ⟨hafter, htime⟩ := modifyAccount_ok hmod
    rw [hafter id, if_neg hb]
    exact ⟨Account.withdrawal_of_promised (hs.promised id), htime.trans hs.time⟩
  obtain ⟨-, hrest₃⟩ := after_require hrest₂
  split at hrest₃
  · exact hkept (after_require hrest₃).2
  · exact hkept (after_get (after_require hrest₃).2)

/-- The other actions leave the withdrawal as it is. -/
theorem withdrawal_step {act : Action} (hact : act.step hash s = some t) (hcalm : act.calm id = true)
    (hr : act ≠ .routine .processQiWithdrawals) (hs : s.props.time + weekInSeconds < maximum) :
    (t.account id).withdrawal = (s.account id).withdrawal ∧ t.props.time + weekInSeconds < maximum := by
  by_cases hw : act.Withdraws
  · have ht := after_of_step hact
    cases hw with
    | withdrawQi b qi =>
      rw [Action.calm, decide_eq_true_iff] at hcalm
      obtain ⟨hsame, heq⟩ := withdrawQi_other ht hcalm
      exact ⟨hsame, heq ▸ hs⟩
    | processQiWithdrawals => exact absurd rfl hr
    | headBlock n time siming vt =>
      obtain ⟨hacc, heq⟩ := headBlock_ok ht
      rw [State.account, hacc, heq]
      rw [Action.calm, decide_eq_true_iff] at hcalm
      exact ⟨rfl, hcalm⟩
  · by_cases hp : act.plain
    · have hspends := spends_step hact hp hw
      exact ⟨Account.withdrawal_of_promised (hspends.promised id), hspends.time ▸ hs⟩
    · cases act with
      | outside o =>
        cases o with
        | delegateQi b delegated =>
          obtain ⟨hafter, heq⟩ := modifyAccount_ok (after_of_step hact)
          rw [hafter id]
          refine ⟨?_, heq ▸ hs⟩
          split <;> rfl
        | _ => exact absurd trivial hp
      | _ => exact absurd trivial hp

/-- What a request for `V` leaves. -/
theorem progress_withdrawQi (hrun : (withdrawQi id V).run s = .ok u t) (hV : 0 < V)
    (hs : s.props.time + weekInSeconds < maximum) :
    Progress V [] (t.account id) ∧ t.props.time + weekInSeconds < maximum := by
  obtain ⟨hqi, hrest⟩ := after_require hrun
  obtain ⟨_, r₀, hfee, hrest₁⟩ := bind_ok.mp hrest
  have hspends : Spends (taken id 10) s r₀ := after_ok hfee ▸ spends_chargeTreasury
  obtain ⟨acc, r, hacc, hrest₂⟩ := bind_ok.mp hrest₁
  obtain ⟨rfl, rfl⟩ := account_of_getAccount hacc
  obtain ⟨-, hrest₃⟩ := after_require hrest₂
  rw [if_neg (by omega)] at hrest₃
  obtain ⟨hafter, htime⟩ := modifyAccount_ok (after_get (after_require hrest₃).2)
  rw [hafter id, if_pos rfl]
  refine ⟨⟨rfl, rfl, hV.le, fun _ ↦ ⟨rfl, by simp [debited], hV⟩, fun hmax ↦ ?_⟩, ?_⟩
  · change r.props.time + weekInSeconds = maximum at hmax
    rw [hspends.time] at hmax
    omega
  · rw [htime, hspends.time]
    exact hs

theorem progress_of_powersDown (hV : 0 < V) (h : PowersDown hash id s₁ turns t)
    (hs : Progress V [] (s₁.account id)) (htime : s₁.props.time + weekInSeconds < maximum)
    (hwhole : ∀ c ∈ turns, Whole id c) :
    Progress V turns (t.account id) ∧ t.props.time + weekInSeconds < maximum := by
  induction h with
  | start => exact ⟨hs, htime⟩
  | @step turns s t act h hcalm hact ih =>
    obtain ⟨hp, ht⟩ := ih fun c hc ↦ hwhole c (List.mem_append_left _ hc)
    by_cases hr : act = .routine .processQiWithdrawals
    · subst hr
      obtain ⟨hp', ht'⟩ := progress_withdrawFrom hV ht hp (after_get (after_of_step hact))
        fun c hc ↦ hwhole c (List.mem_append_right _ hc)
      exact ⟨hp', ht' ▸ ht⟩
    · obtain ⟨hsame, ht'⟩ := withdrawal_step hact hcalm hr ht
      have hnone : act.turnsOf id s = [] := by
        cases act with
        | routine r =>
          cases r with
          | processQiWithdrawals => exact absurd rfl hr
          | _ => rfl
        | _ => rfl
      rw [hnone, List.append_nil]
      exact ⟨hp.congr hsame, ht'⟩

/-- A run of `process_qi_withdrawals` gives a turn to an account that is due. -/
theorem turn_of_processQiWithdrawals (htime : s.props.time < maximum)
    (hdue : (s.account id).nextQiWithdrawalTime ≤ s.props.time)
    (hact : (Action.routine .processQiWithdrawals).step hash s = some t) :
    (Action.routine .processQiWithdrawals).turnsOf id s ≠ [] := by
  have hrun := after_get (after_of_step hact)
  obtain ⟨c, hc, hle, -⟩ := nextWithdrawal_spec (s := s) none
    (by omega : (s.account id).nextQiWithdrawalTime ≠ maximum) nofun
  rw [hc] at hrun
  obtain ⟨turn, hmem, hturn⟩ := turn_of_due htime hdue hle hrun
  rw [Action.turnsOf, hc, ne_eq, List.map_eq_nil_iff]
  exact List.ne_nil_of_mem (List.mem_filter.mpr ⟨hmem, decide_eq_true hturn⟩)

/-- A request for `V` QI takes no more than that over the turns that follow, which are at most
four, and all of it where the QI of the account suffices. Each run gives it a turn when it is due. -/
theorem powerDown (hV : 0 < V) (hs : s₀.props.time + weekInSeconds < maximum)
    (hreq : (withdrawQi id V).run s₀ = .ok u s₁) (h : PowersDown hash id s₁ turns t)
    (hwhole : ∀ c ∈ turns, Whole id c) :
    (t.account id).withdrawn ≤ (t.account id).toWithdraw ∧
      (turns.length ≤ 4 ∧
        (turns.length = 4 → (t.account id).nextQiWithdrawalTime = maximum)) ∧
      (∀ t', (Action.routine .processQiWithdrawals).step hash t = some t' →
        (t.account id).nextQiWithdrawalTime ≤ t.props.time →
        (Action.routine .processQiWithdrawals).turnsOf id t ≠ []) ∧
      ((∀ c ∈ turns, Suffices c) → (t.account id).nextQiWithdrawalTime = maximum →
        debited turns = V) := by
  obtain ⟨hfirst, htime⟩ := progress_withdrawQi hreq hV hs
  obtain ⟨hp, ht⟩ := progress_of_powersDown hV h hfirst htime hwhole
  refine ⟨?_, ⟨?_, fun hfour ↦ ?_⟩, fun t' hact hdue ↦ ?_, fun hall hmax ↦ (hp.done hmax).2 hall⟩
  · rw [hp.withdrawn, hp.toWithdraw]
    exact hp.le
  · by_cases hmax : (t.account id).nextQiWithdrawalTime = maximum
    · exact (hp.done hmax).1
    · exact (hp.length_lt hV hmax).le
  · by_contra hne
    have := hp.length_lt hV hne
    omega
  · exact turn_of_processQiWithdrawals (by omega) hdue hact

end Runs

section Cut

variable {hash : ℕ → ℕ} {id : ℕ} {s t : State}

theorem powersDown_of_runActions {acts : List Action} {s₁ : State} {turns : List Account}
    (h : PowersDown hash id s₁ turns s) (hcalm : ∀ act ∈ acts, act.calm id = true)
    (hrun : runActions hash s acts = some t) : ∃ turns, PowersDown hash id s₁ turns t := by
  induction acts generalizing s turns with
  | nil =>
    cases hrun
    exact ⟨turns, h⟩
  | cons act acts ih =>
    obtain ⟨u, hu, hrest⟩ := Option.bind_eq_some_iff.mp hrun
    exact ih (.step act h (hcalm act List.mem_cons_self) hu)
      (fun b hb ↦ hcalm b (List.mem_cons_of_mem _ hb)) hrest

/-- The first siming gives danuo QI and YANG, and routes its own withdrawals back to itself. -/
def routedBack : List Action :=
  [.operation (.transferToQi initSiming danuo 1), .operation (.transfer initSiming danuo 1 .yang),
    .operation (.setWithdrawQiRoute initSiming initSiming 10000 true)]

/-- A run of the withdrawals some weeks after the genesis. -/
def weekly (week : ℕ) : List Action :=
  [.outside (.headBlock week (1762840800 + week * weekInSeconds) initSiming 0),
    .routine .processQiWithdrawals]

/-- It spends its QI but for one, gets more after the first week, and withdraws for five. -/
def cutShort : List Action :=
  .operation (.createContract initSiming 1969) :: weekly 1 ++
    .operation (.transferToQi danuo initSiming 1) :: weekly 2 ++ weekly 3 ++ weekly 4 ++ weekly 5

/-- Of 1000 QI, eleven are asked for and three are taken after a week. -/
theorem powerDown_week : ∃ s₁ s₂ t, (withdrawQi initSiming 11).run (genesis 0 1000) = .ok ⟨⟩ s₁ ∧
    (Action.outside (.headBlock 1 (1762840800 + weekInSeconds) initSiming 0)).step (· + 1) s₁ = some s₂ ∧
    (Action.routine .processQiWithdrawals).step (· + 1) s₂ = some t ∧
    (t.account initSiming).withdrawn ≤ (t.account initSiming).toWithdraw := by
  have hrun : ((Action.operation (.withdrawQi initSiming 11)).step (· + 1) (genesis 0 1000)).bind
      (fun s₁ ↦ ((Action.outside (.headBlock 1 (1762840800 + weekInSeconds) initSiming 0)).step
        (· + 1) s₁).bind fun s₂ ↦ ((Action.routine .processQiWithdrawals).step (· + 1) s₂).map
          fun _ ↦ ((Action.routine .processQiWithdrawals).turnsOf initSiming s₂).all
            fun c ↦ decide (Whole initSiming c)) = some true := by decide +kernel
  obtain ⟨s₁, h₁, hrun⟩ := Option.bind_eq_some_iff.mp hrun
  obtain ⟨s₂, h₂, hrun⟩ := Option.bind_eq_some_iff.mp hrun
  obtain ⟨t, ht, hwhole⟩ := Option.map_eq_some_iff.mp hrun
  have hreq : (withdrawQi initSiming 11).run (genesis 0 1000) = .ok ⟨⟩ s₁ := after_of_step h₁
  have hweek : PowersDown (· + 1) initSiming s₁ [] s₂ :=
    .step (.outside (.headBlock 1 (1762840800 + weekInSeconds) initSiming 0)) .start (by decide) h₂
  refine ⟨s₁, s₂, t, hreq, h₂, ht, ?_⟩
  exact (powerDown (by decide) (by decide) hreq (.step (.routine .processQiWithdrawals) hweek rfl ht)
    fun c hc ↦ of_decide_eq_true (List.all_eq_true.mp hwhole c hc)).1

/-- What the first instalment leaves of the request is no whole rate less, and the last one takes
more than is left. -/
theorem withdrawn_more : ¬∀ hash s₀ s₁ t u V id turns, Reaches hash (fun _ _ ↦ True) (genesis 10 2000) s₀ →
    0 < V → s₀.props.time + weekInSeconds < maximum → (withdrawQi id V).run s₀ = .ok u s₁ →
    PowersDown hash id s₁ turns t → (t.account id).withdrawn ≤ (t.account id).toWithdraw := by
  intro h
  have hrun : ((runActions (· + 1) (genesis 10 2000) routedBack).bind fun s₀ ↦
      ((Action.operation (.withdrawQi initSiming 11)).step (· + 1) s₀).bind fun s₁ ↦
        (runActions (· + 1) s₁ cutShort).map fun t ↦
          decide (s₀.props.time + weekInSeconds < maximum) &&
            decide ((t.account initSiming).toWithdraw < (t.account initSiming).withdrawn)) =
        some true := by decide +kernel
  obtain ⟨s₀, h₀, hrun⟩ := Option.bind_eq_some_iff.mp hrun
  obtain ⟨s₁, h₁, hrun⟩ := Option.bind_eq_some_iff.mp hrun
  obtain ⟨t, ht, hmore⟩ := Option.map_eq_some_iff.mp hrun
  obtain ⟨htime, hmore⟩ := Bool.and_eq_true_iff.mp hmore
  have hreq : (withdrawQi initSiming 11).run s₀ = .ok ⟨⟩ s₁ := after_of_step h₁
  have hcalm : ∀ act ∈ cutShort, act.calm initSiming = true := by decide
  obtain ⟨turns, hturns⟩ := powersDown_of_runActions .start hcalm ht
  have hle := h (· + 1) s₀ s₁ t ⟨⟩ 11 initSiming turns (reaches_of_runActions h₀) (by decide)
    (of_decide_eq_true htime) hreq hturns
  exact absurd hle (by simpa using hmore)

end Cut

end Taiyi.Ledger
