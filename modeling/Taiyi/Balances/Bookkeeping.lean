import Taiyi.Balances.Adjust

set_option autoImplicit false

namespace Taiyi.Balances

open Library.Attempt Library.Ends Library.SparseRows Protocol AccountRegularBalance NfaRegularBalance

inductive Owner
  | account (name : AccountName)
  | nfa (id : ℕ)
  deriving DecidableEq

/-- The two balances of a row. -/
def AccountRegularBalance.amounts (b : AccountRegularBalance) : ℤ × ℤ :=
  (b.liquid.amount.value, b.qi.amount.value)

def NfaRegularBalance.amount (b : NfaRegularBalance) : ℤ := b.liquid.amount.value

/-- The part of a row's balances that a symbol means. -/
def part (symbol : AssetSymbol) (amounts : ℤ × ℤ) : ℤ := if symbol.isQi then amounts.2 else amounts.1

/-- The balance of a symbol: a field of the account or NFA, or in a row, where no row means zero. -/
def State.balance (s : State) : Owner → AssetSymbol → ℤ
  | .account a, symbol =>
    match symbol.legacy with
    | some .yang => (find AccountObject.name s.accounts a).elim 0 (·.balance.amount.value)
    | some .qi => (find AccountObject.name s.accounts a).elim 0 (·.qi.amount.value)
    | _ => part symbol (value byOwnerLiquidSymbol amounts s.accountRegularBalances (a, liquidSymbol symbol))
  | .nfa n, symbol =>
    if symbol.legacy = some .qi then (find NfaObject.id s.nfas n).elim 0 (·.qi.amount.value)
    else value byNfaLiquidSymbol amount s.nfaRegularBalances (n, symbol)

/-- No balance is negative, an owner has one row at most for a symbol, and no row is zero. -/
structure Sound (s : State) : Prop where
  names : Unique AccountObject.name s.accounts
  ids : Unique NfaObject.id s.nfas
  accounts : ∀ a ∈ s.accounts, 0 ≤ a.balance.amount.value ∧ 0 ≤ a.qi.amount.value
  nfas : ∀ n ∈ s.nfas, 0 ≤ n.qi.amount.value
  accountRows : Sparse byOwnerLiquidSymbol amounts s.accountRegularBalances
  nfaRows : Sparse byNfaLiquidSymbol amount s.nfaRegularBalances
  accountAmounts : ∀ b ∈ s.accountRegularBalances, 0 ≤ b.amounts.1 ∧ 0 ≤ b.amounts.2
  nfaAmounts : ∀ b ∈ s.nfaRegularBalances, 0 ≤ b.amount

/-- The balances but the one of the owner and the symbol are what they were, and it is more by the
delta. -/
def Adjusted (o : Owner) (delta : Asset) (s t : State) : Prop :=
  ∀ o' symbol, t.balance o' symbol =
    s.balance o' symbol + if o' = o ∧ symbol = delta.symbol then delta.amount.value else 0

section Rules

variable {α : Type} {s : State} {E : State → Prop}

theorem ends_require {c : Prop} [Decidable c] {msg : String} {Q : Unit → State → Prop} :
    ends (require c msg) Q E s ↔ (c → Q ⟨⟩ s) ∧ (¬c → E s) := by
  unfold require
  by_cases hc : c
  · rw [if_pos hc, ends_pure]
    exact ⟨fun h ↦ ⟨fun _ ↦ h, fun hn ↦ absurd hc hn⟩, fun h ↦ h.1 hc⟩
  · rw [if_neg hc, ends_throw]
    exact ⟨fun h ↦ ⟨fun h' ↦ absurd h' hc, fun _ ↦ h⟩, fun h ↦ h.2 hc⟩

theorem ends_attempt {x : Except String α} {Q : α → State → Prop} (hq : ∀ a, x = .ok a → Q a s)
    (he : E s) : ends (attempt x) Q E s := by
  cases x with
  | ok a => exact hq a rfl
  | error e => exact he

theorem ends_getAccount {name : AccountName} {Q : AccountObject → State → Prop}
    (hq : ∀ a, find AccountObject.name s.accounts name = some a → Q a s) (he : E s) :
    ends (getAccount name) Q E s := by
  rw [getAccount, ends_bind, ends_get]
  cases hf : find AccountObject.name s.accounts name with
  | some a => exact hq a hf
  | none => exact he

theorem ends_getNfa {id : ℕ} {Q : NfaObject → State → Prop}
    (hq : ∀ n, find NfaObject.id s.nfas id = some n → Q n s) (he : E s) : ends (getNfa id) Q E s := by
  rw [getNfa, ends_bind, ends_get]
  cases hf : find NfaObject.id s.nfas id with
  | some n => exact hq n hf
  | none => exact he

end Rules

section Reading

variable {s : State}

theorem ends_getBalance (a : AccountName) (symbol : AssetSymbol) :
    ends (getBalance a symbol) (fun b t ↦ t = s ∧ b.amount.value = s.balance (.account a) symbol)
      (· = s) s := by
  unfold getBalance
  split
  · next h =>
    rw [ends_bind]
    refine ends_getAccount (fun acc hf ↦ ⟨rfl, ?_⟩) rfl
    rw [State.balance, h]
    simp only [hf, Option.elim_some]
  · next h =>
    rw [ends_bind]
    refine ends_getAccount (fun acc hf ↦ ⟨rfl, ?_⟩) rfl
    rw [State.balance, h]
    simp only [hf, Option.elim_some]
  · next hyang hqi =>
    have hb : s.balance (.account a) symbol = part symbol
        (value byOwnerLiquidSymbol amounts s.accountRegularBalances (a, liquidSymbol symbol)) := by
      rw [State.balance]
      split
      · next h => exact absurd h hyang
      · next h => exact absurd h hqi
      · rfl
    rw [ends_bind, ends_require]
    refine ⟨fun _ ↦ ?_, fun _ ↦ rfl⟩
    rw [ends_bind, ends_get, hb]
    cases hf : find byOwnerLiquidSymbol s.accountRegularBalances (a, liquidSymbol symbol) with
    | none =>
      rw [value_of_none hf, part]
      exact ⟨rfl, by split <;> rfl⟩
    | some b =>
      rw [value_of_find hf, part]
      exact ⟨rfl, by split <;> rfl⟩

theorem ends_getBalanceByName (a : AccountName) (symbol : AssetSymbol) :
    ends (getBalanceByName a symbol) (fun b t ↦ t = s ∧ b.amount.value = s.balance (.account a) symbol)
      (· = s) s := by
  rw [getBalanceByName, ends_bind]
  refine ends_getAccount (fun acc hf ↦ ?_) rfl
  obtain ⟨-, rfl⟩ := find_some hf
  exact ends_getBalance _ symbol

theorem ends_getNfaBalance (n : ℕ) (symbol : AssetSymbol) :
    ends (getNfaBalance n symbol) (fun b t ↦ t = s ∧ b.amount.value = s.balance (.nfa n) symbol)
      (· = s) s := by
  rw [getNfaBalance, State.balance]
  split
  · rw [ends_bind]
    refine ends_getNfa (fun obj hf ↦ ⟨rfl, ?_⟩) rfl
    rw [hf, Option.elim_some]
  · rw [ends_bind, ends_get]
    cases hf : find byNfaLiquidSymbol s.nfaRegularBalances (n, symbol) with
    | none => exact ⟨rfl, (value_of_none hf).symm⟩
    | some b =>
      have hvalue : value byNfaLiquidSymbol amount s.nfaRegularBalances (n, symbol) = b.amount := value_of_find hf
      exact ⟨rfl, hvalue.symm⟩

/-- A balance that is adjusted by less than zero covers the delta. -/
theorem ends_requireAvailable {available : Call Asset} {delta : Asset} {msg : String} {v : ℤ}
    (h : ends available (fun b t ↦ t = s ∧ b.amount.value = v) (· = s) s) :
    ends (requireAvailable available delta msg)
      (fun _ t ↦ t = s ∧ (delta.amount.value < 0 → 0 ≤ v + delta.amount.value)) (· = s) s := by
  unfold requireAvailable
  split
  · rw [ends_bind]
    refine ends_attempt (fun required hneg ↦ ?_) rfl
    rw [ends_bind]
    refine ends_mono h ?_ fun t ht ↦ ht
    rintro b t ⟨rfl, hb⟩
    rw [ends_bind]
    refine ends_attempt (fun enough hge ↦ ?_) rfl
    rw [ends_require]
    refine ⟨fun htrue ↦ ⟨rfl, fun _ ↦ ?_⟩, fun _ ↦ rfl⟩
    have hle := Asset.ge_ok (htrue ▸ hge)
    rw [Asset.neg_ok hneg] at hle
    omega
  · next hd => exact ⟨rfl, fun h ↦ absurd h hd⟩

end Reading

/-- The balances of a row with a delta added to one of them. -/
def bump (delta : Asset) (amounts : ℤ × ℤ) : ℤ × ℤ :=
  if delta.symbol.isQi then (amounts.1, amounts.2 + delta.amount.value)
  else (amounts.1 + delta.amount.value, amounts.2)

section Rows

variable {s : State} {delta : Asset} {b b' : AccountRegularBalance} {n n' : NfaRegularBalance}

theorem part_bump (amounts : ℤ × ℤ) : part delta.symbol (bump delta amounts) =
    part delta.symbol amounts + delta.amount.value := by
  unfold part bump
  split <;> rfl

theorem addToBalance_ok (h : AccountRegularBalance.addToBalance delta b = .ok b') :
    b'.byOwnerLiquidSymbol = b.byOwnerLiquidSymbol ∧ b'.amounts = bump delta b.amounts := by
  unfold AccountRegularBalance.addToBalance at h
  unfold bump
  split at h
  · next hqi =>
    obtain ⟨qi, hadd, rfl⟩ := map_eq_ok.mp h
    rw [if_pos hqi]
    exact ⟨rfl, Prod.ext rfl (Asset.add_ok.mp hadd).2.2⟩
  · next hqi =>
    obtain ⟨liquid, hadd, rfl⟩ := map_eq_ok.mp h
    obtain ⟨-, hsymbol, hvalue⟩ := Asset.add_ok.mp hadd
    rw [if_neg hqi]
    exact ⟨Prod.ext rfl hsymbol, Prod.ext hvalue rfl⟩

theorem getCombinedBalance_ok {result : ℤ} {isAllZero : Bool}
    (h : AccountRegularBalance.getCombinedBalance delta b = .ok (result, isAllZero)) :
    result = part delta.symbol (bump delta b.amounts) ∧
      (isAllZero = true ↔ bump delta b.amounts = 0) := by
  obtain ⟨sum, hsum, heq⟩ := map_eq_ok.mp h
  rw [Prod.mk.injEq] at heq
  obtain ⟨rfl, rfl⟩ := heq
  rw [part_bump, part, Bool.and_eq_true, decide_eq_true_eq, decide_eq_true_eq, Prod.ext_iff, bump]
  split at hsum
  · next hqi =>
    rw [if_pos hqi, if_pos hqi, if_pos hqi, (Asset.add_ok.mp hsum).2.2]
    exact ⟨rfl, and_comm⟩
  · next hqi =>
    rw [if_neg hqi, if_neg hqi, if_neg hqi, (Asset.add_ok.mp hsum).2.2]
    exact ⟨rfl, Iff.rfl⟩

theorem nfaAddToBalance_ok (h : NfaRegularBalance.addToBalance delta n = .ok n') :
    n'.byNfaLiquidSymbol = n.byNfaLiquidSymbol ∧ n'.amount = n.amount + delta.amount.value := by
  obtain ⟨liquid, hadd, rfl⟩ := map_eq_ok.mp h
  obtain ⟨-, hsymbol, hvalue⟩ := Asset.add_ok.mp hadd
  exact ⟨Prod.ext rfl hsymbol, hvalue⟩

theorem nfaGetCombinedBalance_ok {result : ℤ} {isAllZero : Bool}
    (h : NfaRegularBalance.getCombinedBalance delta n = .ok (result, isAllZero)) :
    result = n.amount + delta.amount.value ∧ (isAllZero = true ↔ n.amount + delta.amount.value = 0) := by
  obtain ⟨sum, hsum, heq⟩ := map_eq_ok.mp h
  rw [Prod.mk.injEq] at heq
  obtain ⟨rfl, rfl⟩ := heq
  rw [(Asset.add_ok.mp hsum).2.2, decide_eq_true_eq]
  exact ⟨rfl, Iff.rfl⟩

/-- The parts of a row other than the one of the delta are as they were. -/
theorem bump_nonneg {amounts : ℤ × ℤ} (h : 0 ≤ amounts.1 ∧ 0 ≤ amounts.2)
    (hpart : 0 ≤ part delta.symbol (bump delta amounts)) :
    0 ≤ (bump delta amounts).1 ∧ 0 ≤ (bump delta amounts).2 := by
  unfold part bump at *
  split at hpart
  · next hqi =>
    rw [if_pos hqi]
    exact ⟨h.1, hpart⟩
  · next hqi =>
    rw [if_neg hqi]
    exact ⟨hpart, h.2⟩

theorem bump_zero_ne (h : delta.amount.value ≠ 0) : bump delta 0 ≠ 0 := by
  unfold bump
  split <;> simpa [Prod.ext_iff] using h

/-- An adjustment of a row of an account: it is created, changed or removed as its balances ask. -/
theorem ends_adjustAssetBalance (hs : Sound s) (name : AccountName) (delta : Asset) (checkAccount : Bool) :
    ends (adjustAssetBalance name delta checkAccount)
      (fun _ t ↦ ∃ rows, t = { s with accountRegularBalances := rows } ∧
        Puts byOwnerLiquidSymbol amounts s.accountRegularBalances rows (name, liquidSymbol delta.symbol)
          (bump delta (value byOwnerLiquidSymbol amounts s.accountRegularBalances
            (name, liquidSymbol delta.symbol))) ∧
        ∀ b ∈ rows, 0 ≤ b.amounts.1 ∧ 0 ≤ b.amounts.2) (· = s) s := by
  unfold adjustAssetBalance
  rw [ends_bind, ends_get]
  simp only
  cases hf : find byOwnerLiquidSymbol s.accountRegularBalances (name, liquidSymbol delta.symbol) with
  | none =>
    simp only
    rw [ends_bind, ends_require, value_of_none hf]
    refine ⟨fun hd ↦ ?_, fun _ ↦ rfl⟩
    split
    · next hzero =>
      have hbump : bump delta 0 = 0 := by
        unfold bump
        rw [hzero]
        split <;> rfl
      have hputs := hs.accountRows.puts_self (k := (name, liquidSymbol delta.symbol))
      rw [value_of_none hf] at hputs
      rw [hbump]
      exact ⟨_, rfl, hputs, hs.accountAmounts⟩
    · next hzero =>
      -- the account that is looked up does not change the state
      have hcreate : ends (do
          createAccountRegularBalance (← attempt (AccountRegularBalance.addToBalance delta
            { clearBalance (liquidSymbol delta.symbol) with owner := name })))
          (fun _ t ↦ ∃ rows, t = { s with accountRegularBalances := rows } ∧
            Puts byOwnerLiquidSymbol amounts s.accountRegularBalances rows
              (name, liquidSymbol delta.symbol) (bump delta 0) ∧
            ∀ b ∈ rows, 0 ≤ b.amounts.1 ∧ 0 ≤ b.amounts.2) (· = s) s := by
        rw [ends_bind]
        refine ends_attempt (fun b hb ↦ ?_) rfl
        obtain ⟨hkey, hamounts⟩ := addToBalance_ok hb
        have hkey' : b.byOwnerLiquidSymbol = (name, liquidSymbol delta.symbol) := hkey
        have hamounts' : b.amounts = bump delta 0 := hamounts
        rw [createAccountRegularBalance, ends_bind, ends_get, ends_bind, ends_require]
        refine ⟨fun _ ↦ ⟨_, rfl, ?_, ?_⟩, fun _ ↦ rfl⟩
        · rw [← hkey', ← hamounts']
          exact hs.accountRows.puts_append (hkey' ▸ hf) (hamounts' ▸ bump_zero_ne hzero)
        · rw [List.forall_mem_append, List.forall_mem_singleton, hamounts']
          refine ⟨hs.accountAmounts, bump_nonneg ⟨le_refl 0, le_refl 0⟩ ?_⟩
          rw [part_bump, part]
          split <;> simpa using hd
      split
      · rw [ends_bind]
        exact ends_getAccount (fun _ _ ↦ hcreate) rfl
      · exact hcreate
  | some b =>
    simp only
    rw [ends_bind, value_of_find hf]
    refine ends_attempt (fun r hr ↦ ?_) rfl
    obtain ⟨result, isAllZero⟩ := r
    obtain ⟨rfl, hall⟩ := getCombinedBalance_ok hr
    simp only
    rw [ends_bind, ends_require]
    refine ⟨fun hpart ↦ ?_, fun _ ↦ rfl⟩
    split
    · next hzero =>
      rw [ends_modify, hall.mp hzero]
      exact ⟨_, rfl, hs.accountRows.puts_remove hf, forall_remove hs.accountAmounts⟩
    · next hzero =>
      rw [ends_bind]
      refine ends_attempt (fun b' hb' ↦ ?_) rfl
      obtain ⟨hkey, hamounts⟩ := addToBalance_ok hb'
      rw [ends_modify, ← hamounts]
      rw [hall, ← hamounts] at hzero
      refine ⟨_, rfl, hs.accountRows.puts_update hf hkey hzero, ?_⟩
      refine forall_update hf hs.accountAmounts ?_
      rw [hamounts]
      exact bump_nonneg (hs.accountAmounts b (find_some hf).1) hpart

theorem ends_adjustNfaAssetBalance (hs : Sound s) (nfa : ℕ) (delta : Asset) :
    ends (adjustNfaAssetBalance nfa delta)
      (fun _ t ↦ ∃ rows, t = { s with nfaRegularBalances := rows } ∧
        Puts byNfaLiquidSymbol amount s.nfaRegularBalances rows (nfa, delta.symbol)
          (value byNfaLiquidSymbol amount s.nfaRegularBalances (nfa, delta.symbol) + delta.amount.value) ∧
        ∀ n ∈ rows, 0 ≤ n.amount) (· = s) s := by
  unfold adjustNfaAssetBalance
  rw [ends_bind, ends_require]
  refine ⟨fun _ ↦ ?_, fun _ ↦ rfl⟩
  rw [ends_bind, ends_get]
  simp only
  cases hf : find byNfaLiquidSymbol s.nfaRegularBalances (nfa, delta.symbol) with
  | none =>
    simp only
    rw [ends_bind, ends_require, value_of_none hf, zero_add]
    refine ⟨fun hd ↦ ?_, fun _ ↦ rfl⟩
    split
    · next hzero =>
      have hputs := hs.nfaRows.puts_self (k := (nfa, delta.symbol))
      rw [value_of_none hf] at hputs
      rw [hzero]
      exact ⟨_, rfl, hputs, hs.nfaAmounts⟩
    · next hzero =>
      rw [ends_bind]
      refine ends_attempt (fun n hn ↦ ?_) rfl
      obtain ⟨hkey, hamount⟩ := nfaAddToBalance_ok hn
      have hkey' : n.byNfaLiquidSymbol = (nfa, delta.symbol) := hkey
      have hamount' : n.amount = delta.amount.value := hamount.trans (zero_add _)
      rw [createNfaRegularBalance, ends_bind, ends_get, ends_bind, ends_require]
      refine ⟨fun _ ↦ ⟨_, rfl, ?_, ?_⟩, fun _ ↦ rfl⟩
      · rw [← hkey', ← hamount']
        exact hs.nfaRows.puts_append (hkey' ▸ hf) (hamount' ▸ hzero)
      · rw [List.forall_mem_append, List.forall_mem_singleton, hamount']
        exact ⟨hs.nfaAmounts, hd⟩
  | some n =>
    simp only
    have hvalue : value byNfaLiquidSymbol amount s.nfaRegularBalances (nfa, delta.symbol) = n.amount :=
      value_of_find hf
    rw [ends_bind, hvalue]
    refine ends_attempt (fun r hr ↦ ?_) rfl
    obtain ⟨result, isAllZero⟩ := r
    obtain ⟨rfl, hall⟩ := nfaGetCombinedBalance_ok hr
    simp only
    rw [ends_bind, ends_require]
    refine ⟨fun hpos ↦ ?_, fun _ ↦ rfl⟩
    split
    · next hzero =>
      rw [ends_modify, hall.mp hzero]
      exact ⟨_, rfl, hs.nfaRows.puts_remove hf, forall_remove hs.nfaAmounts⟩
    · next hzero =>
      rw [ends_bind]
      refine ends_attempt (fun n' hn' ↦ ?_) rfl
      obtain ⟨hkey, hamount⟩ := nfaAddToBalance_ok hn'
      rw [ends_modify, ← hamount]
      rw [hall, ← hamount] at hzero
      exact ⟨_, rfl, hs.nfaRows.puts_update hf hkey hzero, forall_update hf hs.nfaAmounts (hamount ▸ hpos)⟩

end Rows

section Views

variable {s t : State} {a a' : AccountName} {n n' : ℕ} {symbol symbol' : AssetSymbol}

/-- A row and a part of it are those of one symbol. -/
theorem eq_of_liquidSymbol (h : symbol.legacy ≠ some .qi) (h' : symbol'.legacy ≠ some .qi)
    (heq : liquidSymbol symbol = liquidSymbol symbol') (hqi : symbol.isQi = symbol'.isQi) :
    symbol = symbol' := by
  have hfai : ∀ {t : AssetSymbol}, t.legacy ≠ some .qi → t.isQi = true → t.legacy = none := by
    intro t ht hq
    cases hl : t.legacy with
    | none => rfl
    | some l =>
      rw [AssetSymbol.isQi_legacy hl, decide_eq_true_eq] at hq
      exact absurd (hq ▸ hl) ht
  unfold liquidSymbol at heq
  split at heq
  · next hs =>
    have hs' := hqi.symm.trans hs
    rw [if_pos hs'] at heq
    rw [← AssetSymbol.paired_paired (hfai h hs), heq, AssetSymbol.paired_paired (hfai h' hs')]
  · next hs => rwa [if_neg (hqi ▸ hs)] at heq

theorem balance_account (h : symbol.legacy ≠ some .yang) (h' : symbol.legacy ≠ some .qi) :
    s.balance (.account a) symbol = part symbol
      (value byOwnerLiquidSymbol amounts s.accountRegularBalances (a, liquidSymbol symbol)) := by
  rw [State.balance]
  split
  · next hl => exact absurd hl h
  · next hl => exact absurd hl h'
  · rfl

theorem isAsset_legacy (h : isAsset symbol = true) :
    symbol.legacy ≠ some .yang ∧ symbol.legacy ≠ some .qi := by
  unfold isAsset AssetSymbol.space at h
  cases hl : symbol.legacy with
  | none => exact ⟨nofun, nofun⟩
  | some l =>
    rw [hl] at h
    cases l <;> simp at h ⊢

theorem part_bump_ne {delta : Asset} (h : symbol.isQi ≠ delta.symbol.isQi) (v : ℤ × ℤ) :
    part symbol (bump delta v) = part symbol v := by
  unfold part bump
  cases hs : symbol.isQi <;> cases hd : delta.symbol.isQi <;> simp_all

/-- The balance that is adjusted and the others. -/
theorem adjusted_of {o : Owner} {delta : Asset}
    (h : t.balance o delta.symbol = s.balance o delta.symbol + delta.amount.value)
    (hother : ∀ o' symbol, ¬(o' = o ∧ symbol = delta.symbol) → t.balance o' symbol = s.balance o' symbol) :
    Adjusted o delta s t := by
  intro o' symbol
  split
  · next heq =>
    obtain ⟨rfl, rfl⟩ := heq
    exact h
  · next hne => rw [hother o' symbol hne, Int.add_zero]

/-- A row of an account is adjusted. -/
theorem adjusted_of_accountRows {delta : Asset} {rows : List AccountRegularBalance}
    (hasset : isAsset delta.symbol = true)
    (hputs : Puts byOwnerLiquidSymbol amounts s.accountRegularBalances rows (a, liquidSymbol delta.symbol)
      (bump delta (value byOwnerLiquidSymbol amounts s.accountRegularBalances
        (a, liquidSymbol delta.symbol)))) :
    Adjusted (.account a) delta s { s with accountRegularBalances := rows } := by
  obtain ⟨hyang, hqi⟩ := isAsset_legacy hasset
  refine adjusted_of ?_ ?_
  · rw [balance_account hyang hqi, balance_account hyang hqi, hputs.value, if_pos rfl, part_bump]
  · rintro (a' | n) symbol hne
    · by_cases hl : symbol.legacy = some .yang ∨ symbol.legacy = some .qi
      · rcases hl with hl | hl <;> simp only [State.balance, hl]
      · obtain ⟨hyang', hqi'⟩ := not_or.mp hl
        rw [balance_account hyang' hqi', balance_account hyang' hqi', hputs.value]
        split
        · next hkey =>
          obtain ⟨rfl, hliquid⟩ := Prod.mk.inj hkey
          have hkind : symbol.isQi ≠ delta.symbol.isQi := fun hkind ↦
            hne ⟨rfl, eq_of_liquidSymbol hqi' hqi hliquid.symm hkind⟩
          rw [part_bump_ne hkind, hliquid]
        · rfl
    · rfl

/-- A row of an NFA is adjusted. -/
theorem adjusted_of_nfaRows {delta : Asset} {rows : List NfaRegularBalance}
    (hqi : delta.symbol.legacy ≠ some .qi)
    (hputs : Puts byNfaLiquidSymbol amount s.nfaRegularBalances rows (n, delta.symbol)
      (value byNfaLiquidSymbol amount s.nfaRegularBalances (n, delta.symbol) + delta.amount.value)) :
    Adjusted (.nfa n) delta s { s with nfaRegularBalances := rows } := by
  refine adjusted_of ?_ ?_
  · rw [State.balance, State.balance, if_neg hqi, if_neg hqi, hputs.value, if_pos rfl]
  · rintro (a' | n') symbol hne
    · rfl
    · rw [State.balance, State.balance, hputs.value]
      split
      · rfl
      · rw [if_neg]
        rintro heq
        obtain ⟨rfl, rfl⟩ := Prod.mk.inj heq
        exact hne ⟨rfl, rfl⟩

theorem symbol_eq_of_legacy {l : Legacy} (h : symbol.legacy = some l) (h' : symbol'.legacy = some l) :
    symbol = symbol' :=
  AssetSymbol.ext_num ((AssetSymbol.legacy_eq_some.mp h).symm.trans (AssetSymbol.legacy_eq_some.mp h'))

end Views

section Fields

variable {s : State} {delta : Asset} {acnt acnt' : AccountObject} {obj obj' : NfaObject}

/-- The account object that is written under the name it has. -/
theorem sound_setAccount (hs : Sound s) (hf : find AccountObject.name s.accounts acnt'.name = some acnt)
    (hpos : 0 ≤ acnt'.balance.amount.value ∧ 0 ≤ acnt'.qi.amount.value) :
    Sound { s with accounts := update AccountObject.name s.accounts acnt'.name fun _ ↦ acnt' } :=
  { hs with
    names := hs.names.update hf (find_some hf).2.symm
    accounts := forall_update hf hs.accounts hpos }

theorem adjusted_setAccount (hs : Sound s) (hf : find AccountObject.name s.accounts acnt'.name = some acnt)
    (hl : delta.symbol.legacy = some .yang ∨ delta.symbol.legacy = some .qi)
    (hyang : acnt'.balance.amount.value = acnt.balance.amount.value +
      if delta.symbol.legacy = some .yang then delta.amount.value else 0)
    (hqi : acnt'.qi.amount.value = acnt.qi.amount.value +
      if delta.symbol.legacy = some .qi then delta.amount.value else 0) :
    Adjusted (.account acnt'.name) delta s
      { s with accounts := update AccountObject.name s.accounts acnt'.name fun _ ↦ acnt' } := by
  have hfind := find_update hs.names (f := fun _ ↦ acnt') hf (find_some hf).2.symm
  refine adjusted_of ?_ ?_
  · rcases hl with hl | hl
    · rw [if_pos hl] at hyang
      simp only [State.balance, hl, hfind, hf, if_true, Option.elim_some, hyang]
    · rw [if_pos hl] at hqi
      simp only [State.balance, hl, hfind, hf, if_true, Option.elim_some, hqi]
  · rintro (a' | n) symbol hne
    · by_cases hname : acnt'.name = a'
      · subst hname
        have hsymbol : symbol ≠ delta.symbol := fun h ↦ hne ⟨rfl, h⟩
        rw [State.balance, State.balance, hfind, if_pos rfl, hf]
        simp only [Option.elim_some]
        split
        · next hs' =>
          rw [hyang, if_neg (fun h ↦ hsymbol (symbol_eq_of_legacy hs' h)), Int.add_zero]
        · next hs' =>
          rw [hqi, if_neg (fun h ↦ hsymbol (symbol_eq_of_legacy hs' h)), Int.add_zero]
        · rfl
      · rw [State.balance, State.balance, hfind, if_neg hname]
    · rfl

theorem ends_modifyBalance (hs : Sound s) (a : AccountName)
    (hd : delta.amount.value < 0 → 0 ≤ s.balance (.account a) delta.symbol + delta.amount.value) :
    ends (modifyBalance a delta true) (fun _ t ↦ Sound t ∧ Adjusted (.account a) delta s t) (· = s) s := by
  unfold modifyBalance
  rw [ends_bind]
  refine ends_getAccount (fun acnt hf ↦ ?_) rfl
  obtain ⟨hmem, rfl⟩ := find_some hf
  obtain ⟨hbalance, hqi⟩ := hs.accounts acnt hmem
  split
  · next hl =>
    rw [State.balance, hl] at hd
    simp only [hf, Option.elim_some] at hd
    rw [ends_bind]
    refine ends_attempt (fun balance hadd ↦ ?_) rfl
    have hvalue := (Asset.add_ok.mp hadd).2.2
    have hpos : 0 ≤ balance.amount.value := by omega
    rw [setAccount, ends_bind, ends_modify, if_pos rfl, ends_require]
    refine ⟨fun _ ↦ ⟨sound_setAccount hs hf ⟨hpos, hqi⟩, ?_⟩, fun hneg ↦ absurd hpos hneg⟩
    refine adjusted_setAccount hs hf (.inl hl) ?_ ?_
    · rw [if_pos hl, hvalue]
    · rw [hl, if_neg (by decide), Int.add_zero]
  · next hl =>
    rw [State.balance, hl] at hd
    simp only [hf, Option.elim_some] at hd
    rw [ends_bind]
    refine ends_attempt (fun qi hadd ↦ ?_) rfl
    have hvalue := (Asset.add_ok.mp hadd).2.2
    have hpos : 0 ≤ qi.amount.value := by omega
    rw [setAccount, ends_bind, ends_modify, if_pos rfl, ends_require]
    refine ⟨fun _ ↦ ⟨sound_setAccount hs hf ⟨hbalance, hpos⟩, ?_⟩, fun hneg ↦ absurd hpos hneg⟩
    refine adjusted_setAccount hs hf (.inr hl) ?_ ?_
    · rw [hl, if_neg (by decide), Int.add_zero]
    · rw [if_pos hl, hvalue]
  · rfl

/-- The NFA object that is written under the id it has. -/
theorem adjusted_setNfa (hs : Sound s) {n : ℕ} {qi : Asset}
    (hf : find NfaObject.id s.nfas n = some obj) (hl : delta.symbol.legacy = some .qi)
    (hqi : qi.amount.value = obj.qi.amount.value + delta.amount.value) :
    Adjusted (.nfa n) delta s
      { s with nfas := update NfaObject.id s.nfas n fun obj ↦ { obj with qi := qi } } := by
  have hfind := find_update hs.ids (f := fun obj ↦ { obj with qi := qi }) hf rfl
  refine adjusted_of ?_ ?_
  · simp only [State.balance, hl, hfind, hf, if_true, Option.elim_some, hqi]
  · rintro (a' | n') symbol hne
    · rfl
    · rw [State.balance, State.balance]
      split
      · next hs' =>
        rw [hfind, if_neg]
        rintro rfl
        exact hne ⟨rfl, symbol_eq_of_legacy hs' hl⟩
      · rfl

end Fields

end Taiyi.Balances
