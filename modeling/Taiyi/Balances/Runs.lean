import Taiyi.Balances.Bookkeeping

set_option autoImplicit false

namespace Taiyi.Balances

open Library.Ends Library.SparseRows Protocol AccountRegularBalance NfaRegularBalance

/-- The functions that adjust a balance. -/
inductive Adjustment
  | account (a : AccountName)
  | accountByName (name : AccountName)
  | nfa (id : ℕ)

namespace Adjustment

def owner : Adjustment → Owner
  | account a => .account a
  | accountByName name => .account name
  | nfa id => .nfa id

def call (delta : Asset) : Adjustment → Call Unit
  | account a => adjustBalance a delta
  | accountByName name => adjustBalanceByName name delta
  | nfa id => adjustNfaBalance id delta

end Adjustment

section Adjust

variable {s : State} {delta : Asset}

/-- Both kinds of symbols: a row is adjusted, or a field of the account. -/
theorem ends_adjust_account (hs : Sound s) (a : AccountName) (checkAccount : Bool) {rest : Call Unit}
    (hrest : ends rest (fun _ t ↦ Sound t ∧ Adjusted (.account a) delta s t) (· = s) s) :
    ends (if isAsset delta.symbol then adjustAssetBalance a delta checkAccount else rest)
      (fun _ t ↦ Sound t ∧ Adjusted (.account a) delta s t) (· = s) s := by
  split
  · next hasset =>
    refine ends_mono (ends_adjustAssetBalance hs a delta checkAccount) ?_ fun t ht ↦ ht
    rintro - t ⟨rows, rfl, hputs, hpos⟩
    exact ⟨{ hs with accountRows := hputs.sparse, accountAmounts := hpos },
      adjusted_of_accountRows hasset hputs⟩
  · exact hrest

theorem ends_adjustBalance (hs : Sound s) (a : AccountName) (delta : Asset) :
    ends (adjustBalance a delta) (fun _ t ↦ Sound t ∧ Adjusted (.account a) delta s t) (· = s) s := by
  rw [adjustBalance, ends_bind]
  refine ends_mono (ends_requireAvailable (ends_getBalance a delta.symbol)) ?_ fun t ht ↦ ht
  rintro - t ⟨rfl, hd⟩
  exact ends_adjust_account hs a false (ends_modifyBalance hs a hd)

theorem ends_adjustBalanceByName (hs : Sound s) (name : AccountName) (delta : Asset) :
    ends (adjustBalanceByName name delta) (fun _ t ↦ Sound t ∧ Adjusted (.account name) delta s t)
      (· = s) s := by
  rw [adjustBalanceByName, ends_bind]
  refine ends_mono (ends_requireAvailable (ends_getBalanceByName name delta.symbol)) ?_ fun t ht ↦ ht
  rintro - t ⟨rfl, hd⟩
  refine ends_adjust_account hs name true ?_
  rw [ends_bind]
  refine ends_getAccount (fun acnt hf ↦ ?_) rfl
  rw [(find_some hf).2]
  exact ends_modifyBalance hs name hd

theorem ends_adjustNfaBalance (hs : Sound s) (nfa : ℕ) (delta : Asset) :
    ends (adjustNfaBalance nfa delta) (fun _ t ↦ Sound t ∧ Adjusted (.nfa nfa) delta s t) (· = s) s := by
  rw [adjustNfaBalance, ends_bind]
  refine ends_mono (ends_requireAvailable (ends_getNfaBalance nfa delta.symbol)) ?_ fun t ht ↦ ht
  rintro - t ⟨rfl, hd⟩
  split
  · next hl =>
    rw [ends_bind]
    refine ends_getNfa (fun obj hf ↦ ?_) rfl
    rw [State.balance, if_pos hl, hf, Option.elim_some] at hd
    have hqi := hs.nfas obj (find_some hf).1
    rw [ends_bind]
    refine ends_attempt (fun qi hadd ↦ ?_) rfl
    have hvalue := (Asset.add_ok.mp hadd).2.2
    rw [ends_modify]
    refine ⟨{ hs with ids := hs.ids.update hf rfl, nfas := forall_update hf hs.nfas ?_ },
      adjusted_setNfa hs hf hl hvalue⟩
    change 0 ≤ qi.amount.value
    omega
  · next hl =>
    refine ends_mono (ends_adjustNfaAssetBalance hs nfa delta) ?_ fun t ht ↦ ht
    rintro - t ⟨rows, rfl, hputs, hpos⟩
    exact ⟨{ hs with nfaRows := hputs.sparse, nfaAmounts := hpos }, adjusted_of_nfaRows hl hputs⟩

theorem ends_call (hs : Sound s) (x : Adjustment) (delta : Asset) :
    ends (x.call delta) (fun _ t ↦ Sound t ∧ Adjusted x.owner delta s t) (· = s) s := by
  cases x with
  | account a => exact ends_adjustBalance hs a delta
  | accountByName name => exact ends_adjustBalanceByName hs name delta
  | nfa id => exact ends_adjustNfaBalance hs id delta

end Adjust

/-- A new account object, whose balances are zero. -/
def createAccount (name : AccountName) : Call Unit := do
  require ((find AccountObject.name (← get).accounts name).isNone)
    "Could not create object, most likely a uniqueness constraint was violated"
  modify fun s ↦ { s with accounts := s.accounts ++ [{ name := name }] }

def createNfa (id : ℕ) : Call Unit := do
  require ((find NfaObject.id (← get).nfas id).isNone)
    "Could not create object, most likely a uniqueness constraint was violated"
  modify fun s ↦ { s with nfas := s.nfas ++ [{ id := id }] }

inductive Step
  | createAccount (name : AccountName)
  | createNfa (id : ℕ)
  | adjust (x : Adjustment) (delta : Asset)

def Step.call : Step → Call Unit
  | createAccount name => Balances.createAccount name
  | createNfa id => Balances.createNfa id
  | adjust x delta => x.call delta

/-- The state after a run of steps from the empty state; what throws stays where it threw. -/
def run (steps : List Step) : State := steps.foldl (fun s step ↦ after step.call s) {}

section Run

variable {s : State}

theorem Sound.empty : Sound {} where
  names := List.nodup_nil
  ids := List.nodup_nil
  accounts := by simp
  nfas := by simp
  accountRows := .nil
  nfaRows := .nil
  accountAmounts := by simp
  nfaAmounts := by simp

theorem ends_createAccount (hs : Sound s) (name : AccountName) :
    ends (createAccount name) (fun _ t ↦ Sound t) (· = s) s := by
  rw [createAccount, ends_bind, ends_get, ends_bind, ends_require]
  refine ⟨fun hfresh ↦ ?_, fun _ ↦ rfl⟩
  rw [Option.isNone_iff_eq_none] at hfresh
  rw [ends_modify]
  refine { hs with names := hs.names.append hfresh, accounts := ?_ }
  rw [List.forall_mem_append, List.forall_mem_singleton]
  exact ⟨hs.accounts, le_refl 0, le_refl 0⟩

theorem ends_createNfa (hs : Sound s) (id : ℕ) : ends (createNfa id) (fun _ t ↦ Sound t) (· = s) s := by
  rw [createNfa, ends_bind, ends_get, ends_bind, ends_require]
  refine ⟨fun hfresh ↦ ?_, fun _ ↦ rfl⟩
  rw [Option.isNone_iff_eq_none] at hfresh
  rw [ends_modify]
  refine { hs with ids := hs.ids.append hfresh, nfas := ?_ }
  rw [List.forall_mem_append, List.forall_mem_singleton]
  exact ⟨hs.nfas, le_refl 0⟩

theorem Sound.step (hs : Sound s) (step : Step) : Sound (after step.call s) := by
  have hsame : ∀ t, t = s → Sound t := fun t ht ↦ ht ▸ hs
  cases step with
  | createAccount name => exact after_of_ends (ends_createAccount hs name) (fun _ _ ht ↦ ht) hsame
  | createNfa id => exact after_of_ends (ends_createNfa hs id) (fun _ _ ht ↦ ht) hsame
  | adjust x delta => exact after_of_ends (ends_call hs x delta) (fun _ _ ht ↦ ht.1) hsame

theorem sound_run (steps : List Step) : Sound (run steps) := by
  induction steps using List.reverseRecOn with
  | nil => exact .empty
  | append_singleton steps step ih =>
    rw [run, List.foldl_append]
    exact ih.step step

theorem Sound.balance_nonneg (hs : Sound s) (o : Owner) (symbol : AssetSymbol) :
    0 ≤ s.balance o symbol := by
  have helim : ∀ {α : Type} {x : Option α} {f : α → ℤ}, (∀ a, x = some a → 0 ≤ f a) → 0 ≤ x.elim 0 f := by
    intro α x f h
    cases x with
    | none => exact le_refl 0
    | some a => exact h a rfl
  cases o with
  | account a =>
    rw [State.balance]
    split
    · exact helim fun acnt hf ↦ (hs.accounts acnt (find_some hf).1).1
    · exact helim fun acnt hf ↦ (hs.accounts acnt (find_some hf).1).2
    · cases hf : find byOwnerLiquidSymbol s.accountRegularBalances (a, liquidSymbol symbol) with
      | none =>
        rw [value_of_none hf, part]
        split <;> exact le_refl 0
      | some b =>
        obtain ⟨hliquid, hqi⟩ := hs.accountAmounts b (find_some hf).1
        rw [value_of_find hf, part]
        split
        · exact hqi
        · exact hliquid
  | nfa n =>
    rw [State.balance]
    split
    · exact helim fun obj hf ↦ hs.nfas obj (find_some hf).1
    · exact helim fun b hf ↦ hs.nfaAmounts b (find_some hf).1

/-- After every run no balance is negative, an owner has one row at most for a symbol and no row
is of zero balances; and an adjustment throws with all balances as they were, or adds its delta to
the balance of its owner and symbol and to no other. -/
theorem balances (steps : List Step) :
    (∀ o symbol, 0 ≤ (run steps).balance o symbol) ∧
    Unique byOwnerLiquidSymbol (run steps).accountRegularBalances ∧
    Unique byNfaLiquidSymbol (run steps).nfaRegularBalances ∧
    (∀ b ∈ (run steps).accountRegularBalances, ¬(b.liquid.amount.value = 0 ∧ b.qi.amount.value = 0)) ∧
    (∀ b ∈ (run steps).nfaRegularBalances, b.liquid.amount.value ≠ 0) ∧
    ∀ (x : Adjustment) (delta : Asset),
      ends (x.call delta) (fun _ t ↦ Adjusted x.owner delta (run steps) t)
        (fun t ↦ ∀ o symbol, t.balance o symbol = (run steps).balance o symbol) (run steps) := by
  have hs := sound_run steps
  refine ⟨hs.balance_nonneg, hs.accountRows.unique, hs.nfaRows.unique, fun b hb hzero ↦ ?_,
    hs.nfaRows.nonzero, fun x delta ↦ ?_⟩
  · exact hs.accountRows.nonzero b hb (Prod.ext hzero.1 hzero.2)
  · refine ends_mono (ends_call hs x delta) (fun _ _ ht ↦ ht.2) ?_
    rintro t rfl o symbol
    rfl

/-- A row is there once it has a balance, and gone once it is emptied again. -/
example :
    let credited : List Step := [.createAccount "a", .adjust (.account "a") ⟨⟨5, by decide⟩, .fromAssetNum 51⟩]
    let emptied := credited ++ [.adjust (.accountByName "a") ⟨⟨-5, by decide⟩, .fromAssetNum 51⟩]
    (run credited).accountRegularBalances.length = 1 ∧ (run emptied).accountRegularBalances = [] := by
  exact ⟨rfl, rfl⟩

end Run

end Taiyi.Balances
