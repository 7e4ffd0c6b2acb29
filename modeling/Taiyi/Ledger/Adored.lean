import Taiyi.Ledger.Checked
import Taiyi.Ledger.Takes

set_option autoImplicit false

namespace Taiyi.Ledger

open Library.IdMap Library.Frame Library.Outcome Library.Wp Checked

/-- Where the adores of the QI of an account are counted: with each proxy behind it, by the number
of the hop, and with each siming at the end. -/
inductive Cell
  | proxied (account : ℕ) (hop : Fin 4)
  | siming (siming : ℕ)
  deriving DecidableEq

namespace State

def adored (s : State) : Cell → Option ℤ
  | .proxied a i => (s.accounts[a]?).map fun acc ↦ acc.proxiedVsfAdores i
  | .siming w => (s.simings[w]?).map Siming.adores

/-- Whom the accounts adore through and what they adore themselves. -/
def adoring (s : State) (a : ℕ) : Option ℕ × IdSet := ((s.account a).proxy, (s.account a).adores)

/-- Where a change of the QI of an account is counted, with `left` hops to go. -/
def cells (s : State) : ℕ → ℕ → List Cell
  | 0, a => if (s.adoring a).1 = none then (s.adoring a).2.toList.map .siming else []
  | left + 1, a =>
    match (s.adoring a).1 with
    | none => (s.adoring a).2.toList.map .siming
    | some p => .proxied p (hop left) :: s.cells left p

/-- Where a change of the QI of an account is counted. -/
def behind (s : State) (a : ℕ) : List Cell := s.cells taiyiMaxProxyRecursionDepth a

end State

section Adoring

variable {s t : State} {a b left : ℕ} {delta : ℤ}

theorem cells_congr (h : t.adoring = s.adoring) : t.cells left a = s.cells left a := by
  induction left generalizing a with
  | zero => rw [State.cells, State.cells, h]
  | succ left ih => simp only [State.cells, h, ih]

theorem adoring_of_modifyAccount {f : Account → Account} {u : Unit}
    (h : (modifyAccount a f).run s = .ok u t)
    (hf : ∀ acc, (f acc).proxy = acc.proxy ∧ (f acc).adores = acc.adores) : t.adoring = s.adoring := by
  obtain ⟨hafter, -⟩ := modifyAccount_ok h
  funext b
  rw [State.adoring, hafter b]
  split
  · rw [(hf _).1, (hf _).2]
    rfl
  · rfl

/-- The proxies and simings behind an account in the order of the hops are all different. -/
theorem hop_lt_of_mem {p : ℕ} {i : Fin 4} (hleft : left ≤ taiyiMaxProxyRecursionDepth)
    (h : .proxied p i ∈ s.cells left a) : taiyiMaxProxyRecursionDepth ≤ i + left := by
  have hsimings : ∀ l : List ℕ, .proxied p i ∉ l.map Cell.siming := by simp
  induction left generalizing a with
  | zero =>
    rw [State.cells] at h
    split at h
    · exact absurd h (hsimings _)
    · cases h
  | succ left ih =>
    rw [State.cells] at h
    split at h
    · exact absurd h (hsimings _)
    · rcases List.mem_cons.mp h with heq | h
      · cases heq
        simp only [hop]
        omega
      · have := ih (Nat.le_of_succ_le hleft) h
        omega

end Adoring

section Values

variable {s t : State} {a left : ℕ} {delta : ℤ} {u : Unit} {f g : Cell → Option ℤ} {l l' : List Cell}

/-- The values after a change that is counted in some cells. -/
def raised (delta : ℤ) (l : List Cell) (f : Cell → Option ℤ) (c : Cell) : Option ℤ :=
  (f c).map fun x ↦ x + if c ∈ l then delta else 0

theorem raised_nil : raised delta [] f = f := by
  funext c
  cases hc : f c <;> simp [raised, hc]

theorem raised_cons {c : Cell} (h : c ∉ l) : raised delta l (raised delta [c] f) = raised delta (c :: l) f := by
  funext c'
  by_cases hc : c' = c
  · subst hc
    cases hx : f c' <;> simp [raised, hx, h]
  · cases hx : f c' <;> simp [raised, hx, hc]

theorem adored_adjustSimingAdore {w : ℕ} (h : (Ledger.adjustSimingAdore w delta).run s = .ok u t) :
    t.adored = raised delta [.siming w] s.adored := by
  obtain ⟨o, s₁, hget, h₁⟩ := bind_ok.mp h
  obtain ⟨-, rfl⟩ := getSiming_ok.mp hget
  obtain ⟨-, h₂⟩ := after_require (after_get h₁)
  obtain ⟨o', ho', rfl⟩ := modifyIn_ok.mp h₂
  funext c
  cases c with
  | proxied p i => cases hp : s₁.accounts[p]? <;> simp [State.adored, raised, hp]
  | siming w' =>
    by_cases hw : w = w'
    · subst hw
      simp [State.adored, raised, ho', Siming.advance]
    · cases hw' : s₁.simings[w']? <;>
        simp [State.adored, raised, getElem?_insert, hw, hw', Ne.symm hw]

theorem adored_forM {ids : List ℕ} (hids : ids.Nodup)
    (h : (ids.forM fun w ↦ Ledger.adjustSimingAdore w delta).run s = .ok u t) :
    t.adored = raised delta (ids.map .siming) s.adored := by
  induction ids generalizing s with
  | nil =>
    cases h
    exact raised_nil.symm
  | cons w ids ih =>
    rw [List.nodup_cons] at hids
    obtain ⟨s₁, hw, hrest⟩ := forM_cons_ok.mp h
    rw [ih hids.2 hrest, adored_adjustSimingAdore hw, List.map_cons]
    exact raised_cons (by simpa using hids.1)

theorem adored_adjustSimingAdores (h : (Ledger.adjustSimingAdores a delta).run s = .ok u t) :
    t.adored = raised delta ((s.adoring a).2.toList.map .siming) s.adored := by
  obtain ⟨acc, s₁, hget, h₁⟩ := bind_ok.mp h
  obtain ⟨rfl, rfl⟩ := account_of_getAccount hget
  exact adored_forM (nodup_ids _) h₁

theorem adored_modifyAccount {p i : ℕ} (hi : i < 4)
    (h : (modifyAccount p (Account.creditAmount delta i)).run s = .ok u t) :
    t.adored = raised delta [.proxied p ⟨i, hi⟩] s.adored := by
  obtain ⟨acc, hacc, rfl⟩ := modifyIn_ok.mp h
  funext c
  cases c with
  | siming w => cases hw : s.simings[w]? <;> simp [State.adored, raised, hw]
  | proxied q j =>
    by_cases hq : p = q
    · subst hq
      simp only [State.adored, raised, getElem?_insert, hacc, if_pos, Option.map_some,
        Account.creditAmount, List.mem_singleton, Cell.proxied.injEq, true_and, Option.some.injEq]
      by_cases hij : i = j
      · subst hij
        simp
      · rw [if_neg hij, if_neg fun he ↦ hij (congrArg Fin.val he.symm), add_zero]
    · cases hq' : s.accounts[q]? <;>
        simp [State.adored, raised, getElem?_insert, hq, hq', Ne.symm hq]

theorem adored_propagate (hleft : left ≤ taiyiMaxProxyRecursionDepth)
    (h : (propagate (Account.creditAmount delta) (fun _ ↦ delta) left a).run s = .ok u t) :
    t.adored = raised delta (s.cells left a) s.adored := by
  induction left generalizing a s with
  | zero =>
    obtain ⟨acc, s₁, hget, h₁⟩ := bind_ok.mp h
    obtain ⟨hacc, rfl⟩ := account_of_getAccount hget
    rw [State.cells]
    have hproxy : (s₁.adoring a).1 = acc.proxy := congrArg Account.proxy hacc
    rw [hproxy]
    split at h₁
    · next hp =>
      rw [if_pos hp]
      exact adored_adjustSimingAdores h₁
    · next hp =>
      rw [if_neg hp]
      cases h₁
      exact raised_nil.symm
  | succ left ih =>
    obtain ⟨acc, s₁, hget, h₁⟩ := bind_ok.mp h
    obtain ⟨hacc, rfl⟩ := account_of_getAccount hget
    have hproxy : (s₁.adoring a).1 = acc.proxy := congrArg Account.proxy hacc
    rw [State.cells, hproxy]
    cases hp : acc.proxy with
    | none =>
      rw [hp] at h₁
      exact adored_adjustSimingAdores h₁
    | some p =>
      rw [hp] at h₁
      obtain ⟨_, s₂, hmod, h₂⟩ := bind_ok.mp h₁
      have hadoring : s₂.adoring = s₁.adoring :=
        adoring_of_modifyAccount hmod fun _ ↦ ⟨rfl, rfl⟩
      have hfirst : s₂.adored = raised delta [.proxied p (hop left)] s₁.adored :=
        adored_modifyAccount (hop left).isLt hmod
      rw [ih (Nat.le_of_succ_le hleft) h₂, hfirst, cells_congr hadoring]
      refine raised_cons fun hmem ↦ ?_
      have hlt := hop_lt_of_mem (Nat.le_of_succ_le hleft) hmem
      simp only [hop] at hlt
      omega

theorem mem_accounts_iff : a ∈ s.accounts ↔ (s.adored (.proxied a 0)).isSome := by
  rw [State.adored, Option.isSome_map, Std.ExtTreeMap.mem_iff_isSome_getElem?]

end Values

section Checks

variable {ok : ℤ → Prop} {s : State} {a left : ℕ} {delta room : ℤ}

/-- A change passes the check wherever it is counted. -/
theorem carries_iff (hroom : ∀ x, ok (x + delta) → x ≤ room) :
    Carries ok s room delta left a ↔
      a ∈ s.accounts ∧ ∀ c ∈ s.cells left a, ∃ x, s.adored c = some x ∧ ok (x + delta) := by
  have hraises : ∀ acc : Account, Raises ok s room delta acc ↔
      ∀ c ∈ acc.adores.toList.map Cell.siming, ∃ x, s.adored c = some x ∧ ok (x + delta) := by
    intro acc
    simp only [Raises, List.forall_mem_map, Std.ExtTreeSet.mem_toList, State.adored,
      Option.map_eq_some_iff]
    refine forall₂_congr fun w _ ↦ ⟨?_, ?_⟩
    · rintro ⟨o, ho, hok, -⟩
      exact ⟨o.adores, ⟨o, ho, rfl⟩, hok⟩
    · rintro ⟨_, ⟨o, ho, rfl⟩, hok⟩
      exact ⟨o, ho, hok, hroom _ hok⟩
  have hat : ∀ {a : ℕ} {acc : Account}, s.accounts[a]? = some acc →
      s.adoring a = (acc.proxy, acc.adores) := by
    intro a acc hacc
    rw [State.adoring, State.account, hacc]
    rfl
  induction left generalizing a with
  | zero =>
    rw [Carries, State.cells, mem_iff_getElem?, ← exists_and_right]
    refine exists_congr fun acc ↦ and_congr_right fun hacc ↦ ?_
    rw [hat hacc]
    by_cases hp : acc.proxy = none <;> simp [hp, hraises]
  | succ left ih =>
    rw [Carries, State.cells, mem_iff_getElem?, ← exists_and_right]
    refine exists_congr fun acc ↦ and_congr_right fun hacc ↦ ?_
    rw [hat hacc]
    cases hp : acc.proxy with
    | none => exact hraises acc
    | some p =>
      simp only [List.forall_mem_cons, ih, mem_iff_getElem?, State.adored, Option.map_eq_some_iff]
      constructor
      · rintro ⟨⟨b, hb, hok⟩, -, hrest⟩
        exact ⟨⟨_, ⟨b, hb, rfl⟩, hok⟩, hrest⟩
      · rintro ⟨⟨_, ⟨b, hb, rfl⟩, hok⟩, hrest⟩
        exact ⟨⟨b, hb, hok⟩, ⟨b, hb⟩, hrest⟩

end Checks

section Bare

variable {s t : State} {a : ℕ} {delta : ℤ}

/-- The accounts without the adores that others proxy to them. -/
def State.bare (s : State) (a : ℕ) : Account := { s.account a with proxiedVsfAdores := fun _ ↦ 0 }

theorem bare_modifyAccount {f : Account → Account} {u : Unit}
    (h : (modifyAccount a f).run s = .ok u t)
    (hf : ∀ acc, { f acc with proxiedVsfAdores := fun _ ↦ 0 } = f { acc with proxiedVsfAdores := fun _ ↦ 0 })
    (b : ℕ) : t.bare b = if a = b then f (s.bare b) else s.bare b := by
  obtain ⟨hafter, -⟩ := modifyAccount_ok h
  rw [State.bare, hafter b]
  split
  · exact hf _
  · rfl

theorem adored_of_modifyAccount {f : Account → Account} {u : Unit}
    (h : (modifyAccount a f).run s = .ok u t)
    (hf : ∀ acc, (f acc).proxiedVsfAdores = acc.proxiedVsfAdores) : t.adored = s.adored ∧ t.props = s.props := by
  obtain ⟨acc, hacc, rfl⟩ := modifyIn_ok.mp h
  refine ⟨funext fun c ↦ ?_, rfl⟩
  cases c with
  | siming w => rfl
  | proxied b i =>
    simp only [State.adored, getElem?_insert]
    split
    · next hb =>
      rw [← hb, hacc, Option.map_some, Option.map_some, hf]
    · rfl

theorem adoring_of_bare {b : ℕ} : s.adoring b = ((s.bare b).proxy, (s.bare b).adores) := rfl

/-- A change of adores is counted behind its account and changes nothing else of the accounts. -/
theorem adjustProxied_ok {u : Unit} (h : (adjustProxiedSimingAdores a delta).run s = .ok u t) :
    t.adored = raised delta (s.behind a) s.adored ∧ t.bare = s.bare ∧ t.props = s.props := by
  have hbare : Moves (Same State.bare) (adjustProxiedSimingAdores a delta) :=
    moves_propagate (fun _ _ ↦ moves_modifyIn fun s acc hacc ↦ funext fun b ↦ by
      rw [State.bare, account_insert hacc rfl b]
      split <;> rfl) fun _ _ ↦ moves_modifyIn fun _ _ _ ↦ rfl
  have hprops : Moves (Same State.props) (adjustProxiedSimingAdores a delta) :=
    moves_propagate (fun _ _ ↦ moves_modifyIn fun _ _ _ ↦ rfl) fun _ _ ↦ moves_modifyIn fun _ _ _ ↦ rfl
  exact ⟨adored_propagate (Nat.le_refl _) h, hbare.keeps _ _ _ h, hprops.keeps _ _ _ h⟩

end Bare

end Taiyi.Ledger
