import Taiyi.Ledger.Weigh
import Taiyi.Library.Wp

set_option autoImplicit false

namespace Taiyi.Ledger

open Library.IdMap Library.Meter Library.Outcome Library.Wp

section Rules

variable {s : State} {id : ℕ}

theorem wp_require {c : Prop} [Decidable c] {msg : String} {Q : Unit → State → Prop} :
    wp (require c msg) Q s ↔ c ∧ Q ⟨⟩ s := by
  constructor
  · rintro ⟨⟨⟩, t, h, hq⟩
    obtain ⟨hc, rfl⟩ := require_ok.mp h
    exact ⟨hc, hq⟩
  · exact fun ⟨hc, hq⟩ ↦ ⟨⟨⟩, s, require_of hc, hq⟩

theorem wp_lookup {V : Type} {m : Table V} {Q : V → State → Prop} :
    wp (lookup m id) Q s ↔ ∃ v, m[id]? = some v ∧ Q v s := by
  constructor
  · rintro ⟨v, t, h, hq⟩
    obtain ⟨hv, rfl⟩ := lookup_ok.mp h
    exact ⟨v, hv, hq⟩
  · exact fun ⟨v, hv, hq⟩ ↦ ⟨v, s, lookup_ok.mpr ⟨hv, rfl⟩, hq⟩

theorem wp_getAccount {Q : Account → State → Prop} :
    wp (getAccount id) Q s ↔ ∃ a, s.accounts[id]? = some a ∧ Q a s :=
  wp_bind.trans (wp_get.trans wp_lookup)

theorem wp_getSiming {Q : Siming → State → Prop} :
    wp (getSiming id) Q s ↔ ∃ w, s.simings[id]? = some w ∧ Q w s :=
  wp_bind.trans (wp_get.trans wp_lookup)

theorem wp_modifyIn {V : Type} {table : State → Table V} {store : Table V → State → State}
    {f : V → V} {Q : Unit → State → Prop} :
    wp (modifyIn table store id f) Q s ↔
      ∃ v, (table s)[id]? = some v ∧ Q ⟨⟩ (store ((table s).insert id (f v)) s) :=
  wp_bind.trans (wp_get.trans (wp_bind.trans (wp_lookup.trans
    (exists_congr fun _ ↦ and_congr_right fun _ ↦ wp_modify))))

theorem wp_modifyProps {f : Props → Props} {Q : Unit → State → Prop} :
    wp (modifyProps f) Q s ↔ Q ⟨⟩ { s with props := f s.props } := wp_modify

theorem wp_getBalance {symbol : Symbol} {Q : ℤ → State → Prop} :
    wp (getBalance id symbol) Q s ↔ ∃ a, s.accounts[id]? = some a ∧ Q (a.assets.get symbol) s :=
  wp_bind.trans (wp_getAccount.trans (exists_congr fun _ ↦ and_congr_right fun _ ↦ wp_pure))

theorem wp_yangToQi {yang : ℤ} {Q : ℤ → State → Prop} :
    wp (yangToQi yang) Q s ↔ 0 ≤ yang ∧ Q (1000 * yang) s := by
  constructor
  · rintro ⟨v, t, h, hq⟩
    obtain ⟨⟨hy, rfl⟩, rfl⟩ := yangToQi_ok.mp h
    exact ⟨hy, hq⟩
  · exact fun ⟨hy, hq⟩ ↦ ⟨_, s, yangToQi_ok.mpr ⟨⟨hy, rfl⟩, rfl⟩, hq⟩

end Rules

namespace Checked

/-- The number of the hop that leaves this many. -/
def hop (left : ℕ) : Fin 4 := ⟨taiyiMaxProxyRecursionDepth - (left + 1), by
  unfold taiyiMaxProxyRecursionDepth
  omega⟩

section Defs

variable (ok : ℤ → Prop) [DecidablePred ok]

/-- A value that is checked before it is stored. -/
def check (x : ℤ) : Call ℤ := do
  require (ok x) "value out of range"
  pure x

def adjustSimingAdore (siming : ℕ) (delta : ℤ) : Call Unit := do
  let _ ← check ok ((← getSiming siming).adores + delta)
  Ledger.adjustSimingAdore siming delta

def adjustSimingAdores (a : ℕ) (delta : ℤ) : Call Unit := do
  (← getAccount a).adores.toList.forM fun siming ↦ adjustSimingAdore ok siming delta

/-- `adjust_proxied_siming_adores` for one amount of QI with `left` hops to go. -/
def adjustProxied (delta : ℤ) : ℕ → ℕ → Call Unit
  | 0, a => do
    if (← getAccount a).proxy = none then
      adjustSimingAdores ok a delta
  | left + 1, a => do
    match (← getAccount a).proxy with
    | none => adjustSimingAdores ok a delta
    | some p => do
      let _ ← check ok ((← getAccount p).proxiedVsfAdores (hop left) + delta)
      modifyAccount p (Account.creditAmount delta (hop left))
      adjustProxied delta left p

end Defs

section Conditions

variable {ok : ℤ → Prop} {s t : State} {a : ℕ} {delta room : ℤ}

/-- Every siming that the account adores can take the change: it exists, its adores pass
the check and they are no more than the room for them. -/
def Raises (ok : ℤ → Prop) (s : State) (room delta : ℤ) (acc : Account) : Prop :=
  ∀ w ∈ acc.adores, ∃ o, s.simings[w]? = some o ∧ ok (o.adores + delta) ∧ o.adores ≤ room

/-- The change reaches the simings behind the account, or runs out of hops, with every account
on its way there and no check failing at any. -/
def Carries (ok : ℤ → Prop) (s : State) (room delta : ℤ) : ℕ → ℕ → Prop
  | 0, a => ∃ acc, s.accounts[a]? = some acc ∧ (acc.proxy = none → Raises ok s room delta acc)
  | left + 1, a => ∃ acc, s.accounts[a]? = some acc ∧
    match acc.proxy with
    | none => Raises ok s room delta acc
    | some p => (∃ b, s.accounts[p]? = some b ∧ ok (b.proxiedVsfAdores (hop left) + delta)) ∧
      Carries ok s room delta left p

/-- Accounts that a change with `left` hops to go cannot tell apart. -/
def Alike (left : ℕ) (a b : Account) : Prop :=
  b.proxy = a.proxy ∧ b.adores = a.adores ∧
    ∀ k < left, b.proxiedVsfAdores (hop k) = a.proxiedVsfAdores (hop k)

theorem Carries.of_alike {left : ℕ} (hw : t.simings = s.simings)
    (h : ∀ (id : ℕ) (acc : Account), s.accounts[id]? = some acc →
      ∃ acc', t.accounts[id]? = some acc' ∧ Alike left acc acc')
    (hc : Carries ok s room delta left a) : Carries ok t room delta left a := by
  have hraises : ∀ acc acc' : Account, acc'.adores = acc.adores → Raises ok s room delta acc →
      Raises ok t room delta acc' := by
    intro acc acc' he hr w hm
    rw [hw]
    exact hr w (he ▸ hm)
  induction left generalizing a with
  | zero =>
    obtain ⟨acc, ha, hr⟩ := hc
    obtain ⟨acc', ha', hproxy, hadores, -⟩ := h a acc ha
    exact ⟨acc', ha', fun hn ↦ hraises acc acc' hadores (hr (hproxy ▸ hn))⟩
  | succ left ih =>
    obtain ⟨acc, ha, hr⟩ := hc
    obtain ⟨acc', ha', hproxy, hadores, -⟩ := h a acc ha
    refine ⟨acc', ha', ?_⟩
    rw [hproxy]
    cases hp : acc.proxy with
    | none =>
      rw [hp] at hr
      exact hraises acc acc' hadores hr
    | some p =>
      rw [hp] at hr
      obtain ⟨⟨b, hb, hfits⟩, hrest⟩ := hr
      obtain ⟨b', hb', -, -, hk⟩ := h p b hb
      refine ⟨⟨b', hb', hk left (Nat.lt_succ_self left) ▸ hfits⟩, ih ?_ hrest⟩
      intro id acc hacc
      obtain ⟨acc', hacc', hproxy, hadores, hk⟩ := h id acc hacc
      exact ⟨acc', hacc', hproxy, hadores, fun k hlt ↦ hk k (Nat.lt_succ_of_lt hlt)⟩

theorem alike_credit {left : ℕ} {b : Account} (h : left + 1 ≤ taiyiMaxProxyRecursionDepth) :
    Alike left b (b.creditAmount delta (hop left)) := by
  refine ⟨rfl, rfl, fun k hk ↦ if_neg ?_⟩
  simp only [hop]
  omega

theorem carries_insert {left : ℕ} {p : ℕ} {b b' : Account} (hb : s.accounts[p]? = some b)
    (hw : t.simings = s.simings) (ht : t.accounts = s.accounts.insert p b')
    (halike : Alike left b b') :
    Carries ok t room delta left a ↔ Carries ok s room delta left a := by
  have hrefl : ∀ acc, Alike left acc acc := fun acc ↦ ⟨rfl, rfl, fun _ _ ↦ rfl⟩
  constructor
  · refine Carries.of_alike hw.symm fun id acc hacc ↦ ?_
    rw [ht, getElem?_insert] at hacc
    split at hacc
    · next hid =>
      cases hacc
      exact ⟨b, hid ▸ hb, halike.1.symm, halike.2.1.symm, fun k hk ↦ (halike.2.2 k hk).symm⟩
    · exact ⟨acc, hacc, hrefl acc⟩
  · refine Carries.of_alike hw fun id acc hacc ↦ ?_
    rw [ht, getElem?_insert]
    split
    · next hid =>
      rw [← hid, hb] at hacc
      cases hacc
      exact ⟨b', rfl, halike⟩
    · exact ⟨acc, hacc, hrefl acc⟩

end Conditions

variable {ok : ℤ → Prop} [DecidablePred ok]

theorem check_ok {x v : ℤ} {s t : State} : (check ok x).run s = .ok v t ↔ (ok x ∧ v = x) ∧ t = s := by
  unfold check
  simp only [bind_ok, require_ok]
  constructor
  · rintro ⟨_, _, ⟨h, rfl⟩, hr⟩
    cases hr
    exact ⟨⟨h, rfl⟩, rfl⟩
  · rintro ⟨⟨h, rfl⟩, rfl⟩
    exact ⟨⟨⟩, _, ⟨h, rfl⟩, rfl⟩

section Refinement

theorem refines_check {α : Type} {x : ℤ} {f : ℤ → Call α} {y : Call α} (h : Refines (f x) y) :
    Refines (check ok x >>= f) y := by
  intro s a t hr
  obtain ⟨_, _, hx, hf⟩ := bind_ok.mp hr
  obtain ⟨⟨-, rfl⟩, rfl⟩ := check_ok.mp hx
  exact h _ a t hf

theorem refines_checked {x : Call ℤ} : Refines (x >>= check ok) x := by
  intro s a t hr
  obtain ⟨v, u, hx, hv⟩ := bind_ok.mp hr
  obtain ⟨⟨-, rfl⟩, rfl⟩ := check_ok.mp hv
  exact hx

theorem refines_adjustSimingAdore (w : ℕ) (delta : ℤ) :
    Refines (adjustSimingAdore ok w delta) (Ledger.adjustSimingAdore w delta) :=
  .drop (fun _ _ _ h ↦ (getSiming_ok.mp h).2) fun _ ↦ refines_check (.refl _)

theorem refines_adjustSimingAdores (a : ℕ) (delta : ℤ) :
    Refines (adjustSimingAdores ok a delta) (Ledger.adjustSimingAdores a delta) :=
  .bind (.refl _) fun _ ↦ .forM (fun w ↦ refines_adjustSimingAdore w delta) _

/-- With no check failing on the way the change is the one without checks. -/
theorem refines_adjustProxied (a : ℕ) (delta : ℤ) :
    Refines (adjustProxied ok delta taiyiMaxProxyRecursionDepth a) (adjustProxiedSimingAdores a delta) := by
  unfold adjustProxiedSimingAdores
  generalize taiyiMaxProxyRecursionDepth = left
  induction left generalizing a with
  | zero => exact .bind (.refl _) fun _ ↦ .ite (refines_adjustSimingAdores _ _) (.refl _)
  | succ left ih =>
    refine .bind (.refl _) fun acc ↦ ?_
    cases acc.proxy with
    | none => exact refines_adjustSimingAdores a delta
    | some p =>
      exact .drop (fun _ _ _ h ↦ (getAccount_ok.mp h).2) fun _ ↦ refines_check
        (.bind (.refl _) fun _ ↦ ih p)

end Refinement

section Measures

variable {w : Weights} {a : ℕ} {delta : ℤ}

theorem shifts_check : Shifts w.weigh (check ok delta) 0 := .read shifts_require fun _ ↦ .pure _

theorem shifts_adjustSimingAdores : Shifts w.weigh (adjustSimingAdores ok a delta) 0 :=
  .read shifts_getAccount fun _ ↦ .forM_zero fun _ _ ↦ .read shifts_getSiming fun _ ↦
    .read shifts_check fun _ ↦ shifts_adjustSimingAdore

theorem shifts_adjustProxied {left : ℕ} : Shifts w.weigh (adjustProxied ok delta left a) 0 := by
  induction left generalizing a with
  | zero =>
    exact .read shifts_getAccount fun _ ↦ .ite (fun _ ↦ shifts_adjustSimingAdores) fun _ ↦ .pure _
  | succ left ih =>
    refine .read shifts_getAccount fun acc ↦ ?_
    split
    · exact shifts_adjustSimingAdores
    · exact .read shifts_getAccount fun _ ↦ .read shifts_check fun _ ↦
        .read (shifts_modifyAccount fun _ ↦ (add_zero _).symm) fun _ ↦ ih

end Measures

section Completion

variable {s t : State} {a : ℕ} {delta room : ℤ}

theorem wp_check {x : ℤ} {Q : ℤ → State → Prop} : wp (check ok x) Q s ↔ ok x ∧ Q x s :=
  wp_bind.trans (wp_require.trans (and_congr_right fun _ ↦ wp_pure))

theorem completes_adjustSimingAdore {w : ℕ} :
    Completes (adjustSimingAdore ok w delta) s ↔
      ∃ o, s.simings[w]? = some o ∧ ok (o.adores + delta) ∧
        o.adores ≤ s.props.totalQi - delta := by
  simp only [Completes, adjustSimingAdore, Ledger.adjustSimingAdore, modifySiming, wp_bind,
    wp_getSiming, wp_check, wp_get, wp_require, wp_modifyIn]
  constructor
  · rintro ⟨o, ho, hfits, o', ho', hle, -⟩
    rw [ho] at ho'
    cases ho'
    exact ⟨o, ho, hfits, by omega⟩
  · rintro ⟨o, ho, hfits, hle⟩
    exact ⟨o, ho, hfits, o, ho, by omega, o, ho, trivial⟩

theorem adjustSimingAdore_ok {w : ℕ} {u : Unit} (h : (adjustSimingAdore ok w delta).run s = .ok u t) :
    ∃ o, t = { s with simings := s.simings.insert w o } := by
  obtain ⟨_, _, hget, h₁⟩ := bind_ok.mp h
  obtain ⟨-, rfl⟩ := getSiming_ok.mp hget
  obtain ⟨_, _, hshare, h₂⟩ := bind_ok.mp h₁
  obtain ⟨-, rfl⟩ := check_ok.mp hshare
  obtain ⟨_, _, hget', h₃⟩ := bind_ok.mp h₂
  obtain ⟨-, rfl⟩ := getSiming_ok.mp hget'
  obtain ⟨_, _, hs, h₄⟩ := bind_ok.mp h₃
  cases hs
  obtain ⟨_, _, hreq, h₅⟩ := bind_ok.mp h₄
  obtain ⟨-, rfl⟩ := require_ok.mp hreq
  obtain ⟨o, -, rfl⟩ := modifyIn_ok.mp h₅
  exact ⟨_, rfl⟩

theorem completes_adjustSimingAdores :
    Completes (adjustSimingAdores ok a delta) s ↔
      ∃ acc, s.accounts[a]? = some acc ∧ Raises ok s (s.props.totalQi - delta) delta acc := by
  rw [Completes, adjustSimingAdores, wp_bind, wp_getAccount]
  refine exists_congr fun acc ↦ and_congr_right fun _ ↦ ?_
  refine (completes_forM (fun v w r t hne hr ↦ ?_) (nodup_ids acc.adores)).trans ?_
  · obtain ⟨o, rfl⟩ := adjustSimingAdore_ok hr
    simp only [completes_adjustSimingAdore, getElem?_insert, if_neg hne]
  · simp only [Std.ExtTreeSet.mem_toList, completes_adjustSimingAdore, Raises]

theorem completes_adjustProxied {left : ℕ} (h : left ≤ taiyiMaxProxyRecursionDepth) :
    Completes (adjustProxied ok delta left a) s ↔
      Carries ok s (s.props.totalQi - delta) delta left a := by
  induction left generalizing a s with
  | zero =>
    rw [Completes, adjustProxied, wp_bind, wp_getAccount, Carries]
    refine exists_congr fun acc ↦ and_congr_right fun ha ↦ ?_
    by_cases hp : acc.proxy = none
    · rw [if_pos hp, ← Completes, completes_adjustSimingAdores, ha]
      simp [hp]
    · rw [if_neg hp, wp_pure]
      simp [hp]
  | succ left ih =>
    rw [Completes, adjustProxied, wp_bind, wp_getAccount, Carries]
    refine exists_congr fun acc ↦ and_congr_right fun ha ↦ ?_
    cases hp : acc.proxy with
    | none =>
      refine completes_adjustSimingAdores.trans ?_
      rw [ha]
      simp
    | some p =>
      simp only [wp_bind, wp_getAccount, wp_check, modifyAccount, wp_modifyIn]
      have hrest : ∀ b, s.accounts[p]? = some b → (wp (adjustProxied ok delta left p) (fun _ _ ↦ True)
          { s with accounts := s.accounts.insert p (b.creditAmount delta (hop left)) } ↔
            Carries ok s (s.props.totalQi - delta) delta left p) := by
        intro b hb
        refine (ih (Nat.le_of_succ_le h)).trans (carries_insert hb rfl rfl ?_)
        exact alike_credit h
      constructor
      · rintro ⟨b, hb, hfits, b', hb', hr⟩
        exact ⟨⟨b, hb, hfits⟩, (hrest b' hb').mp hr⟩
      · rintro ⟨⟨b, hb, hfits⟩, hr⟩
        exact ⟨b, hb, hfits, b, hb, (hrest b hb).mpr hr⟩

end Completion

end Checked

end Taiyi.Ledger
