import Taiyi.Signing.Verify

set_option autoImplicit false

/-! Checks that neither `max_recursion` nor `max_account_auths` cuts off: what they answer and which
keys they consult does not depend on what was checked before, and with fewer signatures they accept
less and consult more. -/

namespace Taiyi.Signing

variable {Key Account : Type}

section Loop

variable {ε : Type}

/-- A loop over entries of which it is known which ones count. -/
def runEntries (limits : Limits) (threshold : UInt32) (flag : ε → Bool) :
    List (ε × UInt16) → Progress → Except Bool Progress
  | [], p => .ok p
  | (e, weight) :: es, p =>
    match p.entry limits threshold (flag e) weight with
    | .error b => .error b
    | .ok p => runEntries limits threshold flag es p

/-- What the entries touch that the loop comes to. -/
def touched (limits : Limits) (threshold : UInt32) (flag : ε → Bool) (touches : ε → Key → Prop) :
    List (ε × UInt16) → Progress → Key → Prop
  | [], _, _ => False
  | (e, weight) :: es, p, k => touches e k ∨
    match p.entry limits threshold (flag e) weight with
    | .error _ => False
    | .ok p => touched limits threshold flag touches es p k

variable {limits : Limits} {threshold : UInt32} {flag flag' : ε → Bool} {touches touches' : ε → Key → Prop}
  {es : List (ε × UInt16)} {p p' q : Progress} {counts counts' : Bool} {weight : UInt16}

theorem runEntries_congr (h : ∀ e ∈ es, flag e.1 = flag' e.1) :
    runEntries limits threshold flag es p = runEntries limits threshold flag' es p := by
  induction es generalizing p with
  | nil => rfl
  | cons entry es ih =>
    obtain ⟨hentry, hes⟩ := List.forall_mem_cons.mp h
    rw [runEntries, runEntries, hentry]
    split
    · rfl
    · exact ih hes

theorem touched_congr (h : ∀ e ∈ es, flag e.1 = flag' e.1) (ht : ∀ e ∈ es, touches e.1 = touches' e.1) :
    touched limits threshold flag touches es p = touched limits threshold flag' touches' es p := by
  induction es generalizing p with
  | nil => rfl
  | cons entry es ih =>
    obtain ⟨hentry, hes⟩ := List.forall_mem_cons.mp h
    obtain ⟨htentry, htes⟩ := List.forall_mem_cons.mp ht
    funext k
    rw [touched, touched, hentry, htentry]
    cases p.entry limits threshold (flag' entry.1) entry.2 with
    | error b => rfl
    | ok q => simp only [ih hes htes]

/-- The loop goes on, and its sum has not wrapped. -/
structure Progress.Open (limits : Limits) (p : Progress) : Prop where
  exact : p.Exact
  room : p.membership < limits.maxMembership

theorem Progress.Open.add (h : p.Open limits) (weight : UInt16) :
    (p.add weight).totalWeight.toNat = p.totalWeight.toNat + weight.toNat ∧
      p.totalWeight.toNat + weight.toNat ≤ (2 ^ 16 - 1) * (p.membership + 1) := by
  have hexact := h.exact
  have hroom := h.room
  have hbound := limits.maxMembership_le
  have hw := weight.toNat_lt
  unfold Progress.Exact at hexact
  constructor
  · rw [Progress.add, UInt32.toNat_add, UInt16.toNat_toUInt32, Nat.mod_eq_of_lt]
    omega
  · omega

/-- The three ways out of an entry. -/
theorem entry_cases (threshold : UInt32) (h : p.Open limits) (counts : Bool) (weight : UInt16) :
    (counts = true ∧ threshold.toNat ≤ p.totalWeight.toNat + weight.toNat ∧
      p.entry limits threshold counts weight = .error true) ∨
    ((counts = true → p.totalWeight.toNat + weight.toNat < threshold.toNat) ∧
      (limits.maxMembership ≤ p.membership + 1 ∧ p.entry limits threshold counts weight = .error false ∨
        p.membership + 1 < limits.maxMembership ∧ ∃ q : Progress,
          p.entry limits threshold counts weight = .ok q ∧ q.Open limits ∧ q.membership = p.membership + 1 ∧
          q.totalWeight.toNat = p.totalWeight.toNat + if counts then weight.toNat else 0)) := by
  obtain ⟨hadd, hle⟩ := h.add weight
  have hnext : ∀ r : Progress, r.membership = p.membership → r.totalWeight.toNat ≤ (2 ^ 16 - 1) * (p.membership + 1) →
      limits.maxMembership ≤ p.membership + 1 ∧ r.next limits = .error false ∨
        p.membership + 1 < limits.maxMembership ∧ ∃ q : Progress, r.next limits = .ok q ∧ q.Open limits ∧
          q.membership = p.membership + 1 ∧ q.totalWeight = r.totalWeight := by
    intro r hr hw
    have hroom := h.room
    unfold Progress.next
    by_cases hfull : limits.maxMembership ≤ p.membership + 1
    · exact .inl ⟨hfull, if_pos ⟨by omega, by simp only [hr]; exact hfull⟩⟩
    · refine .inr ⟨by omega, _, if_neg fun hc ↦ hfull (by simpa only [hr] using hc.2), ⟨?_, ?_⟩, ?_, rfl⟩
      · simp only [Progress.Exact, hr]
        exact hw
      · simp only [hr]
        omega
      · simp only [hr]
  unfold Progress.entry
  cases counts with
  | false =>
    refine .inr ⟨nofun, ?_⟩
    simp only [Bool.false_eq_true, if_false, Nat.add_zero]
    refine (hnext p rfl (by omega)).imp_right ?_
    rintro ⟨hroom, q, hq, hopen, hm, hw⟩
    exact ⟨hroom, q, hq, hopen, hm, by rw [hw]⟩
  | true =>
    simp only [if_true, UInt32.le_iff_toNat_le, hadd]
    by_cases hreach : threshold.toNat ≤ p.totalWeight.toNat + weight.toNat
    · exact .inl ⟨trivial, hreach, if_pos hreach⟩
    · refine .inr ⟨fun _ ↦ by omega, ?_⟩
      rw [if_neg hreach]
      refine (hnext (p.add weight) rfl (by omega)).imp_right ?_
      rintro ⟨hroom, q, hq, hopen, hm, hw⟩
      exact ⟨hroom, q, hq, hopen, hm, by rw [hw, hadd]⟩

/-- A loop with fewer signatures beside one with more, at the same entry. -/
structure Below (limits : Limits) (p p' : Progress) : Prop where
  lower : p.Open limits
  upper : p'.Open limits
  membership : p'.membership = p.membership
  totalWeight : p.totalWeight.toNat ≤ p'.totalWeight.toNat

/-- Where the lower loop returns the upper one does so too, and with no less. -/
theorem entry_mono (threshold : UInt32) (weight : UInt16) (h : Below limits p p') (hcounts : counts = true → counts' = true) :
    (∃ b b', p.entry limits threshold counts weight = .error b ∧
      p'.entry limits threshold counts' weight = .error b' ∧ (b = true → b' = true)) ∨
    ∃ q, p.entry limits threshold counts weight = .ok q ∧
      (p'.entry limits threshold counts' weight = .error true ∨
        ∃ q', p'.entry limits threshold counts' weight = .ok q' ∧ Below limits q q') := by
  have hle := h.totalWeight
  have hm := h.membership
  have hupper : p'.entry limits threshold counts' weight = .error true ∨ _ :=
    (entry_cases threshold h.upper counts' weight).imp_left fun hu ↦ hu.2.2
  rcases entry_cases threshold h.lower counts weight with
    ⟨hc, hreach, he⟩ | ⟨-, ⟨hfull, he⟩ | ⟨hroom, q, he, hq, hqm, hqw⟩⟩
  · refine .inl ⟨true, true, he, hupper.resolve_right fun hu ↦ ?_, id⟩
    have := hu.1 (hcounts hc)
    omega
  · refine .inl ⟨false, ?_⟩
    rcases hupper with hu | ⟨-, ⟨-, hu⟩ | ⟨hroom', -⟩⟩
    · exact ⟨true, he, hu, nofun⟩
    · exact ⟨false, he, hu, nofun⟩
    · omega
  · refine .inr ⟨q, he, ?_⟩
    rcases hupper with hu | ⟨-, ⟨hfull', -⟩ | ⟨-, q', hu, hq', hqm', hqw'⟩⟩
    · exact .inl hu
    · omega
    · refine .inr ⟨q', hu, hq, hq', by omega, ?_⟩
      have hweight : (if counts = true then weight.toNat else 0) ≤ if counts' = true then weight.toNat else 0 := by
        split
        · next hc => rw [if_pos (hcounts hc)]
        · exact Nat.zero_le _
      omega

theorem runEntries_mono (h : Below limits p p') (hflag : ∀ e ∈ es, flag e.1 = true → flag' e.1 = true) :
    (∃ b b', runEntries limits threshold flag es p = .error b ∧
      runEntries limits threshold flag' es p' = .error b' ∧ (b = true → b' = true)) ∨
    ∃ q, runEntries limits threshold flag es p = .ok q ∧
      (runEntries limits threshold flag' es p' = .error true ∨
        ∃ q', runEntries limits threshold flag' es p' = .ok q' ∧ Below limits q q') := by
  induction es generalizing p p' with
  | nil => exact .inr ⟨p, rfl, .inr ⟨p', rfl, h⟩⟩
  | cons entry es ih =>
    obtain ⟨e, weight⟩ := entry
    obtain ⟨hentry, hes⟩ := List.forall_mem_cons.mp hflag
    rw [runEntries, runEntries]
    rcases entry_mono threshold weight h hentry with
      ⟨b, b', he, he', hb⟩ | ⟨q, he, he' | ⟨q', he', hq⟩⟩
    · rw [he, he']
      exact .inl ⟨b, b', rfl, rfl, hb⟩
    · rw [he, he']
      dsimp only
      cases runEntries limits threshold flag es q with
      | error b => exact .inl ⟨b, true, rfl, rfl, fun _ ↦ rfl⟩
      | ok r => exact .inr ⟨r, rfl, .inl rfl⟩
    · rw [he, he']
      exact ih hq hes

/-- What the upper loop comes to the lower one comes to as well. -/
theorem touched_anti (h : Below limits p p') (hflag : ∀ e ∈ es, flag e.1 = true → flag' e.1 = true)
    (htouches : ∀ e ∈ es, ∀ k, touches' e.1 k → touches e.1 k) {k : Key}
    (hk : touched limits threshold flag' touches' es p' k) : touched limits threshold flag touches es p k := by
  induction es generalizing p p' with
  | nil => exact hk
  | cons entry es ih =>
    obtain ⟨e, weight⟩ := entry
    obtain ⟨hentry, hes⟩ := List.forall_mem_cons.mp hflag
    obtain ⟨htentry, htes⟩ := List.forall_mem_cons.mp htouches
    rw [touched] at hk ⊢
    refine hk.imp (htentry k) fun hk ↦ ?_
    rcases entry_mono threshold weight h hentry with
      ⟨b, b', he, he', -⟩ | ⟨q, he, he' | ⟨q', he', hq⟩⟩
    · rw [he'] at hk
      exact hk.elim
    · rw [he'] at hk
      exact hk.elim
    · rw [he'] at hk
      rw [he]
      exact ih hq hes htes hk

theorem conclude_mono {r r' : Except Bool Progress}
    (h : (∃ b b', r = .error b ∧ r' = .error b' ∧ (b = true → b' = true)) ∨
      ∃ q, r = .ok q ∧ (r' = .error true ∨ ∃ q', r' = .ok q' ∧ Below limits q q'))
    (hr : conclude threshold r = true) : conclude threshold r' = true := by
  rcases h with ⟨b, b', rfl, rfl, hb⟩ | ⟨q, rfl, rfl | ⟨q', rfl, hq⟩⟩
  · exact hb hr
  · rfl
  · have hreach := UInt32.le_iff_toNat_le.mp (of_decide_eq_true hr)
    exact decide_eq_true (UInt32.le_iff_toNat_le.mpr (hreach.trans hq.totalWeight))

end Loop

variable [DecidableEq Key]

/-- What a check comes to that is not cut off, by what its account entries come to. -/
def valueOnce (limits : Limits) (sigs : List Key) (flag : Account → Bool) (x : Authority Key Account) : Bool :=
  match runEntries limits x.weightThreshold (fun k ↦ decide (k ∈ sigs)) x.keyAuths {} with
  | .error b => b
  | .ok p => conclude x.weightThreshold (runEntries limits x.weightThreshold flag x.accountAuths p)

/-- The keys that such a check consults. -/
def touchedOnce (limits : Limits) (sigs : List Key) (flag : Account → Bool) (touches : Account → Key → Prop)
    (x : Authority Key Account) (k : Key) : Prop :=
  touched limits x.weightThreshold (fun k ↦ decide (k ∈ sigs)) (fun j k ↦ k = j) x.keyAuths {} k ∨
    match runEntries limits x.weightThreshold (fun k ↦ decide (k ∈ sigs)) x.keyAuths {} with
    | .error _ => False
    | .ok p => touched limits x.weightThreshold flag touches x.accountAuths p k

def value (limits : Limits) (sigs : List Key) (given : Account → Bool) (getActive : Account → Authority Key Account) :
    ℕ → Authority Key Account → Bool
  | 0 => valueOnce limits sigs given
  | n + 1 => valueOnce limits sigs fun a ↦ given a || value limits sigs given getActive n (getActive a)

/-- The keys that are consulted on the way to the value. -/
def consults (limits : Limits) (sigs : List Key) (given : Account → Bool)
    (getActive : Account → Authority Key Account) : ℕ → Authority Key Account → Key → Prop
  | 0 => touchedOnce limits sigs given fun _ _ ↦ False
  | n + 1 => touchedOnce limits sigs (fun a ↦ given a || value limits sigs given getActive n (getActive a))
      fun a k ↦ given a = false ∧ consults limits sigs given getActive n (getActive a) k

/-- No chain of accounts that are not given has more than so many links. -/
def Shallow (given : Account → Bool) (getActive : Account → Authority Key Account) :
    ℕ → Authority Key Account → Prop
  | 0, x => ∀ e ∈ x.accountAuths, given e.1 = true
  | n + 1, x => ∀ e ∈ x.accountAuths, given e.1 = true ∨ Shallow given getActive n (getActive e.1)

/-- How many accounts a check can visit. -/
def visits (given : Account → Bool) (getActive : Account → Authority Key Account) : ℕ → Authority Key Account → ℕ
  | 0, _ => 0
  | n + 1, x =>
    (x.accountAuths.map fun e ↦ if given e.1 then 0 else 1 + visits given getActive n (getActive e.1)).sum

section Values

variable {limits : Limits} {sigs sigs' : List Key} {given flag flag' : Account → Bool}
  {getActive : Account → Authority Key Account} {touches touches' : Account → Key → Prop}
  {x : Authority Key Account} {n m : ℕ} {k : Key}

theorem valueOnce_congr (h : ∀ e ∈ x.accountAuths, flag e.1 = flag' e.1) :
    valueOnce limits sigs flag x = valueOnce limits sigs flag' x := by
  unfold valueOnce
  split
  · rfl
  · rw [runEntries_congr h]

theorem touchedOnce_congr (h : ∀ e ∈ x.accountAuths, flag e.1 = flag' e.1)
    (ht : ∀ e ∈ x.accountAuths, touches e.1 = touches' e.1) :
    touchedOnce limits sigs flag touches x = touchedOnce limits sigs flag' touches' x := by
  funext k
  unfold touchedOnce
  split
  · rfl
  · rw [touched_congr h ht]

/-- Levels that are not needed make no difference. -/
theorem levels_congr (limits : Limits) (sigs : List Key) (hn : Shallow given getActive n x) (hm : Shallow given getActive m x) :
    value limits sigs given getActive n x = value limits sigs given getActive m x ∧
      consults limits sigs given getActive n x = consults limits sigs given getActive m x := by
  induction n generalizing m x with
  | zero =>
    cases m with
    | zero => exact ⟨rfl, rfl⟩
    | succ m =>
      have hflag : ∀ e ∈ x.accountAuths, given e.1 =
          (given e.1 || value limits sigs given getActive m (getActive e.1)) := fun e he ↦ by
        rw [hn e he, Bool.true_or]
      refine ⟨valueOnce_congr hflag, touchedOnce_congr hflag fun e he ↦ ?_⟩
      funext k
      simp [hn e he]
  | succ n ih =>
    cases m with
    | zero =>
      have hflag : ∀ e ∈ x.accountAuths, (given e.1 || value limits sigs given getActive n (getActive e.1)) =
          given e.1 := fun e he ↦ by
        rw [hm e he, Bool.true_or]
      refine ⟨valueOnce_congr hflag, touchedOnce_congr hflag fun e he ↦ ?_⟩
      funext k
      simp [hm e he]
    | succ m =>
      have hboth : ∀ e ∈ x.accountAuths, given e.1 = true ∨
          value limits sigs given getActive n (getActive e.1) = value limits sigs given getActive m (getActive e.1) ∧
            consults limits sigs given getActive n (getActive e.1) =
              consults limits sigs given getActive m (getActive e.1) := fun e he ↦ by
        rcases hn e he with hg | hn
        · exact .inl hg
        · exact (hm e he).imp_right (ih hn)
      have hflag : ∀ e ∈ x.accountAuths, (given e.1 || value limits sigs given getActive n (getActive e.1)) =
          (given e.1 || value limits sigs given getActive m (getActive e.1)) := fun e he ↦ by
        rcases hboth e he with hg | ⟨hv, -⟩
        · rw [hg, Bool.true_or, Bool.true_or]
        · rw [hv]
      refine ⟨valueOnce_congr hflag, touchedOnce_congr hflag fun e he ↦ ?_⟩
      funext k
      rcases hboth e he with hg | ⟨-, hc⟩
      · simp [hg]
      · rw [hc]

variable (hpos : 0 < limits.maxMembership) (hsub : sigs ⊆ sigs')
include hpos hsub

omit [DecidableEq Key] hsub in
theorem below_start : Below limits {} {} :=
  have hopen : Progress.Open limits {} := ⟨Nat.le_refl 0, hpos⟩
  ⟨hopen, hopen, rfl, Nat.le_refl _⟩

theorem keys_mono {threshold : UInt32} (ks : List (Key × UInt16)) :
    (∃ b b', runEntries limits threshold (fun k ↦ decide (k ∈ sigs)) ks {} = .error b ∧
      runEntries limits threshold (fun k ↦ decide (k ∈ sigs')) ks {} = .error b' ∧ (b = true → b' = true)) ∨
    ∃ q, runEntries limits threshold (fun k ↦ decide (k ∈ sigs)) ks {} = .ok q ∧
      (runEntries limits threshold (fun k ↦ decide (k ∈ sigs')) ks {} = .error true ∨
        ∃ q', runEntries limits threshold (fun k ↦ decide (k ∈ sigs')) ks {} = .ok q' ∧ Below limits q q') :=
  runEntries_mono (below_start hpos) fun _ _ he ↦ decide_eq_true (hsub (of_decide_eq_true he))

theorem valueOnce_mono (hflag : ∀ e ∈ x.accountAuths, flag e.1 = true → flag' e.1 = true)
    (h : valueOnce limits sigs flag x = true) : valueOnce limits sigs' flag' x = true := by
  unfold valueOnce at h ⊢
  rcases keys_mono hpos hsub x.keyAuths with
    ⟨b, b', he, he', hb⟩ | ⟨q, he, he' | ⟨q', he', hq⟩⟩
  · rw [he] at h
    rw [he']
    exact hb h
  · rw [he']
  · rw [he] at h
    rw [he']
    exact conclude_mono (runEntries_mono hq hflag) h

theorem touchedOnce_anti (hflag : ∀ e ∈ x.accountAuths, flag e.1 = true → flag' e.1 = true)
    (htouches : ∀ e ∈ x.accountAuths, ∀ k, touches' e.1 k → touches e.1 k)
    (h : touchedOnce limits sigs' flag' touches' x k) : touchedOnce limits sigs flag touches x k := by
  unfold touchedOnce at h ⊢
  rcases h with h | h
  · refine .inl (touched_anti (below_start hpos) (fun _ _ he ↦ ?_) (fun _ _ _ ↦ id) h)
    exact decide_eq_true (hsub (of_decide_eq_true he))
  · right
    rcases keys_mono hpos hsub x.keyAuths with
      ⟨b, b', he, he', -⟩ | ⟨q, he, he' | ⟨q', he', hq⟩⟩
    · rw [he'] at h
      exact h.elim
    · rw [he'] at h
      exact h.elim
    · rw [he'] at h
      rw [he]
      exact touched_anti hq hflag htouches h

theorem value_mono (h : value limits sigs given getActive n x = true) :
    value limits sigs' given getActive n x = true := by
  induction n generalizing x with
  | zero => exact valueOnce_mono hpos hsub (fun _ _ ↦ id) h
  | succ n ih =>
    refine valueOnce_mono hpos hsub (fun e _ he ↦ ?_) h
    rw [Bool.or_eq_true] at he ⊢
    exact he.imp_right ih

theorem consults_anti (h : consults limits sigs' given getActive n x k) :
    consults limits sigs given getActive n x k := by
  induction n generalizing x k with
  | zero => exact touchedOnce_anti hpos hsub (fun _ _ ↦ id) (fun _ _ _ ↦ id) h
  | succ n ih =>
    refine touchedOnce_anti hpos hsub (fun e _ he ↦ ?_) (fun e _ k hk ↦ ⟨hk.1, ih hk.2⟩) h
    rw [Bool.or_eq_true] at he ⊢
    exact he.imp_right (value_mono hpos hsub)

end Values

section Runs

variable {limits : Limits} {sigs : List Key} {given : Account → Bool} {getActive : Account → Authority Key Account}
  {s t u : SignState Key Account} {C C' : Key → Prop} {threshold : UInt32} {p : Progress} {k : Key}

/-- An account that is approved and not given has been checked, and the keys that this takes are used. -/
structure Honest (limits : Limits) (sigs : List Key) (given : Account → Bool)
    (getActive : Account → Authority Key Account) (s : SignState Key Account) : Prop where
  provides : Provides sigs s
  apart : ∀ k, (k, true) ∈ s.providedSignatures → (k, false) ∉ s.providedSignatures
  given_mem : ∀ a, given a = true → a ∈ s.approvedBy
  approved : ∀ a ∈ s.approvedBy, given a = true ∨ ∃ n, Shallow given getActive n (getActive a) ∧
    value limits sigs given getActive n (getActive a) = true ∧
    ∀ k ∈ sigs, consults limits sigs given getActive n (getActive a) k → (k, true) ∈ s.providedSignatures

/-- From `s` to `t` the keys with `C` are consulted. -/
structure Consulting (limits : Limits) (sigs : List Key) (given : Account → Bool)
    (getActive : Account → Authority Key Account) (C : Key → Prop) (s t : SignState Key Account) : Prop where
  honest : Honest limits sigs given getActive t
  keeps : ∀ k, (k, true) ∈ s.providedSignatures → (k, true) ∈ t.providedSignatures
  used : ∀ k ∈ sigs, C k → (k, true) ∈ t.providedSignatures
  only : ∀ k, (k, true) ∈ t.providedSignatures → (k, true) ∈ s.providedSignatures ∨ C k

theorem Consulting.refl (h : Honest limits sigs given getActive s)
    (hC : ∀ k ∈ sigs, C k → (k, true) ∈ s.providedSignatures) : Consulting limits sigs given getActive C s s :=
  ⟨h, fun _ ↦ id, hC, fun _ ↦ .inl⟩

theorem Consulting.trans (h : Consulting limits sigs given getActive C s t)
    (h' : Consulting limits sigs given getActive C' t u) :
    Consulting limits sigs given getActive (fun k ↦ C k ∨ C' k) s u where
  honest := h'.honest
  keeps k hk := h'.keeps k (h.keeps k hk)
  used k hk hC := hC.elim (fun hC ↦ h'.keeps k (h.used k hk hC)) (h'.used k hk)
  only k hk := (h'.only k hk).elim (fun hk ↦ (h.only k hk).imp_right .inl) fun hC ↦ .inr (.inr hC)

theorem Consulting.of_iff (h : Consulting limits sigs given getActive C s t) (hC : ∀ k, C' k ↔ C k) :
    Consulting limits sigs given getActive C' s t where
  honest := h.honest
  keeps := h.keeps
  used k hk hk' := h.used k hk ((hC k).mp hk')
  only k hk := (h.only k hk).imp_right (hC k).mpr

theorem signedBy_apart (h : Honest limits sigs given getActive s) {j : Key}
    (hj : (j, true) ∈ (s.signedBy k).2.providedSignatures) : (j, false) ∉ (s.signedBy k).2.providedSignatures := by
  unfold SignState.signedBy at hj ⊢
  split at hj
  · next hany =>
    rw [if_pos hany]
    intro hj'
    obtain ⟨r', hr', he'⟩ := List.mem_map.mp hj'
    split at he'
    · cases he'
    · next hne =>
      subst he'
      obtain ⟨r, hr, he⟩ := List.mem_map.mp hj
      split at he
      · exact hne (congrArg Prod.fst he).symm
      · subst he
        exact h.apart j hr hr'
  · next hany =>
    rw [if_neg hany]
    rw [h.provides.available] at hj ⊢
    exact h.apart j hj

theorem signedBy_consulting (h : Honest limits sigs given getActive s) :
    Consulting limits sigs given getActive (· = k) s (s.signedBy k).2 := by
  have hmarks := signedBy_marks (k := k) h.provides
  have hkeeps : ∀ j, (j, true) ∈ s.providedSignatures → (j, true) ∈ (s.signedBy k).2.providedSignatures := by
    intro j hj
    unfold SignState.signedBy
    split
    · refine List.mem_map.mpr ⟨(j, true), hj, ?_⟩
      split
      · next hjk => exact congrArg (·, true) hjk.symm
      · rfl
    · split
      · exact List.mem_cons_of_mem _ hj
      · exact hj
  refine ⟨⟨hmarks.provides, fun j hj ↦ signedBy_apart h hj, fun a ha ↦ ?_, fun a ha ↦ ?_⟩, hkeeps,
    fun j hj hjk ↦ ?_, hmarks.used⟩
  · rw [hmarks.approvedBy]
    exact h.given_mem a ha
  · rw [hmarks.approvedBy] at ha
    refine (h.approved a ha).imp_right ?_
    rintro ⟨n, hn, hv, hc⟩
    exact ⟨n, hn, hv, fun j hj hjc ↦ hkeeps j (hc j hj hjc)⟩
  · subst hjk
    have hany := (h.provides.keys j).mpr hj
    obtain ⟨r, hr, hrj⟩ := List.any_eq_true.mp hany
    unfold SignState.signedBy
    rw [if_pos hany]
    exact List.mem_map.mpr ⟨r, hr, if_pos (of_decide_eq_true hrj)⟩

/-- The loop over the keys. -/
theorem checkKeys_consulting (threshold : UInt32) (h : Honest limits sigs given getActive s) (ks : List (Key × UInt16)) :
    (checkKeys limits threshold ks p s).1 = runEntries limits threshold (fun k ↦ decide (k ∈ sigs)) ks p ∧
      Consulting limits sigs given getActive
        (touched limits threshold (fun k ↦ decide (k ∈ sigs)) (fun j k ↦ k = j) ks p) s
        (checkKeys limits threshold ks p s).2 := by
  induction ks generalizing p s with
  | nil => exact ⟨rfl, .refl h fun _ _ ↦ False.elim⟩
  | cons entry ks ih =>
    obtain ⟨k, weight⟩ := entry
    have hstep := signedBy_consulting (k := k) h
    rw [checkKeys, runEntries, signedBy_fst h.provides]
    cases hentry : p.entry limits threshold (decide (k ∈ sigs)) weight with
    | error b =>
      refine ⟨rfl, hstep.of_iff fun j ↦ ?_⟩
      simp [touched, hentry]
    | ok q =>
      obtain ⟨hres, hrest⟩ := ih (p := q) hstep.honest
      refine ⟨hres, (hstep.trans hrest).of_iff fun j ↦ ?_⟩
      simp [touched, hentry]

/-- So many accounts may be counted. -/
def Room (limits : Limits) (count : ℕ) : Prop := 0 < limits.maxAccountAuths → count ≤ limits.maxAccountAuths

theorem Room.mono {count count' : ℕ} (h : Room limits count) (hle : count' ≤ count) : Room limits count' :=
  fun hpos ↦ hle.trans (h hpos)

variable [DecidableEq Account] {flag : Account → Bool} {touches : Account → Key → Prop} {c : Account → ℕ}
  {descend : Option (Account → Walk Key Account → Bool × Walk Key Account)} {w : Walk Key Account}
  {as : List (Account × UInt16)} {x : Authority Key Account} {a : Account} {n : ℕ}

/-- A check answers `b`, consults the keys with `C` and counts no more than `v` accounts, if there is room. -/
def Answers (limits : Limits) (sigs : List Key) (given : Account → Bool) (getActive : Account → Authority Key Account)
    (b : Bool) (C : Key → Prop) (v : ℕ) (check : Walk Key Account → Bool × Walk Key Account) : Prop :=
  ∀ w, Honest limits sigs given getActive w.state → Room limits (w.accountAuthCount + v) →
    (check w).1 = b ∧ Consulting limits sigs given getActive C w.state (check w).2.state ∧
      (check w).2.accountAuthCount ≤ w.accountAuthCount + v

/-- The loop over the accounts. -/
theorem checkAccounts_consulting (threshold : UInt32)
    (hvisit : ∀ e ∈ as, ∀ w, Honest limits sigs given getActive w.state →
      Room limits (w.accountAuthCount + c e.1) →
      (visitAccount limits descend e.1 w).1 = .counts (flag e.1) ∧
        Consulting limits sigs given getActive (touches e.1) w.state (visitAccount limits descend e.1 w).2.state ∧
        (visitAccount limits descend e.1 w).2.accountAuthCount ≤ w.accountAuthCount + c e.1)
    (h : Honest limits sigs given getActive w.state)
    (hroom : Room limits (w.accountAuthCount + (as.map fun e ↦ c e.1).sum)) :
    (checkAccounts limits threshold descend as p w).1 = runEntries limits threshold flag as p ∧
      Consulting limits sigs given getActive (touched limits threshold flag touches as p) w.state
        (checkAccounts limits threshold descend as p w).2.state ∧
      (checkAccounts limits threshold descend as p w).2.accountAuthCount ≤
        w.accountAuthCount + (as.map fun e ↦ c e.1).sum := by
  induction as generalizing p w with
  | nil => exact ⟨rfl, .refl h fun _ _ ↦ False.elim, Nat.le_refl _⟩
  | cons entry as ih =>
    obtain ⟨a, weight⟩ := entry
    obtain ⟨hfirst, hrest⟩ := List.forall_mem_cons.mp hvisit
    rw [List.map_cons, List.sum_cons, ← Nat.add_assoc] at hroom ⊢
    obtain ⟨hcounts, hstep, hcount⟩ := hfirst w h (hroom.mono (Nat.le_add_right _ _))
    rw [checkAccounts, runEntries]
    rcases hv : visitAccount limits descend a w with ⟨v, w'⟩
    rw [hv] at hcounts hstep hcount
    dsimp only at hcounts hstep hcount
    rw [hcounts]
    dsimp only
    cases hentry : p.entry limits threshold (flag a) weight with
    | error b =>
      refine ⟨rfl, hstep.of_iff fun j ↦ ?_, hcount.trans (Nat.le_add_right _ _)⟩
      simp [touched, hentry]
    | ok q =>
      obtain ⟨hres, hmore, hcount'⟩ := ih (p := q) hrest hstep.honest (hroom.mono (Nat.add_le_add_right hcount _))
      refine ⟨hres, (hstep.trans hmore).of_iff fun j ↦ ?_, hcount'.trans (Nat.add_le_add_right hcount _)⟩
      simp [touched, hentry]

theorem checkOnce_answers
    (hvisit : ∀ e ∈ x.accountAuths, ∀ w, Honest limits sigs given getActive w.state →
      Room limits (w.accountAuthCount + c e.1) →
      (visitAccount limits descend e.1 w).1 = .counts (flag e.1) ∧
        Consulting limits sigs given getActive (touches e.1) w.state (visitAccount limits descend e.1 w).2.state ∧
        (visitAccount limits descend e.1 w).2.accountAuthCount ≤ w.accountAuthCount + c e.1) :
    Answers limits sigs given getActive (valueOnce limits sigs flag x) (touchedOnce limits sigs flag touches x)
      (x.accountAuths.map fun e ↦ c e.1).sum (checkOnce limits descend x) := by
  intro w h hroom
  obtain ⟨hres, hkeys⟩ := checkKeys_consulting x.weightThreshold (p := {}) h x.keyAuths
  obtain ⟨b, s, hk, hr⟩ | ⟨p, s, hk, hr⟩ := checkOnce_cases limits descend x w <;> rw [hk] at hres hkeys <;> rw [hr]
  · refine ⟨?_, hkeys.of_iff fun k ↦ ?_, Nat.le_add_right _ _⟩
    · rw [valueOnce, ← hres]
    · simp [touchedOnce, ← hres]
  · obtain ⟨hres', haccounts, hcount⟩ := checkAccounts_consulting x.weightThreshold
      (w := { w with state := s }) (p := p) hvisit hkeys.honest hroom
    refine ⟨?_, (hkeys.trans haccounts).of_iff fun k ↦ ?_, hcount⟩
    · rw [valueOnce, ← hres, hres']
    · simp [touchedOnce, ← hres]

omit [DecidableEq Account] in
/-- An account that has been approved need not be checked again, and the keys are used already. -/
theorem Honest.approved_consulting (h : Honest limits sigs given getActive s) (ha : a ∈ s.approvedBy)
    (hshallow : given a = true ∨ Shallow given getActive n (getActive a)) :
    (given a || value limits sigs given getActive n (getActive a)) = true ∧
      Consulting limits sigs given getActive
        (fun k ↦ given a = false ∧ consults limits sigs given getActive n (getActive a) k) s s := by
  rcases h.approved a ha with hg | ⟨m, hm, hv, hc⟩
  · refine ⟨by rw [hg, Bool.true_or], .refl h fun k _ hk ↦ ?_⟩
    rw [hg] at hk
    exact Bool.noConfusion hk.1
  · rcases hshallow with hg | hn
    · refine ⟨by rw [hg, Bool.true_or], .refl h fun k _ hk ↦ ?_⟩
      rw [hg] at hk
      exact Bool.noConfusion hk.1
    · obtain ⟨hvalue, hconsults⟩ := levels_congr limits sigs hn hm
      refine ⟨by rw [hvalue, hv, Bool.or_true], .refl h fun k hk hkc ↦ hc k hk ?_⟩
      rw [← hconsults]
      exact hkc.2

theorem visitAccount_answers {check : Account → Walk Key Account → Bool × Walk Key Account}
    (hshallow : given a = true ∨ Shallow given getActive n (getActive a))
    (hcheck : given a = false → Answers limits sigs given getActive (value limits sigs given getActive n (getActive a))
      (consults limits sigs given getActive n (getActive a)) (visits given getActive n (getActive a)) (check a))
    (h : Honest limits sigs given getActive w.state)
    (hroom : Room limits (w.accountAuthCount + if given a then 0 else 1 + visits given getActive n (getActive a))) :
    (visitAccount limits (some check) a w).1 =
        .counts (given a || value limits sigs given getActive n (getActive a)) ∧
      Consulting limits sigs given getActive
        (fun k ↦ given a = false ∧ consults limits sigs given getActive n (getActive a) k) w.state
        (visitAccount limits (some check) a w).2.state ∧
      (visitAccount limits (some check) a w).2.accountAuthCount ≤
        w.accountAuthCount + if given a then 0 else 1 + visits given getActive n (getActive a) := by
  unfold visitAccount
  split
  · next hmem =>
    obtain ⟨hvalue, hconsulting⟩ := h.approved_consulting hmem hshallow
    rw [hvalue]
    exact ⟨rfl, hconsulting, Nat.le_add_right _ _⟩
  · next hmem =>
    have hg : given a = false := Bool.eq_false_of_not_eq_true fun hg ↦ hmem (h.given_mem a hg)
    have hn := hshallow.resolve_left (by simp [hg])
    rw [hg] at hroom ⊢
    simp only [Bool.false_eq_true, if_false, ← Nat.add_assoc, Bool.false_or, true_and] at hroom ⊢
    rw [if_neg fun hfull ↦ by
      have := hroom hfull.1
      omega]
    obtain ⟨hres, hconsulting, hcount⟩ := hcheck hg ⟨w.state, w.accountAuthCount + 1⟩ h hroom
    rcases hc : check a ⟨w.state, w.accountAuthCount + 1⟩ with ⟨b, v⟩
    rw [hc] at hres hconsulting hcount
    dsimp only at hres hconsulting hcount
    subst hres
    cases hvalue : value limits sigs given getActive n (getActive a) with
    | false => exact ⟨rfl, hconsulting, hcount⟩
    | true =>
      refine ⟨rfl, ⟨⟨?_, ?_, ?_, ?_⟩, hconsulting.keeps, hconsulting.used, hconsulting.only⟩, hcount⟩
      · exact ⟨hconsulting.honest.provides.keys, hconsulting.honest.provides.available⟩
      · exact hconsulting.honest.apart
      · exact fun b hb ↦ List.mem_cons_of_mem _ (hconsulting.honest.given_mem b hb)
      · intro b hb
        rcases List.mem_cons.mp hb with rfl | hb
        · exact .inr ⟨n, hn, hvalue, hconsulting.used⟩
        · exact hconsulting.honest.approved b hb

/-- A check that is not cut off answers the value, whatever has been checked before. -/
theorem checkAuthorityImpl_answers (hshallow : Shallow given getActive n x) :
    Answers limits sigs given getActive (value limits sigs given getActive n x)
      (consults limits sigs given getActive n x) (visits given getActive n x)
      (checkAuthorityImpl limits getActive n x) := by
  induction n generalizing x with
  | zero =>
    have hcost : (x.accountAuths.map fun _ ↦ 0).sum = visits given getActive 0 x := by simp [visits]
    rw [← hcost]
    change Answers limits sigs given getActive (valueOnce limits sigs given x)
      (touchedOnce limits sigs given (fun _ _ ↦ False) x) _ (checkOnce limits none x)
    refine checkOnce_answers (c := fun _ ↦ 0) fun e he w h hroom ↦ ?_
    have hg := hshallow e he
    unfold visitAccount
    rw [if_pos (h.given_mem _ hg), hg]
    exact ⟨rfl, .refl h fun _ _ ↦ False.elim, Nat.le_refl _⟩
  | succ n ih =>
    refine checkOnce_answers (c := fun a ↦ if given a then 0 else 1 + visits given getActive n (getActive a))
      fun e he w h hroom ↦ ?_
    refine visitAccount_answers (hshallow e he) (fun hg ↦ ?_) h hroom
    exact ih ((hshallow e he).resolve_left (by simp [hg]))

end Runs

section Operands

variable {limits : Limits} {sigs sigs' : List Key} {given : Account → Bool}
  {getActive : Account → Authority Key Account} {s : SignState Key Account}
  {t : Audit Key Account} {o : Operand Key Account} {os : List (Operand Key Account)}
  {as : List (AuthorityError × List (Operand Key Account))} {k : Key}

namespace Operand

def value (limits : Limits) (sigs : List Key) (given : Account → Bool) (getActive : Account → Authority Key Account) :
    Operand Key Account → Bool
  | .approval b => b
  | .account id => given id || Signing.value limits sigs given getActive limits.maxRecursion (getActive id)
  | .authority x => Signing.value limits sigs given getActive limits.maxRecursion x

def consults (limits : Limits) (sigs : List Key) (given : Account → Bool)
    (getActive : Account → Authority Key Account) : Operand Key Account → Key → Prop
  | .approval _, _ => False
  | .account id, k =>
    given id = false ∧ Signing.consults limits sigs given getActive limits.maxRecursion (getActive id) k
  | .authority x, k => Signing.consults limits sigs given getActive limits.maxRecursion x k

/-- The check of the operand is not cut off. -/
def Uncut (limits : Limits) (given : Account → Bool) (getActive : Account → Authority Key Account) :
    Operand Key Account → Prop
  | .approval _ => True
  | .account id => given id = true ∨ Shallow given getActive limits.maxRecursion (getActive id) ∧
      Room limits (1 + visits given getActive limits.maxRecursion (getActive id))
  | .authority x => Shallow given getActive limits.maxRecursion x ∧
      Room limits (visits given getActive limits.maxRecursion x)

end Operand

/-- The keys that a disjunction consults, up to its first operand that holds. -/
def anyConsults (limits : Limits) (sigs : List Key) (given : Account → Bool)
    (getActive : Account → Authority Key Account) : List (Operand Key Account) → Key → Prop
  | [], _ => False
  | o :: os, k => o.consults limits sigs given getActive k ∨
      o.value limits sigs given getActive = false ∧ anyConsults limits sigs given getActive os k

/-- The keys that the assertions consult, up to the first one that fails. -/
def allConsults (limits : Limits) (sigs : List Key) (given : Account → Bool)
    (getActive : Account → Authority Key Account) : List (AuthorityError × List (Operand Key Account)) → Key → Prop
  | [], _ => False
  | a :: as, k => anyConsults limits sigs given getActive a.2 k ∨
      a.2.any (Operand.value limits sigs given getActive) = true ∧ allConsults limits sigs given getActive as k

section Answers

variable [DecidableEq Account]

theorem Operand.check_answers (ho : o.Uncut limits given getActive) (h : Honest limits sigs given getActive s) :
    (o.check limits getActive s).1 = o.value limits sigs given getActive ∧
      Consulting limits sigs given getActive (o.consults limits sigs given getActive) s
        (o.check limits getActive s).2.state := by
  cases o with
  | approval b => exact ⟨rfl, .refl h fun _ _ ↦ False.elim⟩
  | account id =>
    have hshallow : given id = true ∨ Shallow given getActive limits.maxRecursion (getActive id) := ho.imp_right And.left
    rw [Operand.check, SignState.checkAccount]
    split
    · next hmem =>
      obtain ⟨hvalue, hconsulting⟩ := h.approved_consulting hmem hshallow
      exact ⟨hvalue.symm, hconsulting⟩
    · next hmem =>
      have hg : given id = false := Bool.eq_false_of_not_eq_true fun hg ↦ hmem (h.given_mem id hg)
      obtain ⟨hn, hroom⟩ := ho.resolve_left (by simp [hg])
      obtain ⟨hres, hconsulting, -⟩ := checkAuthorityImpl_answers hn ⟨s, 1⟩ h hroom
      refine ⟨?_, hconsulting.of_iff fun k ↦ ?_⟩
      · rw [hres, Operand.value, hg, Bool.false_or]
      · rw [Operand.consults, and_iff_right hg]
  | authority x =>
    obtain ⟨hn, hroom⟩ := ho
    obtain ⟨hres, hconsulting, -⟩ := checkAuthorityImpl_answers hn ⟨s, 0⟩ h (by rwa [Nat.zero_add])
    exact ⟨hres, hconsulting⟩

theorem checkAny_answers (hos : ∀ o ∈ os, o.Uncut limits given getActive)
    (h : Honest limits sigs given getActive t.state) :
    (checkAny limits getActive os t).1 = os.any (Operand.value limits sigs given getActive) ∧
      Consulting limits sigs given getActive (anyConsults limits sigs given getActive os) t.state
        (checkAny limits getActive os t).2.state := by
  induction os generalizing t with
  | nil => exact ⟨rfl, .refl h fun _ _ ↦ False.elim⟩
  | cons o os ih =>
    obtain ⟨ho, hos⟩ := List.forall_mem_cons.mp hos
    obtain ⟨hres, hstep⟩ := Operand.check_answers ho h
    rw [checkAny, List.any_cons, ← hres]
    rcases hc : o.check limits getActive t.state with ⟨b, w⟩
    rw [hc] at hres hstep
    dsimp only at hres hstep
    cases b with
    | true =>
      refine ⟨rfl, hstep.of_iff fun k ↦ ?_⟩
      simp [anyConsults, ← hres]
    | false =>
      obtain ⟨hrest, hmore⟩ := ih (t := t.after w) hos hstep.honest
      refine ⟨hrest, (hstep.trans hmore).of_iff fun k ↦ ?_⟩
      simp [anyConsults, ← hres]

theorem assertAll_answers (has : ∀ a ∈ as, ∀ o ∈ a.2, o.Uncut limits given getActive)
    (h : Honest limits sigs given getActive t.state) :
    ((∀ a ∈ as, a.2.any (Operand.value limits sigs given getActive) = true) ∧
      (assertAll limits getActive as t).1 = .ok () ∧
      Consulting limits sigs given getActive (allConsults limits sigs given getActive as) t.state
        (assertAll limits getActive as t).2.state) ∨
    ∃ a ∈ as, a.2.any (Operand.value limits sigs given getActive) = false ∧
      (assertAll limits getActive as t).1 = .error a.1 := by
  induction as generalizing t with
  | nil => exact .inl ⟨nofun, rfl, .refl h fun _ _ ↦ False.elim⟩
  | cons a as ih =>
    obtain ⟨e, os⟩ := a
    obtain ⟨hos, has⟩ := List.forall_mem_cons.mp has
    obtain ⟨hres, hstep⟩ := checkAny_answers hos h
    rw [assertAll]
    rcases hc : checkAny limits getActive os t with ⟨b, t'⟩
    rw [hc] at hres hstep
    dsimp only at hres hstep
    cases b with
    | false => exact .inr ⟨(e, os), List.mem_cons_self, hres.symm, rfl⟩
    | true =>
      rcases ih has hstep.honest with ⟨hall, hok, hmore⟩ | ⟨a, ha, hfails, herror⟩
      · refine .inl ⟨List.forall_mem_cons.mpr ⟨hres.symm, hall⟩, hok, (hstep.trans hmore).of_iff fun k ↦ ?_⟩
        simp [allConsults, ← hres]
      · exact .inr ⟨a, List.mem_cons_of_mem _ ha, hfails, herror⟩

end Answers

section Fewer

variable (hpos : 0 < limits.maxMembership) (hsub : sigs ⊆ sigs')
include hpos hsub

theorem Operand.value_mono (h : o.value limits sigs given getActive = true) :
    o.value limits sigs' given getActive = true := by
  cases o with
  | approval b => exact h
  | account id =>
    rw [Operand.value, Bool.or_eq_true] at h ⊢
    exact h.imp_right (Signing.value_mono hpos hsub)
  | authority x => exact Signing.value_mono hpos hsub h

theorem Operand.consults_anti (h : o.consults limits sigs' given getActive k) :
    o.consults limits sigs given getActive k := by
  cases o with
  | approval b => exact h
  | account id => exact ⟨h.1, Signing.consults_anti hpos hsub h.2⟩
  | authority x => exact Signing.consults_anti hpos hsub h

theorem any_value_mono (h : os.any (Operand.value limits sigs given getActive) = true) :
    os.any (Operand.value limits sigs' given getActive) = true := by
  rw [List.any_eq_true] at h ⊢
  obtain ⟨o, ho, hvalue⟩ := h
  exact ⟨o, ho, Operand.value_mono hpos hsub hvalue⟩

/-- An operand that the upper checks come to fails before in the lower ones too. -/
theorem anyConsults_anti (h : anyConsults limits sigs' given getActive os k) :
    anyConsults limits sigs given getActive os k := by
  induction os with
  | nil => exact h
  | cons o os ih =>
    refine Or.imp (Operand.consults_anti hpos hsub) (fun hrest ↦ ⟨?_, ih hrest.2⟩) h
    refine Bool.eq_false_of_not_eq_true fun hvalue ↦ ?_
    rw [Operand.value_mono hpos hsub hvalue] at hrest
    exact Bool.noConfusion hrest.1

theorem allConsults_anti (hall : ∀ a ∈ as, a.2.any (Operand.value limits sigs given getActive) = true)
    (h : allConsults limits sigs' given getActive as k) : allConsults limits sigs given getActive as k := by
  induction as with
  | nil => exact h
  | cons a as ih =>
    obtain ⟨ha, has⟩ := List.forall_mem_cons.mp hall
    exact Or.imp (anyConsults_anti hpos hsub) (fun hrest ↦ ⟨ha, ih has hrest.2⟩) h

end Fewer

end Operands

section Verify

variable {limits : Limits} {get : Getters Key Account} {temp : Account} {approvals : Approvals Account}
  {req : Requirements Key Account} {sigs sigs' : List Key} [DecidableEq Account]

namespace Requirements

/-- Posting authority together with another. -/
def mixed (req : Requirements Key Account) : Bool :=
  !req.posting.isEmpty && !(req.active.isEmpty && req.owner.isEmpty && req.other.isEmpty)

/-- No check of a verification is cut off: the chains of accounts have at most `max_recursion` links,
and all their accounts may be counted. -/
def Uncut (req : Requirements Key Account) (limits : Limits) (get : Getters Key Account) (temp : Account)
    (approvals : Approvals Account) : Prop :=
  ∀ a ∈ req.assertions get approvals, ∀ o ∈ a.2, o.Uncut limits (req.given temp approvals) (req.getter get)

/-- Every assertion holds with these signatures. -/
def Met (req : Requirements Key Account) (limits : Limits) (get : Getters Key Account) (temp : Account)
    (approvals : Approvals Account) (sigs : List Key) : Prop :=
  ∀ a ∈ req.assertions get approvals,
    a.2.any (Operand.value limits sigs (req.given temp approvals) (req.getter get)) = true

def Consults (req : Requirements Key Account) (limits : Limits) (get : Getters Key Account) (temp : Account)
    (approvals : Approvals Account) (sigs : List Key) (k : Key) : Prop :=
  allConsults limits sigs (req.given temp approvals) (req.getter get) (req.assertions get approvals) k

omit [DecidableEq Key] in
theorem isMissing_of_mem {a : AuthorityError × List (Operand Key Account)} (ha : a ∈ req.assertions get approvals) :
    a.1.isMissing = true := by
  unfold assertions at ha
  split at ha
  · simp only [List.mem_append, List.mem_map] at ha
    rcases ha with (⟨x, -, rfl⟩ | ⟨id, -, rfl⟩) | ⟨id, -, rfl⟩ <;> rfl
  · obtain ⟨id, -, rfl⟩ := List.mem_map.mp ha
    rfl

end Requirements

theorem honest_start : Honest limits sigs (req.given temp approvals) (req.getter get)
    (.start temp sigs (req.approvedBefore approvals)) where
  provides := ⟨fun k ↦ by simp [SignState.start], rfl⟩
  apart k hk := by simp [SignState.start] at hk
  given_mem a ha := of_decide_eq_true ha
  approved a ha := .inl (decide_eq_true ha)

/-- The outcome of a verification that is not cut off. -/
theorem verifyAuthority_uncut (sigs : List Key) (h : req.Uncut limits get temp approvals) (hmixed : req.mixed = false) :
    req.Met limits get temp approvals sigs ∧
      ((verifyAuthority limits get temp approvals req sigs).1 = .ok () ∧
          (∀ k ∈ sigs, req.Consults limits get temp approvals sigs k) ∨
        (verifyAuthority limits get temp approvals req sigs).1 = .error .irrelevantSignature ∧
          ∃ k ∈ sigs, ¬req.Consults limits get temp approvals sigs k) ∨
    ¬req.Met limits get temp approvals sigs ∧
      ∃ e, e.isMissing = true ∧ (verifyAuthority limits get temp approvals req sigs).1 = .error e := by
  have hstart : Honest limits sigs (req.given temp approvals) (req.getter get)
    (.start temp sigs (req.approvedBefore approvals)) := honest_start
  unfold verifyAuthority
  rw [if_neg (by rw [← Requirements.mixed, hmixed]; exact Bool.false_ne_true)]
  rcases assertAll_answers (t := ⟨.start temp sigs (req.approvedBefore approvals), 0⟩) h hstart with
    ⟨hall, hok, hconsulting⟩ | ⟨a, ha, hfails, herror⟩
  · refine .inl ⟨hall, ?_⟩
    rcases hrun : assertAll limits (req.getter get) (req.assertions get approvals)
      ⟨.start temp sigs (req.approvedBefore approvals), 0⟩ with ⟨e | _, t⟩
    · rw [hrun] at hok
      cases hok
    · rw [hrun] at hconsulting
      dsimp only at hconsulting ⊢
      have hkeys := hconsulting.honest.provides.keys
      split
      · next hunused =>
        obtain ⟨⟨k, used⟩, hmem, hk⟩ := List.any_eq_true.mp hunused
        cases used with
        | true => cases hk
        | false =>
          have hsig : k ∈ sigs := (hkeys k).mp (List.any_eq_true.mpr ⟨_, hmem, decide_eq_true rfl⟩)
          refine .inr ⟨rfl, k, hsig, fun hc ↦ ?_⟩
          exact hconsulting.honest.apart k (hconsulting.used k hsig hc) hmem
      · next hused =>
        refine .inl ⟨rfl, fun k hk ↦ ?_⟩
        obtain ⟨⟨j, used⟩, hmem, hj⟩ := List.any_eq_true.mp ((hkeys k).mpr hk)
        cases of_decide_eq_true hj
        cases used with
        | true => exact (hconsulting.only _ hmem).resolve_left fun hs ↦ by simp [SignState.start] at hs
        | false => exact absurd (List.any_eq_true.mpr ⟨_, hmem, rfl⟩) hused
  · refine .inr ⟨fun hmet ↦ ?_, a.1, Requirements.isMissing_of_mem ha, ?_⟩
    · rw [hmet a ha] at hfails
      cases hfails
    · rcases hrun : assertAll limits (req.getter get) (req.assertions get approvals)
        ⟨.start temp sigs (req.approvedBefore approvals), 0⟩ with ⟨e | _, t⟩
      · rw [hrun] at herror
        exact herror
      · rw [hrun] at herror
        cases herror

theorem verifyAuthority_mixed (hmixed : req.mixed = true) :
    (verifyAuthority limits get temp approvals req sigs).1 = .error .assertion := by
  unfold verifyAuthority
  rw [if_pos (by rw [← Requirements.mixed, hmixed])]

theorem mixed_eq_false (hok : (verifyAuthority limits get temp approvals req sigs).1 = .ok ()) : req.mixed = false := by
  refine Bool.eq_false_of_not_eq_true fun hmixed ↦ ?_
  rw [verifyAuthority_mixed hmixed] at hok
  cases hok

section Fewer

variable (h : req.Uncut limits get temp approvals) (hpos : 0 < limits.maxMembership) (hsub : sigs ⊆ sigs')
include h hpos hsub

/-- Of an accepted set a part is accepted, or something is missing, but no signature is irrelevant. -/
theorem verifyAuthority_down (hok : (verifyAuthority limits get temp approvals req sigs').1 = .ok ()) :
    (verifyAuthority limits get temp approvals req sigs).1 = .ok () ∨
      ∃ e, e.isMissing = true ∧ (verifyAuthority limits get temp approvals req sigs).1 = .error e := by
  have hmixed := mixed_eq_false hok
  rcases verifyAuthority_uncut sigs h hmixed with ⟨hmet, ⟨hok', -⟩ | ⟨-, k, hk, hnot⟩⟩ | ⟨-, hmissing⟩
  · exact .inl hok'
  · rcases verifyAuthority_uncut sigs' h hmixed with
      ⟨-, ⟨-, hconsults⟩ | ⟨herror, -⟩⟩ | ⟨-, e, -, herror⟩
    · exact absurd (allConsults_anti hpos hsub hmet (hconsults k (hsub hk))) hnot
    · rw [hok] at herror
      cases herror
    · rw [hok] at herror
      cases herror
  · exact .inr hmissing

/-- What is missing is missing in every part. -/
theorem verifyAuthority_up (hok : (verifyAuthority limits get temp approvals req sigs).1 = .ok ()) {e : AuthorityError}
    (he : e.isMissing = true) : (verifyAuthority limits get temp approvals req sigs').1 ≠ .error e := by
  intro herror
  have hmixed := mixed_eq_false hok
  have hmet : req.Met limits get temp approvals sigs := by
    rcases verifyAuthority_uncut sigs h hmixed with ⟨hmet, -⟩ | ⟨-, e', -, herror'⟩
    · exact hmet
    · rw [hok] at herror'
      cases herror'
  rcases verifyAuthority_uncut sigs' h hmixed with ⟨-, ⟨hok', -⟩ | ⟨hirr, -⟩⟩ | ⟨hnot, -⟩
  · rw [herror] at hok'
    cases hok'
  · rw [herror] at hirr
    cases hirr
    cases he
  · exact hnot fun a ha ↦ any_value_mono hpos hsub (hmet a ha)

end Fewer

end Verify

end Taiyi.Signing
