import Taiyi.Signing.SignState

set_option autoImplicit false

namespace Taiyi.Signing

open Library.Threshold

variable {Key Account : Type} [DecidableEq Key]

def weights {κ : Type} (entries : List (κ × UInt16)) : List (κ × ℕ) :=
  entries.map fun e ↦ (e.1, e.2.toNat)

/-- The authorities, linked by their account entries. -/
def graph (sigs : List Key) (getActive : Account → Authority Key Account) :
    Library.Threshold.Graph (Authority Key Account) Account where
  threshold x := x.weightThreshold.toNat
  own x := linked (fun k ↦ decide (k ∈ sigs)) (weights x.keyAuths)
  links x := weights x.accountAuths
  node := getActive

section Entries

variable {limits : Limits} {threshold : UInt32} {p : Progress} {counts : Bool} {weight : UInt16}
  {base bound : ℕ} {r : Except Bool Progress}

/-- A loop that went on or accepted has added up at most `bound`. -/
def Bounded (threshold : UInt32) (bound : ℕ) : Except Bool Progress → Prop
  | .error b => b = true → threshold.toNat ≤ bound
  | .ok q => q.totalWeight.toNat ≤ bound

theorem Bounded.mono (h : Bounded threshold base r) (hle : base ≤ bound) :
    Bounded threshold bound r := by
  cases r with
  | error b => exact fun hb ↦ (h hb).trans hle
  | ok q => exact le_trans h hle

theorem Bounded.le (h : Bounded threshold bound r) (hr : conclude threshold r = true) :
    threshold.toNat ≤ bound := by
  cases r with
  | error b => exact h hr
  | ok q => exact (UInt32.le_iff_toNat_le.mp (of_decide_eq_true hr)).trans h

theorem bounded_next (h : p.totalWeight.toNat ≤ base) : Bounded threshold base (p.next limits) := by
  unfold Progress.next
  dsimp only
  split
  · exact nofun
  · exact h

/-- A sum that wraps is smaller, so it never accepts too much. -/
theorem bounded_entry (h : p.totalWeight.toNat ≤ base) :
    Bounded threshold (base + if counts then weight.toNat else 0)
      (p.entry limits threshold counts weight) := by
  unfold Progress.entry
  cases counts with
  | false => exact bounded_next h
  | true =>
    have hadd : (p.add weight).totalWeight.toNat ≤ base + weight.toNat := by
      rw [Progress.add, UInt32.toNat_add, UInt16.toNat_toUInt32]
      exact (Nat.mod_le _ _).trans (Nat.add_le_add_right h _)
    simp only [if_true]
    split
    · next hle => exact fun _ ↦ (UInt32.le_iff_toNat_le.mp hle).trans hadd
    · exact bounded_next hadd

/-- The sum of few entries has not wrapped. -/
def Progress.Exact (p : Progress) : Prop := p.totalWeight.toNat ≤ (2 ^ 16 - 1) * p.membership

theorem next_of_room (h : p.membership + 1 < limits.maxMembership) :
    p.next limits = .ok { p with membership := p.membership + 1 } :=
  if_neg fun hfull ↦ Nat.not_le_of_lt h hfull.2

/-- With room for the entry the loop accepts, or goes on with the exact sum. -/
theorem entry_of_room (hp : p.Exact) (hroom : p.membership + 1 < limits.maxMembership) :
    p.entry limits threshold counts weight = .error true ∨
      ∃ q : Progress, p.entry limits threshold counts weight = .ok q ∧ q.Exact ∧
        q.membership = p.membership + 1 ∧
        q.totalWeight.toNat = p.totalWeight.toNat + if counts then weight.toNat else 0 := by
  have hbound := limits.maxMembership_le
  have hw := weight.toNat_lt
  unfold Progress.Exact at hp ⊢
  cases counts with
  | false =>
    refine .inr ⟨_, next_of_room hroom, ?_, rfl, rfl⟩
    simp only
    omega
  | true =>
    have hadd : (p.add weight).totalWeight.toNat = p.totalWeight.toNat + weight.toNat := by
      rw [Progress.add, UInt32.toNat_add, UInt16.toNat_toUInt32, Nat.mod_eq_of_lt]
      omega
    unfold Progress.entry
    simp only [if_true]
    split
    · exact .inl rfl
    · have hroom' : (p.add weight).membership + 1 < limits.maxMembership := hroom
      refine .inr ⟨_, next_of_room hroom', ?_, rfl, hadd⟩
      simp only [Progress.add] at hadd ⊢
      omega

end Entries

section Keys

variable {sigs : List Key} {limits : Limits} {threshold : UInt32} {s t : SignState Key Account}
  {p : Progress} {ks : List (Key × UInt16)} {k : Key} {base : ℕ}

/-- The signatures provided are those of `sigs`, and no other key is available. -/
structure Provides (sigs : List Key) (s : SignState Key Account) : Prop where
  keys : ∀ k, s.providedSignatures.any (·.1 = k) = true ↔ k ∈ sigs
  available : s.availableKeys = []

/-- From `s` to `t` only keys with `K` have been used. -/
structure Marks (sigs : List Key) (K : Key → Prop) (s t : SignState Key Account) : Prop where
  provides : Provides sigs t
  approvedBy : t.approvedBy = s.approvedBy
  used : ∀ j, (j, true) ∈ t.providedSignatures → (j, true) ∈ s.providedSignatures ∨ K j

theorem Marks.refl {K : Key → Prop} (h : Provides sigs s) : Marks sigs K s s :=
  ⟨h, rfl, fun _ hj ↦ .inl hj⟩

theorem Marks.trans {K : Key → Prop} {u : SignState Key Account} (h : Marks sigs K s t)
    (h' : Marks sigs K t u) : Marks sigs K s u where
  provides := h'.provides
  approvedBy := h'.approvedBy.trans h.approvedBy
  used j hj := (h'.used j hj).elim (h.used j) .inr

theorem Marks.imp {K K' : Key → Prop} (h : Marks sigs K s t) (hK : ∀ j, K j → K' j) :
    Marks sigs K' s t :=
  ⟨h.provides, h.approvedBy, fun j hj ↦ (h.used j hj).imp_right (hK j)⟩

theorem signedBy_fst (h : Provides sigs s) : (s.signedBy k).1 = decide (k ∈ sigs) := by
  unfold SignState.signedBy
  split
  · next hany => simp [(h.keys k).mp hany]
  · next hany =>
    have hk : k ∉ sigs := fun hk ↦ hany ((h.keys k).mpr hk)
    simp [h.available, hk]

theorem signedBy_marks (h : Provides sigs s) : Marks sigs (· = k) s (s.signedBy k).2 := by
  unfold SignState.signedBy
  split
  · refine ⟨⟨fun j ↦ ?_, h.available⟩, rfl, fun j hj ↦ ?_⟩
    · rw [← h.keys j]
      simp only [List.any_map, List.any_eq_true, decide_eq_true_eq, Function.comp_apply]
      refine exists_congr fun r ↦ and_congr_right fun _ ↦ ?_
      split
      · next hr => rw [hr]
      · rfl
    · obtain ⟨r, hr, he⟩ := List.mem_map.mp hj
      split at he
      · exact .inr (congrArg Prod.fst he).symm
      · exact .inl (he ▸ hr)
  · rw [h.available]
    exact .refl h

theorem checkKeys_marks (h : Provides sigs s) :
    Marks sigs (· ∈ ks.map Prod.fst) s (checkKeys limits threshold ks p s).2 := by
  induction ks generalizing p s with
  | nil => exact .refl h
  | cons entry ks ih =>
    obtain ⟨k, weight⟩ := entry
    have hstep : Marks sigs (· ∈ ((k, weight) :: ks).map Prod.fst) s (s.signedBy k).2 :=
      (signedBy_marks h).imp fun j hj ↦ hj ▸ List.mem_cons_self
    rw [checkKeys]
    split
    · exact hstep
    · exact hstep.trans ((ih hstep.provides).imp fun j hj ↦ List.mem_cons_of_mem _ hj)

theorem checkKeys_bounded (h : Provides sigs s) (hbase : p.totalWeight.toNat ≤ base) :
    Bounded threshold (base + linked (fun k ↦ decide (k ∈ sigs)) (weights ks))
      (checkKeys limits threshold ks p s).1 := by
  induction ks generalizing p s base with
  | nil => exact hbase
  | cons entry ks ih =>
    obtain ⟨k, weight⟩ := entry
    have hentry : Bounded threshold _ (p.entry limits threshold (s.signedBy k).1 weight) :=
      bounded_entry hbase
    rw [checkKeys, weights, List.map_cons, linked_cons, ← Nat.add_assoc]
    rw [signedBy_fst h] at hentry ⊢
    cases he : p.entry limits threshold (decide (k ∈ sigs)) weight with
    | error b =>
      rw [he] at hentry
      exact hentry.mono (Nat.le_add_right _ _)
    | ok q =>
      rw [he] at hentry
      exact ih (signedBy_marks h).provides hentry

/-- With room for every key the loop accepts, or adds up exactly the keys that signed. -/
theorem checkKeys_of_room (h : Provides sigs s) (hp : p.Exact)
    (hroom : p.membership + ks.length < limits.maxMembership) :
    (checkKeys limits threshold ks p s).1 = .error true ∨
      ∃ q : Progress, (checkKeys limits threshold ks p s).1 = .ok q ∧ q.Exact ∧
        q.membership = p.membership + ks.length ∧ q.totalWeight.toNat =
          p.totalWeight.toNat + linked (fun k ↦ decide (k ∈ sigs)) (weights ks) := by
  induction ks generalizing p s with
  | nil => exact .inr ⟨p, rfl, hp, rfl, rfl⟩
  | cons entry ks ih =>
    obtain ⟨k, weight⟩ := entry
    rw [List.length_cons] at hroom
    rw [checkKeys, weights, List.map_cons, linked_cons, signedBy_fst h]
    have hentry : p.entry limits threshold (decide (k ∈ sigs)) weight = .error true ∨ _ :=
      entry_of_room hp (by omega)
    obtain he | ⟨q, he, hq, hm, hw⟩ := hentry
    · rw [he]
      exact .inl rfl
    · rw [he]
      refine (ih (signedBy_marks h).provides hq (by omega)).imp_right ?_
      rintro ⟨q', hok, hq', hm', hw'⟩
      refine ⟨q', hok, hq', by rw [hm', hm, List.length_cons]; omega, ?_⟩
      rw [hw', hw, weights]
      exact Nat.add_assoc _ _ _

end Keys

section Accounts

variable {sigs : List Key} {given : Account → Bool} {getActive : Account → Authority Key Account}
  {consulted : Authority Key Account → Prop} {s t : SignState Key Account} {a : Account}

/-- The account is given, or its authority has a derivation. -/
def Established (sigs : List Key) (given : Account → Bool)
    (getActive : Account → Authority Key Account) (a : Account) : Prop :=
  given a = true ∨
    ∃ n, (graph sigs getActive).derives (fun _ ↦ true) given n (getActive a) = true

open Classical in
/-- The accounts that count in a derivation of any depth. -/
noncomputable def established (sigs : List Key) (given : Account → Bool)
    (getActive : Account → Authority Key Account) (a : Account) : Bool :=
  decide (Established sigs given getActive a)

open Classical in
theorem established_iff :
    established sigs given getActive a = true ↔ Established sigs given getActive a :=
  decide_eq_true_iff

/-- What every state of a run satisfies: the accounts approved so far are right, and the keys used
so far stand in authorities that have been consulted. -/
structure Good (sigs : List Key) (given : Account → Bool)
    (getActive : Account → Authority Key Account) (consulted : Authority Key Account → Prop)
    (s : SignState Key Account) : Prop where
  provides : Provides sigs s
  given_mem : ∀ a, given a = true → a ∈ s.approvedBy
  approved : ∀ a ∈ s.approvedBy, Established sigs given getActive a
  used : ∀ k, (k, true) ∈ s.providedSignatures → ∃ x, consulted x ∧ k ∈ x.keyAuths.map Prod.fst

theorem Good.marks (h : Good sigs given getActive consulted s) {K : Key → Prop}
    (hm : Marks sigs K s t) (hK : ∀ k, K k → ∃ x, consulted x ∧ k ∈ x.keyAuths.map Prod.fst) :
    Good sigs given getActive consulted t where
  provides := hm.provides
  given_mem a ha := hm.approvedBy ▸ h.given_mem a ha
  approved a ha := h.approved a (hm.approvedBy ▸ ha)
  used k hk := (hm.used k hk).elim (h.used k) (hK k)

theorem Good.approve (h : Good sigs given getActive consulted s)
    (ha : Established sigs given getActive a) : Good sigs given getActive consulted (s.approve a) where
  provides := ⟨h.provides.keys, h.provides.available⟩
  given_mem b hb := List.mem_cons_of_mem _ (h.given_mem b hb)
  approved b hb := by
    rcases List.mem_cons.mp hb with rfl | hb
    · exact ha
    · exact h.approved b hb
  used := h.used

/-- A check of `x` that keeps the states right, never counts backwards, and accepts only what has
a derivation. -/
structure SoundCheck (sigs : List Key) (given : Account → Bool)
    (getActive : Account → Authority Key Account) (consulted : Authority Key Account → Prop)
    (x : Authority Key Account) (check : Walk Key Account → Bool × Walk Key Account) : Prop where
  good : ∀ w, Good sigs given getActive consulted w.state →
    Good sigs given getActive consulted (check w).2.state
  count : ∀ w, w.accountAuthCount ≤ (check w).2.accountAuthCount
  derives : ∀ w, Good sigs given getActive consulted w.state → (check w).1 = true →
    ∃ n, (graph sigs getActive).derives (fun _ ↦ true) given n x = true

variable [DecidableEq Account] {limits : Limits} {threshold : UInt32} {w : Walk Key Account}
  {p : Progress} {as : List (Account × UInt16)} {base : ℕ}
  {descend : Option (Account → Walk Key Account → Bool × Walk Key Account)}

variable (limits) in
theorem visitAccount_sound (h : Good sigs given getActive consulted w.state)
    (hdescend : ∀ check, descend = some check →
      SoundCheck sigs given getActive consulted (getActive a) (check a)) :
    Good sigs given getActive consulted (visitAccount limits descend a w).2.state ∧
      ((visitAccount limits descend a w).1 = .counts true → Established sigs given getActive a) := by
  unfold visitAccount
  split
  · next hmem => exact ⟨h, fun _ ↦ h.approved a hmem⟩
  · split
    · exact ⟨h, nofun⟩
    · next check =>
      have hsound := hdescend check rfl
      split
      · exact ⟨h, nofun⟩
      · have hgood := hsound.good ⟨w.state, w.accountAuthCount + 1⟩ h
        have hderives := hsound.derives ⟨w.state, w.accountAuthCount + 1⟩ h
        rcases hcheck : check a ⟨w.state, w.accountAuthCount + 1⟩ with ⟨approved, v⟩
        rw [hcheck] at hgood hderives
        cases approved with
        | false => exact ⟨hgood, nofun⟩
        | true => exact ⟨hgood.approve (.inr (hderives rfl)), fun _ ↦ .inr (hderives rfl)⟩

variable (limits) in
theorem visitAccount_count
    (hdescend : ∀ check, descend = some check →
      SoundCheck sigs given getActive consulted (getActive a) (check a)) :
    w.accountAuthCount ≤ (visitAccount limits descend a w).2.accountAuthCount := by
  unfold visitAccount
  split
  · exact le_rfl
  · split
    · exact le_rfl
    · next check =>
      split
      · exact le_rfl
      · have hcount := (hdescend check rfl).count ⟨w.state, w.accountAuthCount + 1⟩
        rcases hcheck : check a ⟨w.state, w.accountAuthCount + 1⟩ with ⟨approved, v⟩
        rw [hcheck] at hcount
        cases approved <;> exact (Nat.le_succ _).trans hcount

theorem checkAccounts_count
    (hdescend : ∀ check, descend = some check → ∀ e ∈ as,
      SoundCheck sigs given getActive consulted (getActive e.1) (check e.1)) :
    w.accountAuthCount ≤
      (checkAccounts limits threshold descend as p w).2.accountAuthCount := by
  induction as generalizing p w with
  | nil => exact le_rfl
  | cons entry as ih =>
    obtain ⟨a, weight⟩ := entry
    have hvisit := visitAccount_count (w := w) limits
      fun check hc ↦ hdescend check hc (a, weight) List.mem_cons_self
    have hrest (p : Progress) (w : Walk Key Account) := ih (p := p) (w := w)
      fun check hc e he ↦ hdescend check hc e (List.mem_cons_of_mem _ he)
    rw [checkAccounts]
    rcases hv : visitAccount limits descend a w with ⟨v, w'⟩
    rw [hv] at hvisit
    cases v with
    | skipped => exact hvisit.trans (hrest p w')
    | refused => exact hvisit
    | counts b =>
      dsimp only
      cases p.entry limits threshold b weight with
      | error b => exact hvisit
      | ok q => exact hvisit.trans (hrest q w')

theorem checkAccounts_sound (h : Good sigs given getActive consulted w.state)
    (hdescend : ∀ check, descend = some check → ∀ e ∈ as,
      SoundCheck sigs given getActive consulted (getActive e.1) (check e.1))
    (hbase : p.totalWeight.toNat ≤ base) :
    Good sigs given getActive consulted (checkAccounts limits threshold descend as p w).2.state ∧
      Bounded threshold (base + linked (established sigs given getActive) (weights as))
        (checkAccounts limits threshold descend as p w).1 := by
  induction as generalizing p w base with
  | nil => exact ⟨h, hbase⟩
  | cons entry as ih =>
    obtain ⟨a, weight⟩ := entry
    obtain ⟨hgood, hcounts⟩ := visitAccount_sound limits h
      fun check hc ↦ hdescend check hc (a, weight) List.mem_cons_self
    have hrest {p : Progress} {w : Walk Key Account} {base : ℕ}
        (hw : Good sigs given getActive consulted w.state) (hb : p.totalWeight.toNat ≤ base) :=
      ih hw (fun check hc e he ↦ hdescend check hc e (List.mem_cons_of_mem _ he)) hb
    rw [checkAccounts, weights, List.map_cons, linked_cons, ← Nat.add_assoc]
    rcases hv : visitAccount limits descend a w with ⟨v, w'⟩
    rw [hv] at hgood hcounts
    cases v with
    | skipped => exact hrest hgood (hbase.trans (Nat.le_add_right _ _))
    | refused => exact ⟨hgood, nofun⟩
    | counts b =>
      have hentry : Bounded threshold _ (p.entry limits threshold b weight) := bounded_entry hbase
      have hweight : (if b = true then weight.toNat else 0) ≤
          if established sigs given getActive a = true then weight.toNat else 0 := by
        cases b with
        | false => exact Nat.zero_le _
        | true => rw [if_pos rfl, if_pos (established_iff.mpr (hcounts rfl))]
      have hentry := hentry.mono (Nat.add_le_add_left hweight base)
      dsimp only
      cases he : p.entry limits threshold b weight with
      | error b =>
        rw [he] at hentry
        exact ⟨hgood, hentry.mono (Nat.le_add_right _ _)⟩
      | ok q =>
        rw [he] at hentry
        exact hrest hgood hentry

theorem checkOnce_cases (limits : Limits)
    (descend : Option (Account → Walk Key Account → Bool × Walk Key Account))
    (x : Authority Key Account) (w : Walk Key Account) :
    (∃ b s, checkKeys limits x.weightThreshold x.keyAuths {} w.state = (.error b, s) ∧
      checkOnce limits descend x w = (b, { w with state := s })) ∨
    ∃ p s, checkKeys limits x.weightThreshold x.keyAuths {} w.state = (.ok p, s) ∧
      checkOnce limits descend x w =
        (conclude x.weightThreshold (checkAccounts limits x.weightThreshold descend x.accountAuths p
          { w with state := s }).1,
          (checkAccounts limits x.weightThreshold descend x.accountAuths p
            { w with state := s }).2) := by
  rcases h : checkKeys limits x.weightThreshold x.keyAuths {} w.state with ⟨b | p, s⟩
  · exact .inl ⟨b, s, rfl, by rw [checkOnce, h]⟩
  · exact .inr ⟨p, s, rfl, by rw [checkOnce, h]⟩

theorem checkOnce_sound {x : Authority Key Account} (hx : consulted x)
    (hdescend : ∀ check, descend = some check → ∀ e ∈ x.accountAuths,
      SoundCheck sigs given getActive consulted (getActive e.1) (check e.1)) :
    SoundCheck sigs given getActive consulted x (checkOnce limits descend x) := by
  have hkeys (w : Walk Key Account) (h : Good sigs given getActive consulted w.state) :
      Good sigs given getActive consulted
        (checkKeys limits x.weightThreshold x.keyAuths {} w.state).2 :=
    h.marks (checkKeys_marks h.provides) fun k hk ↦ ⟨x, hx, hk⟩
  have hzero : ({} : Progress).totalWeight.toNat ≤ 0 := le_rfl
  refine ⟨fun w h ↦ ?_, fun w ↦ ?_, fun w h haccept ↦ ?_⟩
  · have hgood := hkeys w h
    obtain ⟨b, s, hk, hr⟩ | ⟨p, s, hk, hr⟩ := checkOnce_cases limits descend x w <;>
      rw [hk] at hgood <;> rw [hr]
    · exact hgood
    · exact (checkAccounts_sound (w := { w with state := s }) hgood hdescend le_rfl).1
  · obtain ⟨b, s, -, hr⟩ | ⟨p, s, -, hr⟩ := checkOnce_cases limits descend x w <;> rw [hr]
    exact checkAccounts_count (w := { w with state := s }) hdescend
  · have hgood := hkeys w h
    have hbounded : Bounded x.weightThreshold _
        (checkKeys limits x.weightThreshold x.keyAuths {} w.state).1 :=
      checkKeys_bounded h.provides hzero
    have hle : x.weightThreshold.toNat ≤
        linked (fun k ↦ decide (k ∈ sigs)) (weights x.keyAuths) +
          linked (established sigs given getActive) (weights x.accountAuths) := by
      obtain ⟨b, s, hk, hr⟩ | ⟨p, s, hk, hr⟩ := checkOnce_cases limits descend x w <;>
        rw [hr] at haccept <;> rw [hk, Nat.zero_add] at hbounded
      · exact (hbounded haccept).trans (Nat.le_add_right _ _)
      · rw [hk] at hgood
        exact (checkAccounts_sound (w := { w with state := s }) hgood hdescend hbounded).2.le haccept
    exact Graph.derives_of_linked (fun link _ hl ↦ established_iff.mp hl) hle

/-- `check_authority_impl` is sound at any depth. -/
theorem checkAuthorityImpl_sound
    (hclosed : ∀ x, consulted x → ∀ e ∈ x.accountAuths, consulted (getActive e.1)) (levels : ℕ)
    {x : Authority Key Account} (hx : consulted x) :
    SoundCheck sigs given getActive consulted x
      (checkAuthorityImpl limits getActive levels x) := by
  induction levels generalizing x with
  | zero => exact checkOnce_sound hx nofun
  | succ levels ih =>
    refine checkOnce_sound hx fun check hcheck e he ↦ ?_
    cases hcheck
    exact ih (hclosed x hx e he)

variable (limits) in
/-- While the counter stays below its limit no visit is refused. -/
theorem visitAccount_complete (h : Good sigs given getActive consulted w.state)
    (hdescend : ∀ check, descend = some check →
      SoundCheck sigs given getActive consulted (getActive a) (check a))
    (hcount : (visitAccount limits descend a w).2.accountAuthCount < limits.maxAccountAuths) :
    (visitAccount limits descend a w).1 ≠ .refused ∧
      (given a = true ∨ (∃ check, descend = some check ∧ ∀ w,
        Good sigs given getActive consulted w.state →
          (check a w).2.accountAuthCount < limits.maxAccountAuths → (check a w).1 = true) →
        (visitAccount limits descend a w).1 = .counts true) := by
  unfold visitAccount at hcount ⊢
  split at hcount
  · next hmem =>
    rw [if_pos hmem]
    exact ⟨nofun, fun _ ↦ rfl⟩
  · next hmem =>
    have hgiven : given a = false := Bool.eq_false_of_not_eq_true fun hg ↦ hmem (h.given_mem a hg)
    rw [if_neg hmem]
    simp only [hgiven, Bool.false_eq_true, false_or]
    cases descend with
    | none => exact ⟨nofun, fun ⟨_, hc, _⟩ ↦ nomatch hc⟩
    | some check =>
      dsimp only at hcount ⊢
      split at hcount
      · next hfull => exact absurd hcount (Nat.not_lt_of_le hfull.2)
      · next hfull =>
        rw [if_neg hfull]
        rcases hcheck : check a ⟨w.state, w.accountAuthCount + 1⟩ with ⟨approved, v⟩
        rw [hcheck] at hcount
        refine ⟨by cases approved <;> exact nofun, fun ⟨check', he, haccept⟩ ↦ ?_⟩
        cases he
        have hacc := haccept ⟨w.state, w.accountAuthCount + 1⟩ h
        rw [hcheck] at hacc
        cases approved with
        | true => rfl
        | false => exact absurd (hacc hcount) Bool.false_ne_true

/-- With room for every account the loop accepts, or adds up at least what `P` holds of. -/
theorem checkAccounts_of_room {P : Account → Bool}
    (h : Good sigs given getActive consulted w.state)
    (hdescend : ∀ check, descend = some check → ∀ e ∈ as,
      SoundCheck sigs given getActive consulted (getActive e.1) (check e.1))
    (hP : ∀ e ∈ as, P e.1 = true → given e.1 = true ∨ ∃ check, descend = some check ∧ ∀ w,
      Good sigs given getActive consulted w.state →
        (check e.1 w).2.accountAuthCount < limits.maxAccountAuths → (check e.1 w).1 = true)
    (hp : p.Exact) (hroom : p.membership + as.length < limits.maxMembership)
    (hcount : (checkAccounts limits threshold descend as p w).2.accountAuthCount <
      limits.maxAccountAuths) :
    (checkAccounts limits threshold descend as p w).1 = .error true ∨
      ∃ q : Progress, (checkAccounts limits threshold descend as p w).1 = .ok q ∧
        p.totalWeight.toNat + linked P (weights as) ≤ q.totalWeight.toNat := by
  induction as generalizing p w with
  | nil => exact .inr ⟨p, rfl, le_rfl⟩
  | cons entry as ih =>
    obtain ⟨a, weight⟩ := entry
    have hdescend₀ := fun check hc ↦ hdescend check hc (a, weight) List.mem_cons_self
    have hdescend' := fun check hc e he ↦ hdescend check hc e (List.mem_cons_of_mem _ he)
    have hrest {p : Progress} {w : Walk Key Account}
        (hw : Good sigs given getActive consulted w.state) :=
      ih (p := p) (w := w) hw hdescend' fun e he ↦ hP e (List.mem_cons_of_mem _ he)
    rw [List.length_cons] at hroom
    rw [weights, List.map_cons, linked_cons]
    obtain ⟨hgood, -⟩ := visitAccount_sound limits h hdescend₀
    have hvisit := visitAccount_complete limits h hdescend₀
    rw [checkAccounts] at hcount ⊢
    rcases hv : visitAccount limits descend a w with ⟨v, w'⟩
    rw [hv] at hcount hvisit hgood
    dsimp only at hcount hvisit hgood ⊢
    have hlt : w'.accountAuthCount < limits.maxAccountAuths := by
      refine lt_of_le_of_lt ?_ hcount
      cases v with
      | refused => exact le_rfl
      | skipped => exact checkAccounts_count hdescend'
      | counts b =>
        dsimp only
        cases p.entry limits threshold b weight with
        | error b => exact le_rfl
        | ok q => exact checkAccounts_count hdescend'
    obtain ⟨hrefused, haccept⟩ := hvisit hlt
    have hmust : P a = true → v = .counts true := fun ha ↦
      haccept (hP (a, weight) List.mem_cons_self ha)
    cases v with
    | refused => exact absurd rfl hrefused
    | skipped =>
      have ha : ¬P a = true := fun ha ↦ nomatch hmust ha
      rw [if_neg ha, Nat.zero_add]
      exact hrest hgood hp (by omega) hcount
    | counts b =>
      dsimp only at hcount ⊢
      have hweight : (if P a = true then weight.toNat else 0) ≤
          if b = true then weight.toNat else 0 := by
        by_cases ha : P a = true
        · cases hmust ha
          rw [if_pos ha, if_pos rfl]
        · rw [if_neg ha]
          exact Nat.zero_le _
      have hentry : p.entry limits threshold b weight = .error true ∨ _ :=
        entry_of_room hp (by omega)
      obtain he | ⟨q, he, hq, hm, hw⟩ := hentry
      · rw [he]
        exact .inl rfl
      · rw [he] at hcount ⊢
        refine (hrest hgood hq (by omega) hcount).imp_right ?_
        rintro ⟨q', hok, hle⟩
        exact ⟨q', hok, le_trans (by rw [hw, weights]; omega) hle⟩

/-- The authority has fewer entries than the limit. -/
def roomy (limits : Limits) (x : Authority Key Account) : Bool :=
  x.keyAuths.length + x.accountAuths.length < limits.maxMembership

theorem checkOnce_complete {x : Authority Key Account} {P : Account → Bool} (hx : consulted x)
    (h : Good sigs given getActive consulted w.state)
    (hdescend : ∀ check, descend = some check → ∀ e ∈ x.accountAuths,
      SoundCheck sigs given getActive consulted (getActive e.1) (check e.1))
    (hP : ∀ e ∈ x.accountAuths, P e.1 = true → given e.1 = true ∨
      ∃ check, descend = some check ∧ ∀ w, Good sigs given getActive consulted w.state →
        (check e.1 w).2.accountAuthCount < limits.maxAccountAuths → (check e.1 w).1 = true)
    (hroom : roomy limits x = true)
    (hle : x.weightThreshold.toNat ≤ linked (fun k ↦ decide (k ∈ sigs)) (weights x.keyAuths) +
      linked P (weights x.accountAuths))
    (hcount : (checkOnce limits descend x w).2.accountAuthCount < limits.maxAccountAuths) :
    (checkOnce limits descend x w).1 = true := by
  have hlen := of_decide_eq_true hroom
  have hmarks : Marks sigs _ w.state
      (checkKeys limits x.weightThreshold x.keyAuths {} w.state).2 := checkKeys_marks h.provides
  have hkeys : (checkKeys limits x.weightThreshold x.keyAuths {} w.state).1 = .error true ∨ _ :=
    checkKeys_of_room h.provides le_rfl (by simp only; omega)
  obtain ⟨b, s, hk, hr⟩ | ⟨p, s, hk, hr⟩ := checkOnce_cases limits descend x w <;>
    rw [hk] at hkeys hmarks <;> rw [hr] at hcount ⊢
  · obtain hk | ⟨q, hk, -⟩ := hkeys <;> cases hk
    rfl
  · obtain hk | ⟨q, hk, hexact, hmem, hsum⟩ := hkeys <;> cases hk
    have hgood := h.marks hmarks fun k hk ↦ ⟨x, hx, hk⟩
    have hroom' : p.membership + x.accountAuths.length < limits.maxMembership := by
      rw [hmem]
      simp only
      omega
    obtain he | ⟨q, he, hq⟩ := checkAccounts_of_room (w := { w with state := s }) hgood hdescend hP
      hexact hroom' hcount
    · rw [he]
      rfl
    · rw [he]
      have hzero : ({} : Progress).totalWeight.toNat = 0 := rfl
      rw [hsum, hzero, Nat.zero_add] at hq
      exact decide_eq_true (UInt32.le_iff_toNat_le.mpr (hle.trans hq))

/-- `check_authority_impl` finds a derivation that is not deeper than the levels left. -/
theorem checkAuthorityImpl_complete
    (hclosed : ∀ x, consulted x → ∀ e ∈ x.accountAuths, consulted (getActive e.1)) (levels : ℕ)
    {x : Authority Key Account} (hx : consulted x)
    (h : Good sigs given getActive consulted w.state)
    (hderives : (graph sigs getActive).derives (roomy limits) given levels x = true)
    (hcount : (checkAuthorityImpl limits getActive levels x w).2.accountAuthCount <
      limits.maxAccountAuths) :
    (checkAuthorityImpl limits getActive levels x w).1 = true := by
  induction levels generalizing x w with
  | zero =>
    obtain ⟨hroom, hle⟩ := Graph.derives_iff_zero.mp hderives
    exact checkOnce_complete hx h nofun (fun _ _ hg ↦ .inl hg) hroom hle hcount
  | succ levels ih =>
    obtain ⟨hroom, hle⟩ := Graph.derives_iff_succ.mp hderives
    refine checkOnce_complete hx h ?_ (fun e he hg ↦ ?_) hroom hle hcount
    · intro check hcheck e he
      cases hcheck
      exact checkAuthorityImpl_sound hclosed levels (hclosed x hx e he)
    · refine (Bool.or_eq_true_iff.mp hg).imp_right fun hd ↦ ⟨_, rfl, fun w hw hc ↦ ?_⟩
      exact ih (hclosed x hx e he) hw hd hc

end Accounts

end Taiyi.Signing
