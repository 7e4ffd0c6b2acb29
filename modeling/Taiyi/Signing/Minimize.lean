import Mathlib.Data.List.Dedup
import Mathlib.Data.List.Sort
import Taiyi.Signing.Uncut

set_option autoImplicit false

namespace Taiyi.Signing

variable {Key Account : Type}

/-- The checks by which `get_required_signatures` finds the keys, in their order. -/
def Requirements.wanted (req : Requirements Key Account) (get : Getters Key Account) :
    List (Operand Key Account) :=
  if req.posting.isEmpty then
    req.other.map .authority ++ (req.owner.map fun id ↦ .authority (get.owner id)) ++ req.active.map .account
  else req.posting.map .account

variable [LinearOrder Key] [DecidableEq Account]

/-- A set of keys, in its order. -/
def keySet (ks : List Key) : List Key := ks.dedup.insertionSort (· ≤ ·)

def SignState.checkAll (limits : Limits) (getActive : Account → Authority Key Account)
    (os : List (Operand Key Account)) (s : SignState Key Account) : SignState Key Account :=
  os.foldl (fun s o ↦ (o.check limits getActive s).2.state) s

/-- `get_required_signatures` of a transaction that the keys `signatureKeys` have signed. -/
def getRequiredSignatures (limits : Limits) (get : Getters Key Account) (temp : Account)
    (req : Requirements Key Account) (signatureKeys availableKeys : List Key) : Except AuthorityError (List Key) :=
  if !req.posting.isEmpty && !(req.owner.isEmpty && req.active.isEmpty) then .error .assertion
  else
    let s : SignState Key Account := { SignState.start temp signatureKeys [] with availableKeys := availableKeys }
    let s := (s.checkAll limits (req.getter get) (req.wanted get)).removeUnusedSignatures.2
    .ok (keySet ((s.providedSignatures.map Prod.fst).filter (· ∈ availableKeys)))

/-- The loop of `minimize_required_signatures`; of the exceptions only the missing authorities are
caught. -/
def minimizeLoop (verify : List Key → Except AuthorityError Unit) : List Key → List Key →
    Except AuthorityError (List Key)
  | [], result => .ok result
  | k :: ks, result =>
    match verify (result.erase k) with
    | .ok _ => minimizeLoop verify ks (result.erase k)
    | .error e =>
      if e.isMissing then minimizeLoop verify ks ((result.erase k).orderedInsert (· ≤ ·) k) else .error e

def verifies (limits : Limits) (get : Getters Key Account) (temp : Account) (req : Requirements Key Account)
    (sigs : List Key) : Except AuthorityError Unit :=
  (verifyAuthority limits get temp {} req sigs).1

def minimizeRequiredSignatures (limits : Limits) (get : Getters Key Account) (temp : Account)
    (req : Requirements Key Account) (signatureKeys availableKeys : List Key) : Except AuthorityError (List Key) :=
  match getRequiredSignatures limits get temp req signatureKeys availableKeys with
  | .error e => .error e
  | .ok s => minimizeLoop (verifies limits get temp req) s s

theorem keySet_sorted (ks : List Key) : (keySet ks).Pairwise (· < ·) := by
  have hle : (keySet ks).Pairwise (· ≤ ·) := List.pairwise_insertionSort _ _
  have hnodup : (keySet ks).Nodup := (List.perm_insertionSort _ _).nodup_iff.mpr (List.nodup_dedup ks)
  exact (hle.and hnodup).imp fun h ↦ lt_of_le_of_ne h.1 h.2

section Loop

variable {verify : List Key → Except AuthorityError Unit} {kept ks r s : List Key} {k : Key}

/-- At its turn a key is taken out between the kept ones and the ones still to come. -/
theorem erase_turn (h : (kept ++ k :: ks).Pairwise (· < ·)) : (kept ++ k :: ks).erase k = kept ++ ks ∧
    (kept ++ ks).orderedInsert (· ≤ ·) k = kept ++ k :: ks ∧
    (∀ j ∈ kept, j < k) ∧ ∀ j ∈ ks, k < j := by
  obtain ⟨-, htail, hcross⟩ := List.pairwise_append.mp h
  have hbefore : ∀ j ∈ kept, j < k := fun j hj ↦ hcross j hj k List.mem_cons_self
  have hafter : ∀ j ∈ ks, k < j := (List.pairwise_cons.mp htail).1
  refine ⟨?_, ?_, hbefore, hafter⟩
  · rw [List.erase_append_right _ fun hk ↦ lt_irrefl k (hbefore k hk), List.erase_cons_head]
  · clear h htail hcross
    induction kept with
    | nil =>
      cases ks with
      | nil => rfl
      | cons j ks => exact List.orderedInsert_cons_of_le _ _ (hafter j List.mem_cons_self).le
    | cons j kept ih =>
      obtain ⟨hj, hkept⟩ := List.forall_mem_cons.mp hbefore
      rw [List.cons_append, List.orderedInsert_cons, if_neg (not_le.mpr hj), ih hkept, List.cons_append]

/-- Without the key something is missing, among the kept keys before it and all the keys after it. -/
def NeededAtTurn (verify : List Key → Except AuthorityError Unit) (r s : List Key) (k : Key) : Prop :=
  ∃ e, e.isMissing = true ∧ verify (r.filter (· < k) ++ s.filter (k < ·)) = .error e

theorem NeededAtTurn.cons (h : NeededAtTurn verify r ks k) {j : Key} (hj : j < k) :
    NeededAtTurn verify r (j :: ks) k := by
  obtain ⟨e, he, herror⟩ := h
  refine ⟨e, he, ?_⟩
  rw [List.filter_cons_of_neg (by simpa using hj.le)]
  exact herror

/-- What the loop returns, from the kept keys on. -/
theorem minimizeLoop_spec (kept : List Key) (hs : (kept ++ ks).Pairwise (· < ·)) (hok : verify (kept ++ ks) = .ok ())
    (h : minimizeLoop verify ks (kept ++ ks) = .ok r) : ∃ rest, r = kept ++ rest ∧ rest.Sublist ks ∧
      verify r = .ok () ∧ ∀ k ∈ rest, NeededAtTurn verify r ks k := by
  induction ks generalizing kept with
  | nil =>
    cases h
    exact ⟨[], rfl, .slnil, hok, nofun⟩
  | cons k ks ih =>
    obtain ⟨herase, hinsert, hbefore, hafter⟩ := erase_turn hs
    have hsub : (kept ++ ks).Pairwise (· < ·) := hs.sublist ((List.sublist_cons_self k ks).append_left kept)
    rw [minimizeLoop, herase] at h
    cases hverify : verify (kept ++ ks) with
    | ok _ =>
      rw [hverify] at h
      obtain ⟨rest, hr, hrest, hrok, hneeded⟩ := ih kept hsub hverify h
      refine ⟨rest, hr, hrest.cons k, hrok, fun j hj ↦ (hneeded j hj).cons (hafter j (hrest.mem hj))⟩
    | error e =>
      rw [hverify] at h
      dsimp only at h
      split at h
      · next hmissing =>
        -- the key is put back and is one of the kept ones from now on
        have hmove : kept ++ k :: ks = (kept ++ [k]) ++ ks := by simp
        rw [hinsert, hmove] at h
        rw [hmove] at hs hok
        obtain ⟨rest, hr, hrest, hrok, hneeded⟩ := ih (kept ++ [k]) hs hok h
        refine ⟨k :: rest, by rw [hr]; simp, hrest.cons_cons k, hrok, fun j hj ↦ ?_⟩
        rcases List.mem_cons.mp hj with rfl | hj
        · refine ⟨e, hmissing, ?_⟩
          have hlower : r.filter (· < j) = kept := by
            rw [hr, List.filter_append, List.filter_append,
              List.filter_eq_self.mpr fun i hi ↦ decide_eq_true (hbefore i hi),
              List.filter_eq_nil_iff.mpr fun i hi ↦ by simp [List.mem_singleton.mp hi],
              List.filter_eq_nil_iff.mpr fun i hi ↦ by simpa using (hafter i (hrest.mem hi)).le]
            simp
          have hupper : (j :: ks).filter (j < ·) = ks := by
            rw [List.filter_cons_of_neg (by simp), List.filter_eq_self.mpr fun i hi ↦ decide_eq_true (hafter i hi)]
          rw [hlower, hupper]
          exact hverify
        · exact (hneeded j hj).cons (hafter j (hrest.mem hj))
      · cases h

/-- The loop ends where a part of an accepted set is accepted or has something missing. -/
theorem minimizeLoop_returns (kept : List Key) (hs : (kept ++ ks).Pairwise (· < ·)) (hok : verify (kept ++ ks) = .ok ())
    (hdown : ∀ T U, T ⊆ U → verify U = .ok () → verify T = .ok () ∨ ∃ e, e.isMissing = true ∧ verify T = .error e) :
    ∃ r, minimizeLoop verify ks (kept ++ ks) = .ok r := by
  induction ks generalizing kept with
  | nil => exact ⟨_, rfl⟩
  | cons k ks ih =>
    obtain ⟨herase, hinsert, -, -⟩ := erase_turn hs
    have hsub : (kept ++ ks).Sublist (kept ++ k :: ks) := (List.sublist_cons_self k ks).append_left kept
    rw [minimizeLoop, herase]
    rcases hdown _ _ hsub.subset hok with hverify | ⟨e, hmissing, hverify⟩
    · rw [hverify]
      exact ih kept (hs.sublist hsub) hverify
    · rw [hverify]
      dsimp only
      have hmove : kept ++ k :: ks = (kept ++ [k]) ++ ks := by simp
      rw [if_pos hmissing, hinsert, hmove]
      rw [hmove] at hs hok
      exact ih (kept ++ [k]) hs hok

end Loop

section Minimize

variable {limits : Limits} {get : Getters Key Account} {temp : Account} {req : Requirements Key Account}
  {signatureKeys availableKeys r s : List Key}

theorem getRequiredSignatures_sorted
    (hs : getRequiredSignatures limits get temp req signatureKeys availableKeys = .ok s) : s.Pairwise (· < ·) := by
  unfold getRequiredSignatures at hs
  split at hs
  · cases hs
  · cases hs
    exact keySet_sorted _

/-- The set returned is accepted and a part of the required set, and each of its keys was needed at its
turn. Where no check is cut off a set is returned, and no key can be taken out of it. -/
theorem minimizeRequiredSignatures_correct
    (hs : getRequiredSignatures limits get temp req signatureKeys availableKeys = .ok s)
    (hok : verifies limits get temp req s = .ok ()) :
    (∀ r, minimizeRequiredSignatures limits get temp req signatureKeys availableKeys = .ok r →
      verifies limits get temp req r = .ok () ∧ r.Sublist s ∧
        ∀ k ∈ r, NeededAtTurn (verifies limits get temp req) r s k) ∧
    (0 < limits.maxMembership → req.Uncut limits get temp {} →
      ∃ r, minimizeRequiredSignatures limits get temp req signatureKeys availableKeys = .ok r ∧
        ∀ k ∈ r, verifies limits get temp req (r.erase k) ≠ .ok ()) := by
  have hsorted := getRequiredSignatures_sorted hs
  have hloop : minimizeRequiredSignatures limits get temp req signatureKeys availableKeys =
      minimizeLoop (verifies limits get temp req) s s := by
    rw [minimizeRequiredSignatures, hs]
  have hspec : ∀ r, minimizeRequiredSignatures limits get temp req signatureKeys availableKeys = .ok r →
      verifies limits get temp req r = .ok () ∧ r.Sublist s ∧
        ∀ k ∈ r, NeededAtTurn (verifies limits get temp req) r s k := by
    intro r hr
    rw [hloop] at hr
    obtain ⟨rest, rfl, hrest, hrok, hneeded⟩ := minimizeLoop_spec [] hsorted hok hr
    exact ⟨hrok, hrest, hneeded⟩
  refine ⟨hspec, fun hpos huncut ↦ ?_⟩
  have hreturns : ∃ r, minimizeLoop (verifies limits get temp req) s s = .ok r :=
    minimizeLoop_returns [] hsorted hok fun T U hsub hU ↦ verifyAuthority_down huncut hpos hsub hU
  obtain ⟨r, hr⟩ := hreturns
  rw [← hloop] at hr
  obtain ⟨-, hsub, hneeded⟩ := hspec r hr
  refine ⟨r, hr, fun k hk hok' ↦ ?_⟩
  obtain ⟨e, hmissing, herror⟩ := hneeded k hk
  -- what is left lies among the keys without which something was missing
  refine verifyAuthority_up huncut hpos (fun j hj ↦ ?_) hok' hmissing herror
  obtain ⟨hne, hj⟩ := (List.Nodup.mem_erase_iff ((hsorted.sublist hsub).imp ne_of_lt)).mp hj
  rcases lt_or_gt_of_ne hne with hlt | hgt
  · exact List.mem_append_left _ (List.mem_filter.mpr ⟨hj, decide_eq_true hlt⟩)
  · exact List.mem_append_right _ (List.mem_filter.mpr ⟨hsub.mem hj, decide_eq_true hgt⟩)

/-- One key of the account is enough, and the other is consulted first. -/
def twoKeys : Getters ℕ ℕ where
  active a := if a = 1 then ⟨2, [], [(7, 1), (8, 2)]⟩ else ⟨1, [], []⟩
  owner _ := ⟨1, [], []⟩
  posting _ := ⟨1, [], []⟩

theorem minimizeRequiredSignatures_twoKeys :
    getRequiredSignatures .taiyi twoKeys 0 { active := [1] } [] [7, 8] = .ok [7, 8] ∧
      verifies .taiyi twoKeys 0 { active := [1] } [7, 8] = .ok () ∧
      ∃ r, minimizeRequiredSignatures .taiyi twoKeys 0 { active := [1] } [] [7, 8] = .ok r ∧
        ∀ k ∈ r, verifies .taiyi twoKeys 0 { active := [1] } (r.erase k) ≠ .ok () := by
  have hs : getRequiredSignatures .taiyi twoKeys 0 { active := [1] } [] [7, 8] = .ok [7, 8] := rfl
  have hok : verifies .taiyi twoKeys 0 { active := [1] } [7, 8] = .ok () := rfl
  refine ⟨hs, hok, (minimizeRequiredSignatures_correct hs hok).2 (by decide) ?_⟩
  simp [Requirements.Uncut, Requirements.assertions, Operand.Uncut, Shallow, Room, visits, twoKeys,
    Requirements.getter, Limits.taiyi]

/-- Account 1 accepts key 3 or account 4, account 2 key 1 or account 5, which leads through account 6
to account 4 again; account 3 accepts key 2, as account 4 does. -/
def remembered : Getters ℕ ℕ where
  active a :=
    if a = 1 then ⟨1, [(4, 1)], [(3, 1)]⟩
    else if a = 2 then ⟨1, [(5, 1)], [(1, 1)]⟩
    else if a = 3 then ⟨1, [], [(2, 1)]⟩
    else if a = 4 then ⟨1, [], [(2, 1)]⟩
    else if a = 5 then ⟨1, [(6, 1)], []⟩
    else if a = 6 then ⟨1, [(4, 1)], []⟩ else ⟨1, [], []⟩
  owner _ := ⟨1, [], []⟩
  posting _ := ⟨1, [], []⟩

/-- Once key 3 is gone account 4 is approved early, and then key 1 is not needed either. -/
theorem minimizeRequiredSignatures_redundant :
    getRequiredSignatures .taiyi remembered 0 { active := [1, 2, 3] } [] [1, 2, 3] = .ok [1, 2, 3] ∧
      verifies .taiyi remembered 0 { active := [1, 2, 3] } [1, 2, 3] = .ok () ∧
      minimizeRequiredSignatures .taiyi remembered 0 { active := [1, 2, 3] } [] [1, 2, 3] = .ok [1, 2] ∧
      verifies .taiyi remembered 0 { active := [1, 2, 3] } ([1, 2].erase 1) = .ok () := by
  refine ⟨rfl, rfl, rfl, rfl⟩

end Minimize

end Taiyi.Signing
