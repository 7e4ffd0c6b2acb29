import Taiyi.Signing.Check
import Mathlib.Logic.Relation

set_option autoImplicit false

namespace Taiyi.Signing

open Library.Threshold

variable {Key Account : Type}

/-- `get_active`, `get_owner` and `get_posting`. -/
structure Getters (Key Account : Type) where
  active : Account → Authority Key Account
  owner : Account → Authority Key Account
  posting : Account → Authority Key Account

/-- What `get_required_auth_visitor` collects, each set in the order in which it is traversed. -/
structure Requirements (Key Account : Type) where
  active : List Account := []
  owner : List Account := []
  posting : List Account := []
  other : List (Authority Key Account) := []

structure Approvals (Account : Type) where
  active : List Account := []
  owner : List Account := []
  posting : List Account := []

inductive AuthorityError
  | assertion
  | missingPosting
  | missingOther
  | missingActive
  | missingOwner
  | irrelevantSignature
  deriving DecidableEq

def AuthorityError.isMissing : AuthorityError → Bool
  | .missingPosting | .missingOther | .missingActive | .missingOwner => true
  | .assertion | .irrelevantSignature => false

/-- The operands of the disjunctions that `verify_authority` asserts. -/
inductive Operand (Key Account : Type)
  | approval (b : Bool)
  | account (id : Account)
  | authority (x : Authority Key Account)

namespace Requirements

variable (req : Requirements Key Account) (get : Getters Key Account) (approvals : Approvals Account)

/-- `get_active` of the sign state. -/
def getter : Account → Authority Key Account :=
  if req.posting.isEmpty then get.active else get.posting

def approvedBefore : List Account :=
  if req.posting.isEmpty then approvals.active ++ approvals.owner else approvals.posting

variable [DecidableEq Account]

/-- The assertions in their order, each with the exception that it throws. -/
def assertions : List (AuthorityError × List (Operand Key Account)) :=
  if req.posting.isEmpty then
    (req.other.map fun x ↦ (.missingOther, [.authority x])) ++
    (req.active.map fun id ↦ (.missingActive, [.account id, .authority (get.owner id)])) ++
    req.owner.map fun id ↦
      (.missingOwner, [.approval (id ∈ approvals.owner), .authority (get.owner id)])
  else
    req.posting.map fun id ↦ (.missingPosting,
      [.account id, .authority (get.active id), .authority (get.owner id)])

end Requirements

/-- A sign state, and the number of accounts that the checks so far have counted in total. -/
structure Audit (Key Account : Type) where
  state : SignState Key Account
  visited : ℕ := 0

def Audit.after (t : Audit Key Account) (w : Walk Key Account) : Audit Key Account :=
  ⟨w.state, t.visited + w.accountAuthCount⟩

/-- The constructor of the sign state, whose `approved_by` has the account "temp". -/
def SignState.start (temp : Account) (sigs : List Key) (approvedBefore : List Account) :
    SignState Key Account where
  providedSignatures := sigs.map fun k ↦ (k, false)
  availableKeys := []
  approvedBy := temp :: approvedBefore

variable [DecidableEq Key] [DecidableEq Account]

def Operand.check (limits : Limits) (getActive : Account → Authority Key Account)
    (s : SignState Key Account) : Operand Key Account → Bool × Walk Key Account
  | .approval b => (b, ⟨s, 0⟩)
  | .account id => s.checkAccount limits getActive id
  | .authority x => s.checkAuthority limits getActive x

/-- A disjunction stops at the first operand that holds. -/
def checkAny (limits : Limits) (getActive : Account → Authority Key Account) :
    List (Operand Key Account) → Audit Key Account → Bool × Audit Key Account
  | [], t => (false, t)
  | o :: os, t =>
    match o.check limits getActive t.state with
    | (true, w) => (true, t.after w)
    | (false, w) => checkAny limits getActive os (t.after w)

def assertAll (limits : Limits) (getActive : Account → Authority Key Account) :
    List (AuthorityError × List (Operand Key Account)) → Audit Key Account →
      Except AuthorityError Unit × Audit Key Account
  | [], t => (.ok (), t)
  | (e, os) :: rest, t =>
    match checkAny limits getActive os t with
    | (true, t) => assertAll limits getActive rest t
    | (false, t) => (.error e, t)

/-- `verify_authority`, and the number of accounts that it visited. -/
def verifyAuthority (limits : Limits) (get : Getters Key Account) (temp : Account)
    (approvals : Approvals Account) (req : Requirements Key Account) (sigs : List Key) :
    Except AuthorityError Unit × ℕ :=
  if !req.posting.isEmpty && !(req.active.isEmpty && req.owner.isEmpty && req.other.isEmpty) then
    (.error .assertion, 0)
  else
    match assertAll limits (req.getter get) (req.assertions get approvals)
        ⟨.start temp sigs (req.approvedBefore approvals), 0⟩ with
    | (.error e, t) => (.error e, t.visited)
    | (.ok _, t) =>
      if t.state.removeUnusedSignatures.1 then (.error .irrelevantSignature, t.visited)
      else (.ok (), t.visited)

section Operands

variable {sigs : List Key} {given : Account → Bool} {getActive : Account → Authority Key Account}
  {consulted : Authority Key Account → Prop} {limits : Limits} {s : SignState Key Account}
  {t : Audit Key Account} {o : Operand Key Account} {os : List (Operand Key Account)}

/-- The authority that the check of an operand begins with. -/
def Operand.root (getActive : Account → Authority Key Account) :
    Operand Key Account → Option (Authority Key Account)
  | .approval _ => none
  | .account id => some (getActive id)
  | .authority x => some x

/-- An operand holds, by what `D` says of authorities. -/
def Operand.Holds (given : Account → Bool) (getActive : Account → Authority Key Account)
    (D : Authority Key Account → Prop) : Operand Key Account → Prop
  | .approval b => b = true
  | .account id => given id = true ∨ D (getActive id)
  | .authority x => D x

/-- There is a derivation of some depth. -/
def Derivable (sigs : List Key) (given : Account → Bool)
    (getActive : Account → Authority Key Account) (x : Authority Key Account) : Prop :=
  ∃ n, (graph sigs getActive).derives (fun _ ↦ true) given n x = true

variable (hclosed : ∀ x, consulted x → ∀ e ∈ x.accountAuths, consulted (getActive e.1))
include hclosed

variable (limits) in
theorem Operand.check_sound (h : Good sigs given getActive consulted s)
    (ho : ∀ x, o.root getActive = some x → consulted x) :
    Good sigs given getActive consulted (o.check limits getActive s).2.state ∧
      ((o.check limits getActive s).1 = true →
        o.Holds given getActive (Derivable sigs given getActive)) := by
  cases o with
  | approval b => exact ⟨h, id⟩
  | account id =>
    have hsound : SoundCheck sigs given getActive consulted _ (checkAuthorityImpl limits _ _ _) :=
      checkAuthorityImpl_sound hclosed limits.maxRecursion (ho _ rfl)
    rw [Operand.check, SignState.checkAccount]
    split
    · next hmem => exact ⟨h, fun _ ↦ h.approved id hmem⟩
    · exact ⟨hsound.good ⟨s, 1⟩ h, fun haccept ↦ .inr (hsound.derives ⟨s, 1⟩ h haccept)⟩
  | authority x =>
    have hsound : SoundCheck sigs given getActive consulted _ (checkAuthorityImpl limits _ _ _) :=
      checkAuthorityImpl_sound hclosed limits.maxRecursion (ho _ rfl)
    exact ⟨hsound.good ⟨s, 0⟩ h, hsound.derives ⟨s, 0⟩ h⟩

variable (limits) in
theorem Operand.check_complete (h : Good sigs given getActive consulted s)
    (ho : ∀ x, o.root getActive = some x → consulted x)
    (hholds : o.Holds given getActive fun x ↦
      (graph sigs getActive).derives (roomy limits) given limits.maxRecursion x = true)
    (hcount : (o.check limits getActive s).2.accountAuthCount < limits.maxAccountAuths) :
    (o.check limits getActive s).1 = true := by
  cases o with
  | approval b => exact hholds
  | account id =>
    rw [Operand.check, SignState.checkAccount] at hcount ⊢
    split at hcount
    · next hmem => rw [if_pos hmem]
    · next hmem =>
      rw [if_neg hmem]
      have hd := hholds.resolve_left fun hg ↦ hmem (h.given_mem id hg)
      exact checkAuthorityImpl_complete (w := ⟨s, 1⟩) hclosed _ (ho _ rfl) h hd hcount
  | authority x =>
    exact checkAuthorityImpl_complete (w := ⟨s, 0⟩) hclosed _ (ho _ rfl) h hholds hcount

variable (limits) in
theorem checkAny_sound (h : Good sigs given getActive consulted t.state)
    (hos : ∀ o ∈ os, ∀ x, o.root getActive = some x → consulted x) :
    Good sigs given getActive consulted (checkAny limits getActive os t).2.state ∧
      ((checkAny limits getActive os t).1 = true →
        ∃ o ∈ os, o.Holds given getActive (Derivable sigs given getActive)) := by
  induction os generalizing t with
  | nil => exact ⟨h, nofun⟩
  | cons o os ih =>
    obtain ⟨hgood, hholds⟩ := Operand.check_sound limits hclosed h (hos o List.mem_cons_self)
    rw [checkAny]
    rcases ho : o.check limits getActive t.state with ⟨accepted, w⟩
    rw [ho] at hgood hholds
    cases accepted with
    | true => exact ⟨hgood, fun _ ↦ ⟨o, List.mem_cons_self, hholds rfl⟩⟩
    | false =>
      have hrest := ih (t := t.after w) hgood fun o ho ↦ hos o (List.mem_cons_of_mem _ ho)
      refine ⟨hrest.1, fun haccept ↦ ?_⟩
      obtain ⟨o', hmem, ho'⟩ := hrest.2 haccept
      exact ⟨o', List.mem_cons_of_mem _ hmem, ho'⟩

omit hclosed in
theorem checkAny_visited : t.visited ≤ (checkAny limits getActive os t).2.visited := by
  induction os generalizing t with
  | nil => exact le_rfl
  | cons o os ih =>
    rw [checkAny]
    rcases o.check limits getActive t.state with ⟨accepted, w⟩
    have hafter : t.visited ≤ (t.after w).visited := Nat.le_add_right _ _
    cases accepted with
    | true => exact hafter
    | false => exact hafter.trans ih

variable (limits) in
theorem checkAny_complete (h : Good sigs given getActive consulted t.state)
    (hos : ∀ o ∈ os, ∀ x, o.root getActive = some x → consulted x)
    (hholds : ∃ o ∈ os, o.Holds given getActive fun x ↦
      (graph sigs getActive).derives (roomy limits) given limits.maxRecursion x = true)
    (hvisited : (checkAny limits getActive os t).2.visited < limits.maxAccountAuths) :
    (checkAny limits getActive os t).1 = true := by
  induction os generalizing t with
  | nil =>
    obtain ⟨o, hmem, -⟩ := hholds
    cases hmem
  | cons o os ih =>
    have hgood := (Operand.check_sound limits hclosed h (hos o List.mem_cons_self)).1
    have hcomplete := Operand.check_complete limits hclosed h (hos o List.mem_cons_self)
    rw [checkAny] at hvisited ⊢
    rcases ho : o.check limits getActive t.state with ⟨accepted, w⟩
    rw [ho] at hvisited hcomplete hgood
    cases accepted with
    | true => rfl
    | false =>
      have hlt := checkAny_visited.trans_lt hvisited
      obtain ⟨o', hmem, ho'⟩ := hholds
      rcases List.mem_cons.mp hmem with rfl | hmem
      · exact absurd (hcomplete ho' ((Nat.le_add_left _ _).trans_lt hlt)) Bool.false_ne_true
      · exact ih (t := t.after w) hgood (fun o ho ↦ hos o (List.mem_cons_of_mem _ ho))
          ⟨o', hmem, ho'⟩ hvisited

theorem assertAll_sound {as : List (AuthorityError × List (Operand Key Account))}
    (h : Good sigs given getActive consulted t.state)
    (has : ∀ a ∈ as, ∀ o ∈ a.2, ∀ x, o.root getActive = some x → consulted x)
    (hok : (assertAll limits getActive as t).1 = .ok ()) :
    Good sigs given getActive consulted (assertAll limits getActive as t).2.state ∧
      ∀ a ∈ as, ∃ o ∈ a.2, o.Holds given getActive (Derivable sigs given getActive) := by
  induction as generalizing t with
  | nil => exact ⟨h, nofun⟩
  | cons a as ih =>
    obtain ⟨e, os⟩ := a
    obtain ⟨hgood, hholds⟩ := checkAny_sound limits hclosed h (has _ List.mem_cons_self)
    rw [assertAll] at hok ⊢
    rcases hany : checkAny limits getActive os t with ⟨accepted, t'⟩
    rw [hany] at hok hgood hholds
    cases accepted with
    | false => cases hok
    | true =>
      obtain ⟨hlast, hrest⟩ := ih hgood (fun a ha ↦ has a (List.mem_cons_of_mem _ ha)) hok
      exact ⟨hlast, List.forall_mem_cons.mpr ⟨hholds rfl, hrest⟩⟩

theorem assertAll_complete {as : List (AuthorityError × List (Operand Key Account))}
    (h : Good sigs given getActive consulted t.state)
    (has : ∀ a ∈ as, ∀ o ∈ a.2, ∀ x, o.root getActive = some x → consulted x)
    (hholds : ∀ a ∈ as, ∃ o ∈ a.2, o.Holds given getActive fun x ↦
      (graph sigs getActive).derives (roomy limits) given limits.maxRecursion x = true)
    (hvisited : (assertAll limits getActive as t).2.visited < limits.maxAccountAuths) :
    (assertAll limits getActive as t).1 = .ok () := by
  induction as generalizing t with
  | nil => rfl
  | cons a as ih =>
    obtain ⟨e, os⟩ := a
    obtain ⟨hfirst, hholds⟩ := List.forall_mem_cons.mp hholds
    have hgood := (checkAny_sound limits hclosed h (has _ List.mem_cons_self)).1
    have hcomplete := checkAny_complete limits hclosed h (has _ List.mem_cons_self) hfirst
    rw [assertAll] at hvisited ⊢
    rcases hany : checkAny limits getActive os t with ⟨accepted, t'⟩
    rw [hany] at hvisited hcomplete hgood
    cases accepted with
    | false => exact absurd (hcomplete hvisited) Bool.false_ne_true
    | true =>
      exact ih hgood (fun a ha ↦ has a (List.mem_cons_of_mem _ ha)) hholds hvisited

end Operands

section Verify

variable {limits : Limits} {get : Getters Key Account} {temp : Account}
  {approvals : Approvals Account} {req : Requirements Key Account} {sigs : List Key}

namespace Requirements

/-- Every requirement is met, by what `E` says of accounts and `D` of authorities. -/
def Justified (req : Requirements Key Account) (get : Getters Key Account)
    (approvals : Approvals Account) (E : Account → Prop) (D : Authority Key Account → Prop) : Prop :=
  if req.posting = [] then
    (∀ x ∈ req.other, D x) ∧ (∀ id ∈ req.active, E id ∨ D (get.owner id)) ∧
      ∀ id ∈ req.owner, id ∈ approvals.owner ∨ D (get.owner id)
  else ∀ id ∈ req.posting, E id ∨ D (get.active id) ∨ D (get.owner id)

/-- The accounts approved before any check. -/
def given (req : Requirements Key Account) (temp : Account) (approvals : Approvals Account)
    (a : Account) : Bool :=
  a ∈ temp :: req.approvedBefore approvals

/-- Some check may consult `x`: it begins there, or comes there through account entries. -/
def Consulted (req : Requirements Key Account) (get : Getters Key Account)
    (approvals : Approvals Account) (x : Authority Key Account) : Prop :=
  ∃ a ∈ req.assertions get approvals, ∃ o ∈ a.2, ∃ root, o.root (req.getter get) = some root ∧
    Relation.ReflTransGen (fun y z ↦ ∃ e ∈ y.accountAuths, z = req.getter get e.1) root x

end Requirements

omit [DecidableEq Key] [DecidableEq Account] in
theorem Requirements.Justified.imp {E E' : Account → Prop} {D D' : Authority Key Account → Prop}
    (h : req.Justified get approvals E D) (hE : ∀ id, E id → E' id) (hD : ∀ x, D x → D' x) :
    req.Justified get approvals E' D' := by
  unfold Requirements.Justified at h ⊢
  split at h
  · next hposting =>
    rw [if_pos hposting]
    exact ⟨fun x hx ↦ hD x (h.1 x hx), fun id hid ↦ (h.2.1 id hid).imp (hE id) (hD _),
      fun id hid ↦ (h.2.2 id hid).imp_right (hD _)⟩
  · next hposting =>
    rw [if_neg hposting]
    exact fun id hid ↦ (h id hid).imp (hE id) (Or.imp (hD _) (hD _))

omit [DecidableEq Key] in
theorem justified_iff {D : Authority Key Account → Prop} {given : Account → Bool} :
    req.Justified get approvals (fun id ↦ given id = true ∨ D (req.getter get id)) D ↔
      ∀ a ∈ req.assertions get approvals, ∃ o ∈ a.2, o.Holds given (req.getter get) D := by
  unfold Requirements.Justified Requirements.assertions
  by_cases hposting : req.posting = []
  · simp [hposting, Operand.Holds, or_imp, forall_and]
  · simp [hposting, Operand.Holds]

omit [DecidableEq Account] in
/-- `consulted` may be any set that the check can start in. -/
theorem good_start {getActive : Account → Authority Key Account} {before : List Account}
    {consulted : Authority Key Account → Prop} {given : Account → Bool}
    (hgiven : ∀ a, given a = true ↔ a ∈ temp :: before) :
    Good sigs given getActive consulted (.start temp sigs before) where
  provides := ⟨fun k ↦ by simp [SignState.start], rfl⟩
  given_mem a ha := (hgiven a).mp ha
  approved a ha := .inl ((hgiven a).mpr ha)
  used k hk := by simp [SignState.start] at hk

/-- An accepted set of signatures justifies every requirement without circles and has no key that
no check could use. If every requirement has a derivation that is not too deep, through
authorities with few entries, and few accounts are visited, nothing is missing. -/
theorem verifyAuthority_correct (limits : Limits) (get : Getters Key Account) (temp : Account)
    (approvals : Approvals Account) (req : Requirements Key Account) (sigs : List Key) :
    ((verifyAuthority limits get temp approvals req sigs).1 = .ok () →
      req.Justified get approvals
        (fun id ↦ req.given temp approvals id = true ∨ (graph sigs (req.getter get)).Acyclic
          (req.given temp approvals) [id] (req.getter get id))
        ((graph sigs (req.getter get)).Acyclic (req.given temp approvals) []) ∧
      ∀ k ∈ sigs, ∃ x, req.Consulted get approvals x ∧ k ∈ x.keyAuths.map Prod.fst) ∧
    (req.Justified get approvals
        (fun id ↦ req.given temp approvals id = true ∨ (graph sigs (req.getter get)).derives
          (roomy limits) (req.given temp approvals) limits.maxRecursion (req.getter get id) = true)
        (fun x ↦ (graph sigs (req.getter get)).derives (roomy limits)
          (req.given temp approvals) limits.maxRecursion x = true) →
      (verifyAuthority limits get temp approvals req sigs).2 < limits.maxAccountAuths →
      ∀ e, (verifyAuthority limits get temp approvals req sigs).1 = .error e →
        e.isMissing = false) := by
  have hstart : Good sigs (req.given temp approvals) (req.getter get) (req.Consulted get approvals)
      (.start temp sigs (req.approvedBefore approvals)) :=
    good_start fun a ↦ decide_eq_true_iff
  have hroot : ∀ a ∈ req.assertions get approvals, ∀ o ∈ a.2, ∀ x,
      o.root (req.getter get) = some x → req.Consulted get approvals x :=
    fun a ha o ho x hx ↦ ⟨a, ha, o, ho, x, hx, .refl⟩
  have hclosed : ∀ x, req.Consulted get approvals x → ∀ e ∈ x.accountAuths,
      req.Consulted get approvals (req.getter get e.1) :=
    fun x ⟨a, ha, o, ho, root, hr, hreach⟩ e he ↦ ⟨a, ha, o, ho, root, hr, hreach.tail ⟨e, he, rfl⟩⟩
  unfold verifyAuthority
  split
  · exact ⟨nofun, fun _ _ e he ↦ by cases he; rfl⟩
  rcases hall : assertAll limits (req.getter get) (req.assertions get approvals)
    ⟨.start temp sigs (req.approvedBefore approvals), 0⟩ with ⟨e | _, t⟩
  · refine ⟨nofun, fun hjust hvisited ↦ ?_⟩
    have hok := assertAll_complete (t := ⟨.start temp sigs (req.approvedBefore approvals), 0⟩)
      hclosed hstart hroot (justified_iff.mp hjust) (by rw [hall]; exact hvisited)
    rw [hall] at hok
    cases hok
  · have hsound := assertAll_sound (t := ⟨.start temp sigs (req.approvedBefore approvals), 0⟩)
      hclosed hstart hroot (by rw [hall])
    rw [hall] at hsound
    obtain ⟨hgood, hholds⟩ := hsound
    dsimp only
    split
    · exact ⟨nofun, fun _ _ e he ↦ by cases he; rfl⟩
    · next hused =>
      refine ⟨fun _ ↦ ⟨(justified_iff.mpr hholds).imp (fun id hid ↦ hid.imp_right Graph.acyclic_self)
        fun x ↦ Graph.acyclic_nil, fun k hk ↦ ?_⟩, fun _ _ e he ↦ nomatch he⟩
      obtain ⟨⟨j, used⟩, hmem, hj⟩ := List.any_eq_true.mp ((hgood.provides.keys k).mpr hk)
      cases of_decide_eq_true hj
      cases used with
      | true => exact hgood.used _ hmem
      | false => exact absurd (List.any_eq_true.mpr ⟨_, hmem, rfl⟩) hused

/-- Accounts 1 and 2 name each other, and account 2 also a key. -/
def circular : Getters ℕ ℕ where
  active a :=
    if a = 1 then ⟨1, [(2, 1)], []⟩
    else if a = 2 then ⟨2, [(1, 1)], [(7, 2)]⟩ else ⟨1, [], []⟩
  owner _ := ⟨1, [], []⟩
  posting _ := ⟨1, [], []⟩

def needsOne : Requirements ℕ ℕ := { active := [1] }

theorem verifyAuthority_circular :
    (∀ k ∈ [7], ∃ x, needsOne.Consulted circular {} x ∧ k ∈ x.keyAuths.map Prod.fst) ∧
      ∀ e, (verifyAuthority .taiyi circular 0 {} needsOne [7]).1 = .error e →
        e.isMissing = false := by
  obtain ⟨hsound, hcomplete⟩ := verifyAuthority_correct .taiyi circular 0 {} needsOne [7]
  refine ⟨(hsound (by decide)).2, hcomplete ?_ (by decide)⟩
  have hposting : needsOne.posting = [] := rfl
  rw [Requirements.Justified, if_pos hposting]
  refine ⟨nofun, fun id hid ↦ ?_, nofun⟩
  cases List.mem_singleton.mp hid
  exact .inl (.inr (by decide))

end Verify

end Taiyi.Signing
