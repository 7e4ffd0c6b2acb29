import Taiyi.Library.Threshold

set_option autoImplicit false

namespace Taiyi.Signing

open Library.Threshold

variable {Key Account : Type}

/-- `authority`, with the entries in the order in which its maps are traversed. -/
structure Authority (Key Account : Type) where
  weightThreshold : UInt32
  accountAuths : List (Account × UInt16)
  keyAuths : List (Key × UInt16)
  deriving DecidableEq

/-- The parameters of `verify_authority`; 0 lifts one of the last two. Every caller passes 40 as
`max_membership`, and the weights of fewer than 2 ^ 16 entries have a 32-bit sum. -/
structure Limits where
  maxRecursion : ℕ
  maxMembership : ℕ
  maxAccountAuths : ℕ
  maxMembership_le : maxMembership ≤ 2 ^ 16

/-- `TAIYI_MAX_SIG_CHECK_DEPTH`, `TAIYI_MAX_AUTHORITY_MEMBERSHIP` and
`TAIYI_MAX_SIG_CHECK_ACCOUNTS`. -/
def Limits.taiyi : Limits := ⟨2, 40, 125, by decide⟩

structure SignState (Key Account : Type) where
  providedSignatures : List (Key × Bool)
  availableKeys : List Key
  approvedBy : List Account

/-- A sign state and the counter that one check passes down by its address. -/
structure Walk (Key Account : Type) where
  state : SignState Key Account
  accountAuthCount : ℕ

/-- `total_weight` and `membership`, the local variables of a check. -/
structure Progress where
  totalWeight : UInt32 := 0
  membership : ℕ := 0

def Progress.add (p : Progress) (weight : UInt16) : Progress :=
  { p with totalWeight := p.totalWeight + weight.toUInt32 }

/-- The end of the loop body, which returns from the check with `.error` of its result. -/
def Progress.next (limits : Limits) (p : Progress) : Except Bool Progress :=
  let p := { p with membership := p.membership + 1 }
  if 0 < limits.maxMembership ∧ limits.maxMembership ≤ p.membership then .error false else .ok p

/-- One entry, whose weight `counts` or not. -/
def Progress.entry (limits : Limits) (threshold : UInt32) (counts : Bool) (weight : UInt16)
    (p : Progress) : Except Bool Progress :=
  if counts then
    if threshold ≤ (p.add weight).totalWeight then .error true else (p.add weight).next limits
  else p.next limits

variable [DecidableEq Key] [DecidableEq Account]

namespace SignState

variable (s : SignState Key Account)

def signedBy (k : Key) : Bool × SignState Key Account :=
  if s.providedSignatures.any (·.1 = k) then
    (true, { s with
      providedSignatures := s.providedSignatures.map fun r ↦ if r.1 = k then (k, true) else r })
  else if k ∈ s.availableKeys then
    (true, { s with providedSignatures := (k, true) :: s.providedSignatures })
  else (false, s)

def approve (a : Account) : SignState Key Account := { s with approvedBy := a :: s.approvedBy }

def removeUnusedSignatures : Bool × SignState Key Account :=
  (s.providedSignatures.any (!·.2),
    { s with providedSignatures := s.providedSignatures.filter (·.2) })

end SignState

/-- The loop over the keys. -/
def checkKeys (limits : Limits) (threshold : UInt32) : List (Key × UInt16) → Progress →
    SignState Key Account → Except Bool Progress × SignState Key Account
  | [], p, s => (.ok p, s)
  | (k, weight) :: ks, p, s =>
    match p.entry limits threshold (s.signedBy k).1 weight with
    | .error b => (.error b, (s.signedBy k).2)
    | .ok p => checkKeys limits threshold ks p (s.signedBy k).2

/-- What an account of an authority comes to: its weight counts or not, it is passed over at the
greatest depth, or no more accounts may be visited. -/
inductive Visit
  | counts (b : Bool)
  | skipped
  | refused

/-- At the greatest depth there is no check to `descend` with. -/
def visitAccount (limits : Limits)
    (descend : Option (Account → Walk Key Account → Bool × Walk Key Account)) (a : Account)
    (w : Walk Key Account) : Visit × Walk Key Account :=
  if a ∈ w.state.approvedBy then (.counts true, w)
  else
    match descend with
    | none => (.skipped, w)
    | some check =>
      if 0 < limits.maxAccountAuths ∧ limits.maxAccountAuths ≤ w.accountAuthCount then (.refused, w)
      else
        match check a { w with accountAuthCount := w.accountAuthCount + 1 } with
        | (true, w) => (.counts true, { w with state := w.state.approve a })
        | (false, w) => (.counts false, w)

/-- The loop over the accounts. -/
def checkAccounts (limits : Limits) (threshold : UInt32)
    (descend : Option (Account → Walk Key Account → Bool × Walk Key Account)) :
    List (Account × UInt16) → Progress → Walk Key Account →
      Except Bool Progress × Walk Key Account
  | [], p, w => (.ok p, w)
  | (a, weight) :: as, p, w =>
    match visitAccount limits descend a w with
    | (.skipped, w) => checkAccounts limits threshold descend as p w
    | (.refused, w) => (.error false, w)
    | (.counts b, w) =>
      match p.entry limits threshold b weight with
      | .error b => (.error b, w)
      | .ok p => checkAccounts limits threshold descend as p w

/-- The result of a check whose loops are over. -/
def conclude (threshold : UInt32) : Except Bool Progress → Bool
  | .error b => b
  | .ok p => threshold ≤ p.totalWeight

/-- One call of `check_authority_impl`. -/
def checkOnce (limits : Limits)
    (descend : Option (Account → Walk Key Account → Bool × Walk Key Account))
    (auth : Authority Key Account) (w : Walk Key Account) : Bool × Walk Key Account :=
  match checkKeys limits auth.weightThreshold auth.keyAuths {} w.state with
  | (.error b, s) => (b, { w with state := s })
  | (.ok p, s) =>
    let r := checkAccounts limits auth.weightThreshold descend auth.accountAuths p
      { w with state := s }
    (conclude auth.weightThreshold r.1, r.2)

/-- `check_authority_impl`, by the number of levels that `max_recursion` leaves below `depth`. -/
def checkAuthorityImpl (limits : Limits) (getActive : Account → Authority Key Account) :
    ℕ → Authority Key Account → Walk Key Account → Bool × Walk Key Account
  | 0 => checkOnce limits none
  | levels + 1 =>
    checkOnce limits (some fun a ↦ checkAuthorityImpl limits getActive levels (getActive a))

/-- `check_authority` of an authority. -/
def SignState.checkAuthority (limits : Limits) (getActive : Account → Authority Key Account)
    (auth : Authority Key Account) (s : SignState Key Account) : Bool × Walk Key Account :=
  checkAuthorityImpl limits getActive limits.maxRecursion auth ⟨s, 0⟩

/-- `check_authority` of an account. -/
def SignState.checkAccount (limits : Limits) (getActive : Account → Authority Key Account)
    (id : Account) (s : SignState Key Account) : Bool × Walk Key Account :=
  if id ∈ s.approvedBy then (true, ⟨s, 0⟩)
  else checkAuthorityImpl limits getActive limits.maxRecursion (getActive id) ⟨s, 1⟩

end Taiyi.Signing
