import Taiyi.Library.Attempt
import Taiyi.Library.Timeline
import Taiyi.Recovery.Evaluators

set_option autoImplicit false

namespace Taiyi.Recovery

open Library.Attempt Library.RowList Library.SparseRows Library.Timeline Signing

variable {Key : Type}

def State.owner (s : State Key) (a : Name) : Option (Authority Key Name) :=
  (find AccountAuthority.account s.authorities a).map AccountAuthority.owner

/-- What operations leave alone. -/
structure Frame (s t : State Key) : Prop where
  headBlockNum : t.headBlockNum = s.headBlockNum
  headBlockTime : t.headBlockTime = s.headBlockTime
  unique : Unique AccountAuthority.account s.authorities → Unique AccountAuthority.account t.authorities

/-- An account has an owner authority as before, and the history is what it was. -/
def KeepsOwners (s t : State Key) : Prop :=
  t.history = s.history ∧ ∀ a x, s.owner a = some x → t.owner a = some x

/-- The owner authority of an account is replaced, and kept in the history if blocks are tracked. -/
def ReplacesOwner (s t : State Key) (a : Name) : Prop :=
  ∃ old, s.owner a = some old ∧
    t.history = (if 1 ≤ s.headBlockNum then s.history ++ [⟨a, old, s.headBlockTime⟩] else s.history) ∧
    ∀ a' x, a' ≠ a → s.owner a' = some x → t.owner a' = some x

section Reading

variable {s : State Key} {name : Name}

theorem require_ok {c : Prop} [Decidable c] {msg : String} {u : Unit} : require c msg = .ok u ↔ c := by
  unfold require
  split
  · next hc => exact iff_of_true rfl hc
  · next hc => exact iff_of_false nofun hc

theorem getAccount_ok {a : AccountObject} :
    s.getAccount name = .ok a ↔ find AccountObject.name s.accounts name = some a := by
  unfold State.getAccount
  split
  · next h => rw [h, Except.ok.injEq, Option.some.injEq]
  · next h => simp [h]

theorem getAuthority_ok {a : AccountAuthority Key} :
    s.getAuthority name = .ok a ↔ find AccountAuthority.account s.authorities name = some a := by
  unfold State.getAuthority
  split
  · next h => rw [h, Except.ok.injEq, Option.some.injEq]
  · next h => simp [h]

end Reading

section Owners

variable {s t u : State Key} {a : Name} {auth : AccountAuthority Key}
  {f : AccountAuthority Key → AccountAuthority Key}

theorem owner_of_find (h : find AccountAuthority.account s.authorities a = some auth) :
    s.owner a = some auth.owner := by
  rw [State.owner, h, Option.map_some]

theorem owner_update (hu : Unique AccountAuthority.account s.authorities)
    (h : find AccountAuthority.account s.authorities a = some auth)
    (hkey : (f auth).account = auth.account) (a' : Name) :
    State.owner { s with authorities := update AccountAuthority.account s.authorities a f } a' =
      if a = a' then some (f auth).owner else s.owner a' := by
  rw [State.owner, find_update hu h hkey]
  split <;> rfl

theorem ReplacesOwner.keeps (h : ReplacesOwner s t a) (h' : KeepsOwners t u) : ReplacesOwner s u a := by
  obtain ⟨old, hold, hhist, hother⟩ := h
  exact ⟨old, hold, h'.1.trans hhist, fun a' x hne hx ↦ h'.2 a' x (hother a' x hne hx)⟩

theorem Frame.trans (h : Frame s t) (h' : Frame t u) : Frame s u :=
  ⟨h'.headBlockNum.trans h.headBlockNum, h'.headBlockTime.trans h.headBlockTime,
    fun hu ↦ h'.unique (h.unique hu)⟩

/-- The authorities of an account are changed but for the owner. -/
theorem keepsOwners_update (hu : Unique AccountAuthority.account s.authorities)
    (h : find AccountAuthority.account s.authorities a = some auth)
    (hkey : ∀ auth, (f auth).account = auth.account) (howner : ∀ auth, (f auth).owner = auth.owner) :
    Frame s { s with authorities := update AccountAuthority.account s.authorities a f } ∧
      KeepsOwners s { s with authorities := update AccountAuthority.account s.authorities a f } := by
  refine ⟨⟨rfl, rfl, fun hu ↦ hu.update h (hkey auth)⟩, rfl, fun a' x hx ↦ ?_⟩
  rw [owner_update hu h (hkey auth)]
  split
  · next heq => rw [howner, ← hx, ← heq, owner_of_find h]
  · exact hx

theorem updateOwnerAuthority_ok {x : Authority Key Name}
    (hu : Unique AccountAuthority.account s.authorities) (h : s.updateOwnerAuthority a x = .ok t) :
    Frame s t ∧ ReplacesOwner s t a ∧ t.requests = s.requests ∧ t.accounts = s.accounts := by
  obtain ⟨auth, hauth, h⟩ := bind_eq_ok.mp h
  have hf := getAuthority_ok.mp hauth
  cases h
  have hupd := owner_update (f := fun auth ↦ { auth with owner := x, lastOwnerUpdate := s.headBlockTime })
    hu hf rfl
  have hother : ∀ a' y, a' ≠ a → s.owner a' = some y → State.owner { s with
      authorities := update AccountAuthority.account s.authorities a fun auth ↦
        { auth with owner := x, lastOwnerUpdate := s.headBlockTime } } a' = some y :=
    fun a' y hne hy ↦ (hupd a').trans ((if_neg fun h ↦ hne h.symm).trans hy)
  unfold taiyiOwnerAuthHistoryTrackingStartBlockNum
  split
  · next htracked =>
    exact ⟨⟨rfl, rfl, fun hu ↦ hu.update hf rfl⟩,
      ⟨auth.owner, owner_of_find hf, (if_pos htracked).symm, hother⟩, rfl, rfl⟩
  · next htracked =>
    exact ⟨⟨rfl, rfl, fun hu ↦ hu.update hf rfl⟩,
      ⟨auth.owner, owner_of_find hf, (if_neg htracked).symm, hother⟩, rfl, rfl⟩

/-- The account still has its authorities after its owner authority is replaced. -/
theorem exists_authority {x : Authority Key Name} (h : s.updateOwnerAuthority a x = .ok t)
    (hu : Unique AccountAuthority.account s.authorities)
    (hf : find AccountAuthority.account s.authorities a = some auth) :
    ∃ auth', find AccountAuthority.account t.authorities a = some auth' := by
  obtain ⟨_, -, h⟩ := bind_eq_ok.mp h
  cases h
  refine ⟨{ auth with owner := x, lastOwnerUpdate := s.headBlockTime }, ?_⟩
  have hupd := find_update (f := fun auth ↦ { auth with owner := x, lastOwnerUpdate := s.headBlockTime })
    hu hf rfl a
  rw [if_pos rfl] at hupd
  split <;> exact hupd

end Owners

/-- A request is one that the operation makes: by the account's recovery agent, for a day. -/
def Requests (s : State Key) (e : Event Key) (r : AccountRecoveryRequest Key) : Prop :=
  ∃ o, e = .requestAccountRecovery o ∧ o.accountToRecover = r.accountToRecover ∧
    o.newOwnerAuthority = r.newOwnerAuthority ∧
    r.expires = s.headBlockTime + taiyiAccountRecoveryRequestExpirationPeriod ∧
    ∃ a, find AccountObject.name s.accounts o.accountToRecover = some a ∧
      o.recoveryAccount = s.recoveryAgent a

/-- The requests after an operation, in their order. -/
structure RequestsFrom (s : State Key) (e : Event Key) (t : State Key) : Prop where
  origin : ∀ r ∈ t.requests, r ∈ s.requests ∨ Requests s e r
  sorted : s.requests.Pairwise (fun r r' ↦ r.expires ≤ r'.expires) →
    t.requests.Pairwise fun r r' ↦ r.expires ≤ r'.expires

/-- What an operation does to the owner authorities and the history. -/
def Operates (s t : State Key) : Prop :=
  Frame s t ∧ (KeepsOwners s t ∨ ∃ a, ReplacesOwner s t a)

section Operations

variable {s t : State Key} {e : Event Key}

theorem operates_same (hnum : t.headBlockNum = s.headBlockNum) (htime : t.headBlockTime = s.headBlockTime)
    (hauth : t.authorities = s.authorities) (hhist : t.history = s.history) : Operates s t := by
  refine ⟨⟨hnum, htime, fun hu ↦ hauth ▸ hu⟩, .inl ⟨hhist, fun a x hx ↦ ?_⟩⟩
  rw [State.owner, hauth]
  exact hx

theorem requestsFrom_same (h : t.requests = s.requests) : RequestsFrom s e t :=
  ⟨fun _ hr ↦ .inl (h ▸ hr), fun hs ↦ h ▸ hs⟩

theorem requestsFrom_remove {a : Name}
    (h : t.requests = remove AccountRecoveryRequest.accountToRecover s.requests a) : RequestsFrom s e t :=
  ⟨fun _ hr ↦ .inl (List.mem_of_mem_eraseP (h ▸ hr)), fun hs ↦ h ▸ hs.sublist List.eraseP_sublist⟩

/-- A request is put in its place among requests that were there. -/
theorem requestsFrom_insertBy {r : AccountRecoveryRequest Key} {others : List (AccountRecoveryRequest Key)}
    (hothers : others.Sublist s.requests) (hr : Requests s e r)
    (h : t.requests = insertBy AccountRecoveryRequest.expires r others) : RequestsFrom s e t := by
  refine ⟨fun r' hr' ↦ ?_, fun hs ↦ h ▸ insertBy_pairwise (hs.sublist hothers)⟩
  rw [h] at hr'
  obtain rfl | hr' := mem_insertBy.mp hr'
  · exact .inr hr
  · exact .inl (hothers.subset hr')

theorem accountCreate_ok {o : AccountCreate Key} (h : s.accountCreate o = .ok t) :
    Operates s t ∧ t.requests = s.requests := by
  obtain ⟨_, -, h⟩ := bind_eq_ok.mp h
  iterate 7 obtain ⟨_, -, h⟩ := bind_eq_ok.mp h
  obtain ⟨_, hfree, h⟩ := bind_eq_ok.mp h
  cases h
  have hnone := Option.isNone_iff_eq_none.mp (require_ok.mp hfree).2
  refine ⟨⟨⟨rfl, rfl, fun hu ↦ hu.append hnone⟩, .inl ⟨rfl, fun a x hx ↦ ?_⟩⟩, rfl⟩
  rw [State.owner, find_append hnone]
  split
  · next heq =>
    rw [State.owner, ← heq, hnone] at hx
    cases hx
  · exact hx

theorem accountUpdate_ok (hu : Unique AccountAuthority.account s.authorities) {o : AccountUpdate Key}
    (h : s.accountUpdate o = .ok t) : Operates s t ∧ t.requests = s.requests := by
  obtain ⟨_, -, h⟩ := bind_eq_ok.mp h
  obtain ⟨_, -, h⟩ := bind_eq_ok.mp h
  obtain ⟨_, -, h⟩ := bind_eq_ok.mp h
  obtain ⟨auth, hauth, h⟩ := bind_eq_ok.mp h
  iterate 3 obtain ⟨_, -, h⟩ := bind_eq_ok.mp h
  obtain ⟨s', hs', h⟩ := bind_eq_ok.mp h
  iterate 2 obtain ⟨_, -, h⟩ := bind_eq_ok.mp h
  cases h
  have hf := getAuthority_ok.mp hauth
  cases howner : o.owner with
  | some owner =>
    rw [howner] at hs'
    obtain ⟨_, -, hs'⟩ := bind_eq_ok.mp hs'
    obtain ⟨_, -, hs'⟩ := bind_eq_ok.mp hs'
    obtain ⟨hframe, hrep, hreq, -⟩ := updateOwnerAuthority_ok hu hs'
    obtain ⟨auth', hf'⟩ := exists_authority hs' hu hf
    obtain ⟨hframe', hkeeps⟩ := keepsOwners_update (hframe.unique hu) hf'
      (f := fun auth ↦ { auth with active := o.active.getD auth.active, posting := o.posting.getD auth.posting })
      (fun _ ↦ rfl) (fun _ ↦ rfl)
    exact ⟨⟨hframe.trans hframe', .inr ⟨_, hrep.keeps hkeeps⟩⟩, hreq⟩
  | none =>
    rw [howner] at hs'
    cases hs'
    obtain ⟨hframe, hkeeps⟩ := keepsOwners_update hu hf
      (f := fun auth ↦ { auth with active := o.active.getD auth.active, posting := o.posting.getD auth.posting })
      (fun _ ↦ rfl) (fun _ ↦ rfl)
    exact ⟨⟨hframe, .inl hkeeps⟩, rfl⟩

theorem requestAccountRecovery_ok {o : RequestAccountRecovery Key}
    (h : s.requestAccountRecovery o = .ok t) :
    Operates s t ∧ RequestsFrom s (.requestAccountRecovery o) t := by
  obtain ⟨a, ha, h⟩ := bind_eq_ok.mp h
  have hf := getAccount_ok.mp ha
  have hnew : o.recoveryAccount = s.recoveryAgent a → Requests s (.requestAccountRecovery o)
      ⟨o.accountToRecover, o.newOwnerAuthority,
        s.headBlockTime + taiyiAccountRecoveryRequestExpirationPeriod⟩ :=
    fun hagent ↦ ⟨o, rfl, rfl, rfl, rfl, a, hf, hagent⟩
  obtain ⟨_, hagent, h⟩ := bind_eq_ok.mp h
  have hagent : o.recoveryAccount = s.recoveryAgent a := by
    unfold State.checkAgent at hagent
    unfold State.recoveryAgent
    split at hagent
    · next hne => rw [if_pos hne, require_ok.mp hagent]
    · next hne => rw [if_neg hne, require_ok.mp hagent]
  split at h
  · iterate 4 obtain ⟨_, -, h⟩ := bind_eq_ok.mp h
    cases h
    exact ⟨operates_same rfl rfl rfl rfl, requestsFrom_insertBy (List.Sublist.refl _) (hnew hagent) rfl⟩
  · split at h
    · cases h
      exact ⟨operates_same rfl rfl rfl rfl, requestsFrom_remove rfl⟩
    · iterate 2 obtain ⟨_, -, h⟩ := bind_eq_ok.mp h
      cases h
      exact ⟨operates_same rfl rfl rfl rfl, requestsFrom_insertBy List.eraseP_sublist (hnew hagent) rfl⟩

theorem changeRecoveryAccount_ok {o : ChangeRecoveryAccount} (h : s.changeRecoveryAccount o = .ok t) :
    Operates s t ∧ t.requests = s.requests := by
  obtain ⟨_, -, h⟩ := bind_eq_ok.mp h
  obtain ⟨_, -, h⟩ := bind_eq_ok.mp h
  split at h
  · cases h
    exact ⟨operates_same rfl rfl rfl rfl, rfl⟩
  · split at h
    · cases h
      exact ⟨operates_same rfl rfl rfl rfl, rfl⟩
    · cases h
      exact ⟨operates_same rfl rfl rfl rfl, rfl⟩

variable [DecidableEq Key]

/-- What `recover_account` asks for. -/
theorem recoverAccount_ok {o : RecoverAccount Key} (h : s.recoverAccount o = .ok t) :
    ∃ request, find AccountRecoveryRequest.accountToRecover s.requests o.accountToRecover = some request ∧
      request.newOwnerAuthority = o.newOwnerAuthority ∧
      (∃ hist ∈ s.history, hist.account = o.accountToRecover ∧
        hist.previousOwnerAuthority = o.recentOwnerAuthority) ∧
      (Unique AccountAuthority.account s.authorities → Operates s t ∧ RequestsFrom s (.recoverAccount o) t) := by
  obtain ⟨_, -, h⟩ := bind_eq_ok.mp h
  obtain ⟨_, -, h⟩ := bind_eq_ok.mp h
  split at h
  · cases h
  · next request hf =>
    obtain ⟨_, hnew, h⟩ := bind_eq_ok.mp h
    obtain ⟨_, hrecent, h⟩ := bind_eq_ok.mp h
    refine ⟨request, hf, require_ok.mp hnew, require_ok.mp hrecent, fun hu ↦ ?_⟩
    obtain ⟨s', hs', h⟩ := bind_eq_ok.mp h
    cases h
    obtain ⟨hframe, hrep, hreq, -⟩ := updateOwnerAuthority_ok
      (s := { s with
        requests := remove AccountRecoveryRequest.accountToRecover s.requests o.accountToRecover }) hu hs'
    exact ⟨⟨⟨hframe.headBlockNum, hframe.headBlockTime, hframe.unique⟩, .inr ⟨_, hrep⟩⟩,
      requestsFrom_remove hreq⟩

/-- All operations, and votes. -/
theorem apply_ok (hu : Unique AccountAuthority.account s.authorities) (h : s.apply e = .ok t)
    (he : ∀ timestamp, e ≠ .block timestamp) : Operates s t ∧ RequestsFrom s e t := by
  cases e with
  | accountCreate o => exact (accountCreate_ok h).imp_right requestsFrom_same
  | accountUpdate o => exact (accountUpdate_ok hu h).imp_right requestsFrom_same
  | requestAccountRecovery o => exact requestAccountRecovery_ok h
  | recoverAccount o =>
    obtain ⟨_, -, -, -, hop⟩ := recoverAccount_ok h
    exact hop hu
  | changeRecoveryAccount o => exact (changeRecoveryAccount_ok h).imp_right requestsFrom_same
  | vote topSiming =>
    cases h
    exact ⟨operates_same rfl rfl rfl rfl, requestsFrom_same rfl⟩
  | block timestamp => exact absurd rfl (he timestamp)

end Operations

section Blocks

variable {s t : State Key} {timestamp : ℕ}

theorem accountRecoveryProcessing_ok (h : s.accountRecoveryProcessing = .ok t) :
    t.headBlockNum = s.headBlockNum ∧ t.headBlockTime = s.headBlockTime ∧ t.authorities = s.authorities ∧
      t.requests = s.requests.dropWhile (fun req ↦ req.expires ≤ s.headBlockTime) ∧
      t.history = s.history.dropWhile fun hist ↦
        hist.lastValidTime + taiyiOwnerAuthRecoveryPeriod < s.headBlockTime := by
  obtain ⟨⟨changes, accounts⟩, -, h⟩ := bind_eq_ok.mp h
  cases h
  exact ⟨rfl, rfl, rfl, rfl, rfl⟩

theorem applyBlock_ok (h : s.applyBlock timestamp = .ok t) :
    s.headBlockTime < timestamp ∧ t.headBlockNum = s.headBlockNum + 1 ∧ t.headBlockTime = timestamp ∧
      t.authorities = s.authorities ∧
      t.requests = s.requests.dropWhile (fun req ↦ req.expires ≤ timestamp) ∧
      t.history = s.history.dropWhile fun hist ↦
        hist.lastValidTime + taiyiOwnerAuthRecoveryPeriod < timestamp := by
  obtain ⟨_, hlt, h⟩ := bind_eq_ok.mp h
  obtain ⟨hnum, htime, hauth, hreq, hhist⟩ := accountRecoveryProcessing_ok h
  exact ⟨require_ok.mp hlt, hnum, htime, hauth, hreq, hhist⟩

end Blocks

/-- The authorities and tables of a reachable state: requests that are not expired, and a history of
what was valid within the period, the oldest first. -/
structure Sound (s : State Key) : Prop where
  unique : Unique AccountAuthority.account s.authorities
  requests_sorted : s.requests.Pairwise fun r r' ↦ r.expires ≤ r'.expires
  requests_live : ∀ r ∈ s.requests, s.headBlockTime < r.expires
  history_sorted : s.history.Pairwise fun h h' ↦ h.lastValidTime ≤ h'.lastValidTime
  history_past : ∀ h ∈ s.history, h.lastValidTime ≤ s.headBlockTime
  history_recent : ∀ h ∈ s.history, s.headBlockTime ≤ h.lastValidTime + taiyiOwnerAuthRecoveryPeriod

section Step

variable {s t : State Key} {e : Event Key} {timestamp : ℕ}

theorem sound_genesis (initPublicKey : Key) : Sound (genesis initPublicKey) where
  unique := by
    change ["null", "zuowang.dao", "taiyi.danuo", "temp", "danuo"].Nodup
    decide
  requests_sorted := List.Pairwise.nil
  requests_live := nofun
  history_sorted := List.Pairwise.nil
  history_past := nofun
  history_recent := nofun

/-- The history an operation leaves. -/
theorem Operates.history (h : Operates s t) : t.history = s.history ∨
    ∃ a old, s.owner a = some old ∧ t.history = s.history ++ [⟨a, old, s.headBlockTime⟩] := by
  obtain ⟨-, ⟨hhist, -⟩ | ⟨a, old, hold, hhist, -⟩⟩ := h
  · exact .inl hhist
  · split at hhist
    · exact .inr ⟨a, old, hold, hhist⟩
    · exact .inl hhist

theorem Sound.operation (hs : Sound s) (h : Operates s t) (hreq : RequestsFrom s e t) : Sound t := by
  have htime := h.1.headBlockTime
  have hhistory := h.history
  refine ⟨h.1.unique hs.unique, hreq.sorted hs.requests_sorted, fun r hr ↦ ?_, ?_, fun hist hmem ↦ ?_,
    fun hist hmem ↦ ?_⟩
  · rw [htime]
    rcases hreq.origin r hr with hr | ⟨o, -, -, -, hexp, -⟩
    · exact hs.requests_live r hr
    · rw [hexp]
      exact Nat.lt_add_of_pos_right (by decide)
  · rcases hhistory with heq | ⟨a, old, -, heq⟩
    · rw [heq]
      exact hs.history_sorted
    · rw [heq, List.pairwise_append]
      exact ⟨hs.history_sorted, List.pairwise_singleton .., fun h hh h' hh' ↦
        List.mem_singleton.mp hh' ▸ hs.history_past h hh⟩
  · rw [htime]
    rcases hhistory with heq | ⟨a, old, -, heq⟩
    · exact hs.history_past hist (heq ▸ hmem)
    · rw [heq, List.mem_append, List.mem_singleton] at hmem
      rcases hmem with hmem | rfl
      · exact hs.history_past hist hmem
      · exact Nat.le_refl _
  · rw [htime]
    rcases hhistory with heq | ⟨a, old, -, heq⟩
    · exact hs.history_recent hist (heq ▸ hmem)
    · rw [heq, List.mem_append, List.mem_singleton] at hmem
      rcases hmem with hmem | rfl
      · exact hs.history_recent hist hmem
      · exact Nat.le_add_right ..

theorem Sound.block (hs : Sound s) (h : s.applyBlock timestamp = .ok t) : Sound t := by
  obtain ⟨hlt, -, htime, hauth, hreq, hhist⟩ := applyBlock_ok h
  have hsub : t.history.Sublist s.history := hhist ▸ List.dropWhile_sublist _
  refine ⟨hauth ▸ hs.unique, ?_, fun r hr ↦ ?_, hs.history_sorted.sublist hsub, fun hist hmem ↦ ?_,
    fun hist hmem ↦ ?_⟩
  · rw [hreq]
    exact hs.requests_sorted.sublist (List.dropWhile_sublist _)
  · rw [htime]
    rw [hreq] at hr
    have hkept := not_of_mem_dropWhile hs.requests_sorted (fun r r' hle hdue ↦ by
      rw [decide_eq_true_eq] at hdue ⊢
      exact hle.trans hdue) hr
    exact Nat.lt_of_not_le (of_decide_eq_false hkept)
  · rw [htime]
    exact (hs.history_past hist (hsub.subset hmem)).trans hlt.le
  · rw [htime]
    rw [hhist] at hmem
    have hkept := not_of_mem_dropWhile hs.history_sorted (fun h h' hle hdue ↦ by
      rw [decide_eq_true_eq] at hdue ⊢
      exact (Nat.add_le_add_right hle _).trans_lt hdue) hmem
    exact Nat.le_of_not_lt (of_decide_eq_false hkept)

end Step

end Taiyi.Recovery
