import Mathlib.Data.List.Induction
import Mathlib.Data.List.Lex
import Mathlib.Data.List.Sort
import Mathlib.Data.Prod.Lex
import Taiyi.Library.Attempt
import Taiyi.Library.SparseRows
import Taiyi.Protocol.AccountName

set_option autoImplicit false

namespace Taiyi.Ledger.WithdrawRoutes

open Library.SparseRows Library.RowList Library.Attempt

scoped instance instLinearOrderByte : LinearOrder UInt8 where
  le_refl := UInt8.le_refl
  le_trans _ _ _ := UInt8.le_trans
  lt_iff_le_not_ge a b := by
    rw [UInt8.lt_iff_toNat_lt, UInt8.le_iff_toNat_le, UInt8.le_iff_toNat_le]
    omega
  le_antisymm _ _ := UInt8.le_antisymm
  le_total := UInt8.le_total
  toDecidableLE := inferInstance
  toDecidableEq := inferInstance
  toDecidableLT := inferInstance

abbrev Name := List UInt8

def taiyi100Percent : UInt16 := 10000

def taiyiMaxWithdrawRoutes : UInt16 := 10

def taiyiDaoAccount : Name := "zuowang.dao".toUTF8.data.toList

structure WithdrawQiRoute where
  fromAccount : Name
  toAccount : Name
  percent : UInt16 := 0
  autoVest : Bool := false
  deriving DecidableEq

/-- The fields of an `account_object` that the routes read and write. -/
structure AccountObject where
  name : Name
  withdrawRoutes : UInt16 := 0

/-- The rows in the order of their ids. -/
structure State where
  accounts : List AccountObject
  routes : List WithdrawQiRoute := []

structure SetWithdrawQiRoute where
  fromAccount : Name
  toAccount : Name
  percent : UInt16
  autoVest : Bool

/-- The route that an operation sets. -/
def SetWithdrawQiRoute.route (o : SetWithdrawQiRoute) : WithdrawQiRoute :=
  ⟨o.fromAccount, o.toAccount, o.percent, o.autoVest⟩

def require (c : Prop) [Decidable c] (msg : String) : Except String Unit :=
  if c then .ok ⟨⟩ else .error msg

def WithdrawQiRoute.key (r : WithdrawQiRoute) : Name × Name := (r.fromAccount, r.toAccount)

/-- The index `by_withdraw_route`. -/
def byWithdrawRoute (routes : List WithdrawQiRoute) : List WithdrawQiRoute :=
  routes.insertionSort fun r r' ↦ toLex r.key ≤ toLex r'.key

def totalPercent (routes : List WithdrawQiRoute) : UInt16 := routes.foldl (fun total r ↦ total + r.percent) 0

def SetWithdrawQiRoute.validate (o : SetWithdrawQiRoute) : Except String Unit := do
  require (Protocol.AccountName.isValidAccountName o.fromAccount = true) "Account name is invalid"
  require (Protocol.AccountName.isValidAccountName o.toAccount = true) "Account name is invalid"
  require (0 ≤ o.percent ∧ o.percent ≤ taiyi100Percent) "Percent must be valid taiyi percent"

namespace State

def getAccount (s : State) (name : Name) : Except String AccountObject :=
  match find AccountObject.name s.accounts name with
  | some a => .ok a
  | none => .error "unknown key"

def modifyAccount (s : State) (name : Name) (f : AccountObject → AccountObject) : State :=
  { s with accounts := update AccountObject.name s.accounts name f }

/-- The evaluator up to the sum over the routes. -/
def changeRoute (s : State) (o : SetWithdrawQiRoute) : Except String State := do
  let fromAccount ← s.getAccount o.fromAccount
  let toAccount ← s.getAccount o.toAccount
  let pair := (fromAccount.name, toAccount.name)
  let route : WithdrawQiRoute := ⟨fromAccount.name, toAccount.name, o.percent, o.autoVest⟩
  require (o.toAccount ≠ taiyiDaoAccount) "Cannot withdraw qi to zuowang.dao"
  match find WithdrawQiRoute.key s.routes pair with
  | none =>
    require (o.percent ≠ 0) "Cannot create a 0% destination."
    require (fromAccount.withdrawRoutes < taiyiMaxWithdrawRoutes)
      "Account already has the maximum number of routes."
    pure ({ s with routes := s.routes ++ [route] }.modifyAccount fromAccount.name
      fun a ↦ { a with withdrawRoutes := a.withdrawRoutes + 1 })
  | some _ =>
    if o.percent = 0 then
      pure ({ s with routes := remove WithdrawQiRoute.key s.routes pair }.modifyAccount fromAccount.name
        fun a ↦ { a with withdrawRoutes := a.withdrawRoutes - 1 })
    else pure { s with routes := update WithdrawQiRoute.key s.routes pair fun _ ↦ route }

/-- The routes from the upper bound of the empty destination on, while they are from the account. -/
def scan (s : State) (name : Name) : List WithdrawQiRoute :=
  ((byWithdrawRoute s.routes).dropWhile fun r ↦ toLex r.key ≤ toLex (name, [])).takeWhile fun r ↦ r.fromAccount = name

def doApply (s : State) (o : SetWithdrawQiRoute) : Except String State := do
  let s ← s.changeRoute o
  require (totalPercent (s.scan o.fromAccount) ≤ taiyi100Percent)
    "More than 100% of qi withdrawals allocated to destinations."
  pure s

/-- A new account has no routes, and its name is a unique key. -/
def createAccount (s : State) (name : Name) : Except String State := do
  require (find AccountObject.name s.accounts name = none) "could not insert object"
  pure { s with accounts := s.accounts ++ [{ name := name }] }

end State

inductive Act
  | setWithdrawQiRoute (o : SetWithdrawQiRoute)
  | createAccount (name : Name)

/-- What fails leaves the state as it was. -/
def State.apply (s : State) : Act → State
  | .setWithdrawQiRoute o => (o.validate >>= fun _ ↦ s.doApply o).toOption.getD s
  | .createAccount name => (s.createAccount name).toOption.getD s

/-- A state of a chain that began with accounts of any names, none of them with a route. -/
inductive Reaches : State → Prop
  | start (names : List Name) (hn : names.Nodup) : Reaches { accounts := names.map fun n ↦ { name := n } }
  | step {s : State} (h : Reaches s) (act : Act) : Reaches (s.apply act)

/-- Rows that are met no more, once one of them is not met, are the ones a scan takes. -/
theorem takeWhile_eq_filter {α : Type} {q : α → Bool} {l : List α}
    (hl : l.Pairwise fun a b ↦ q a = false → q b = false) : l.takeWhile q = l.filter q := by
  induction l with
  | nil => rfl
  | cons a l ih =>
    rw [List.pairwise_cons] at hl
    cases hq : q a with
    | true => rw [List.takeWhile_cons_of_pos hq, List.filter_cons_of_pos hq, ih hl.2]
    | false =>
      have hnone : l.filter q = [] := List.filter_eq_nil_iff.mpr fun b hb ↦ by simp [hl.1 b hb hq]
      rw [List.takeWhile_cons_of_neg (by simp [hq]), List.filter_cons_of_neg (by simp [hq]), hnone]

section Total

variable {routes taken : List WithdrawQiRoute}

/-- The exact sum of the percentages. -/
def share (routes : List WithdrawQiRoute) : ℕ := (routes.map fun r ↦ r.percent.toNat).sum

theorem share_append {routes' : List WithdrawQiRoute} : share (routes ++ routes') = share routes + share routes' := by
  simp [share]

theorem totalPercent_mod (routes : List WithdrawQiRoute) : (totalPercent routes).toNat = share routes % 2 ^ 16 := by
  induction routes using List.reverseRecOn with
  | nil => rfl
  | append_singleton routes r ih =>
    have hlast : totalPercent (routes ++ [r]) = totalPercent routes + r.percent := by
      simp [totalPercent]
    rw [hlast, UInt16.toNat_add, ih, share_append]
    simp [share]

/-- The accumulator holds the exact sum of what has been met at every place of the scan. -/
theorem totalPercent_eq (h : share routes < 2 ^ 16) (hpre : taken <+: routes) :
    (totalPercent taken).toNat = share taken := by
  obtain ⟨rest, rfl⟩ := hpre
  rw [share_append] at h
  rw [totalPercent_mod, Nat.mod_eq_of_lt (by omega)]

end Total

namespace State

/-- The routes of one account. -/
def routesOf (s : State) (name : Name) : List WithdrawQiRoute := s.routes.filter fun r ↦ r.fromAccount = name

/-- Behind the upper bound the routes of an account stand together. -/
theorem scan_perm {s : State} (hto : ∀ r ∈ s.routes, r.toAccount ≠ []) (name : Name) :
    (s.scan name).Perm (s.routesOf name) := by
  have hperm : (byWithdrawRoute s.routes).Perm s.routes := List.perm_insertionSort _ _
  have hsorted : (byWithdrawRoute s.routes).Pairwise fun r r' ↦ toLex r.key ≤ toLex r'.key := by
    have : IsTrans WithdrawQiRoute fun r r' ↦ toLex r.key ≤ toLex r'.key := ⟨fun _ _ _ ↦ le_trans⟩
    have : Std.Total fun r r' : WithdrawQiRoute ↦ toLex r.key ≤ toLex r'.key := ⟨fun _ _ ↦ le_total _ _⟩
    exact List.pairwise_insertionSort _ _
  refine List.Perm.trans ?_ (hperm.filter fun r ↦ decide (r.fromAccount = name))
  rw [scan]
  have hstart : ∀ r ∈ (byWithdrawRoute s.routes).dropWhile fun r ↦ toLex r.key ≤ toLex (name, []),
      toLex (name, []) < toLex r.key := fun r hr ↦ by
    have := not_of_mem_dropWhile hsorted (fun a b hab hb ↦ by
      simp only [decide_eq_true_eq] at hb ⊢
      exact hab.trans hb) hr
    simpa using this
  rw [takeWhile_eq_filter]
  · -- what lies before the bound is from other accounts
    have hbefore : ((byWithdrawRoute s.routes).takeWhile fun r ↦ toLex r.key ≤ toLex (name, [])).filter
        (fun r ↦ r.fromAccount = name) = [] := by
      rw [List.filter_eq_nil_iff]
      intro r hr hname
      have hle : toLex r.key ≤ toLex (name, []) := by simpa using List.mem_takeWhile_imp hr
      have hmem := hperm.mem_iff.mp ((List.takeWhile_sublist _).mem hr)
      rw [Prod.Lex.toLex_le_toLex] at hle
      rcases hle with hlt | ⟨-, hle⟩
      · exact absurd (of_decide_eq_true hname) hlt.ne
      · change r.toAccount ≤ [] at hle
        obtain ⟨c, l, hcons⟩ := List.exists_cons_of_ne_nil (hto r hmem)
        rw [hcons] at hle
        exact absurd (List.nil_lt_cons c l) (not_lt.mpr hle)
    refine List.Perm.of_eq ?_
    conv_rhs => rw [← List.takeWhile_append_dropWhile (p := fun r ↦ decide (toLex r.key ≤ toLex (name, [])))
      (l := byWithdrawRoute s.routes)]
    rw [List.filter_append, hbefore, List.nil_append]
  · refine (hsorted.sublist (List.dropWhile_sublist _)).imp_of_mem fun {a b} ha _ hab hne ↦ ?_
    have hname : name < a.fromAccount := by
      have hlt := hstart a ha
      rw [Prod.Lex.toLex_lt_toLex] at hlt
      exact hlt.resolve_right fun he ↦ of_decide_eq_false hne he.1.symm
    have hle : a.fromAccount ≤ b.fromAccount := Prod.Lex.monotone_fst _ _ hab
    exact decide_eq_false (hname.trans_le hle).ne'

section Change

variable {s t : State} {o : SetWithdrawQiRoute}

theorem require_ok {c : Prop} [Decidable c] {msg : String} {u : Unit} : require c msg = .ok u ↔ c := by
  unfold require
  split
  · next hc => exact iff_of_true rfl hc
  · next hc => exact iff_of_false nofun hc

theorem getAccount_ok {name : Name} {a : AccountObject} :
    s.getAccount name = .ok a ↔ find AccountObject.name s.accounts name = some a := by
  unfold getAccount
  cases find AccountObject.name s.accounts name with
  | none => exact iff_of_false nofun nofun
  | some a' => simp

/-- What the evaluator changes before it sums the routes up. -/
inductive Changes (s : State) (o : SetWithdrawQiRoute) : State → Prop
  | create (a : AccountObject) (ha : find AccountObject.name s.accounts o.fromAccount = some a)
      (hfree : find WithdrawQiRoute.key s.routes (o.fromAccount, o.toAccount) = none) (hpercent : o.percent ≠ 0)
      (hfew : a.withdrawRoutes < taiyiMaxWithdrawRoutes) :
      Changes s o ({ s with routes := s.routes ++ [o.route] }.modifyAccount o.fromAccount
        fun a ↦ { a with withdrawRoutes := a.withdrawRoutes + 1 })
  | remove (a : AccountObject) (ha : find AccountObject.name s.accounts o.fromAccount = some a) (r : WithdrawQiRoute)
      (hr : find WithdrawQiRoute.key s.routes (o.fromAccount, o.toAccount) = some r) :
      Changes s o ({ s with routes := remove WithdrawQiRoute.key s.routes (o.fromAccount, o.toAccount) }.modifyAccount
        o.fromAccount fun a ↦ { a with withdrawRoutes := a.withdrawRoutes - 1 })
  | modify (a : AccountObject) (ha : find AccountObject.name s.accounts o.fromAccount = some a) (r : WithdrawQiRoute)
      (hr : find WithdrawQiRoute.key s.routes (o.fromAccount, o.toAccount) = some r) (hpercent : o.percent ≠ 0) :
      Changes s o { s with
        routes := update WithdrawQiRoute.key s.routes (o.fromAccount, o.toAccount) fun _ ↦ o.route }

theorem changes_of_changeRoute (h : s.changeRoute o = .ok t) : s.Changes o t := by
  unfold changeRoute at h
  obtain ⟨a, ha, h⟩ := bind_eq_ok.mp h
  obtain ⟨b, hb, h⟩ := bind_eq_ok.mp h
  obtain ⟨_, -, h⟩ := bind_eq_ok.mp h
  rw [getAccount_ok] at ha hb
  rw [(find_some ha).2, (find_some hb).2] at h
  cases hfind : find WithdrawQiRoute.key s.routes (o.fromAccount, o.toAccount) with
  | none =>
    simp only [hfind] at h
    obtain ⟨_, hpercent, h⟩ := bind_eq_ok.mp h
    obtain ⟨_, hfew, h⟩ := bind_eq_ok.mp h
    cases h
    exact .create a ha hfind (require_ok.mp hpercent) (require_ok.mp hfew)
  | some r =>
    simp only [hfind] at h
    split at h
    · cases h
      exact .remove a ha r hfind
    · next hpercent =>
      cases h
      exact .modify a ha r hfind hpercent

/-- What holds between the accounts and the routes whenever an account is read. -/
structure Consistent (s : State) : Prop where
  names : Unique AccountObject.name s.accounts
  pairs : Unique WithdrawQiRoute.key s.routes
  owned : ∀ r ∈ s.routes, r.fromAccount ∈ s.accounts.map AccountObject.name
  counted : ∀ a ∈ s.accounts, a.withdrawRoutes.toNat = (s.routesOf a.name).length
  few : ∀ a ∈ s.accounts, a.withdrawRoutes ≤ taiyiMaxWithdrawRoutes
  nonzero : ∀ r ∈ s.routes, r.percent ≠ 0
  named : ∀ r ∈ s.routes, r.toAccount ≠ []

theorem routesOf_perm {r : WithdrawQiRoute} {rest : List WithdrawQiRoute} (h : s.routes.Perm (r :: rest)) (name : Name) :
    (s.routesOf name).Perm
      ((if r.fromAccount = name then [r] else []) ++ rest.filter fun r ↦ r.fromAccount = name) := by
  refine (h.filter _).trans (List.Perm.of_eq ?_)
  rw [List.filter_cons]
  split <;> simp_all

theorem length_routesOf {r : WithdrawQiRoute} {rest : List WithdrawQiRoute} (h : s.routes.Perm (r :: rest))
    (name : Name) : (s.routesOf name).length = (if r.fromAccount = name then 1 else 0) +
      (rest.filter fun r ↦ r.fromAccount = name).length := by
  rw [(routesOf_perm h name).length_eq, List.length_append]
  split <;> rfl

theorem share_routesOf {r : WithdrawQiRoute} {rest : List WithdrawQiRoute} (h : s.routes.Perm (r :: rest))
    (name : Name) : share (s.routesOf name) = (if r.fromAccount = name then r.percent.toNat else 0) +
      share (rest.filter fun r ↦ r.fromAccount = name) := by
  rw [share, ((routesOf_perm h name).map _).sum_eq, ← share, share_append]
  split <;> simp [share]

/-- One route leaves, or one comes, or one takes the place of another. -/
theorem Changes.routes (h : s.Changes o t) : t.routes.Perm (o.route :: s.routes) ∨
    ∃ r rest, find WithdrawQiRoute.key s.routes (o.fromAccount, o.toAccount) = some r ∧ s.routes.Perm (r :: rest) ∧
      (t.routes.Perm rest ∨ t.routes.Perm (o.route :: rest)) := by
  cases h with
  | create a ha hfree hpercent hfew => exact .inl (List.perm_append_singleton _ _)
  | remove a ha r hr =>
    obtain ⟨l₁, l₂, hrows, -, hrem⟩ := split (f := id) hr
    exact .inr ⟨r, l₁ ++ l₂, hr, hrows ▸ List.perm_middle, .inl (List.Perm.of_eq hrem)⟩
  | modify a ha r hr hpercent =>
    obtain ⟨l₁, l₂, hrows, hupd, -⟩ := split (f := fun _ ↦ o.route) hr
    refine .inr ⟨r, l₁ ++ l₂, hr, hrows ▸ List.perm_middle, .inr ?_⟩
    exact (List.Perm.of_eq hupd).trans List.perm_middle

theorem Changes.share_le (h : s.Changes o t) (name : Name) :
    share (t.routesOf name) ≤ share (s.routesOf name) + if o.fromAccount = name then o.percent.toNat else 0 := by
  rcases h.routes with ht | ⟨r, rest, -, hs, ht | ht⟩
  · rw [share_routesOf ht name, Nat.add_comm]
    rfl
  · have hrest : share (t.routesOf name) = share (rest.filter fun r ↦ r.fromAccount = name) :=
      ((ht.filter _).map _).sum_eq
    rw [share_routesOf hs name, hrest]
    omega
  · have hroute : o.route.fromAccount = o.fromAccount ∧ o.route.percent = o.percent := ⟨rfl, rfl⟩
    rw [share_routesOf hs name, share_routesOf ht name, hroute.1, hroute.2]
    omega

/-- A route behind the change was there before, or is the one that was set. -/
theorem Changes.mem_routes (h : s.Changes o t) {r : WithdrawQiRoute} (hr : r ∈ t.routes) :
    r ∈ s.routes ∨ r = o.route ∧ o.percent ≠ 0 := by
  cases h with
  | create a ha hfree hpercent hfew =>
    rcases List.mem_append.mp hr with hr | hr
    · exact .inl hr
    · exact .inr ⟨List.mem_singleton.mp hr, hpercent⟩
  | remove a ha r' hr' => exact .inl (List.mem_of_mem_eraseP hr)
  | modify a ha r' hr' hpercent =>
    exact forall_update (P := fun r ↦ r ∈ s.routes ∨ r = o.route ∧ o.percent ≠ 0) hr' (fun _ ↦ .inl)
      (.inr ⟨rfl, hpercent⟩) r hr

theorem Changes.pairs (h : s.Changes o t) (hs : Unique WithdrawQiRoute.key s.routes) :
    Unique WithdrawQiRoute.key t.routes := by
  cases h with
  | create a ha hfree hpercent hfew => exact hs.append hfree
  | remove a ha r hr => exact hs.remove _
  | modify a ha r hr hpercent => exact hs.update hr (find_some hr).2.symm

theorem Changes.names (h : s.Changes o t) : t.accounts.map AccountObject.name = s.accounts.map AccountObject.name ∧
    o.fromAccount ∈ s.accounts.map AccountObject.name := by
  have hupd : ∀ (a : AccountObject) (f : UInt16 → UInt16),
      find AccountObject.name s.accounts o.fromAccount = some a →
      (update AccountObject.name s.accounts o.fromAccount fun a ↦ { a with withdrawRoutes := f a.withdrawRoutes }).map
        AccountObject.name = s.accounts.map AccountObject.name := by
    intro a f ha
    obtain ⟨l₁, l₂, hrows, hupd, -⟩ := split
      (f := fun a : AccountObject ↦ { a with withdrawRoutes := f a.withdrawRoutes }) ha
    rw [hupd, hrows, List.map_append, List.map_append, List.map_cons, List.map_cons]
  have hmem : ∀ a : AccountObject, find AccountObject.name s.accounts o.fromAccount = some a →
      o.fromAccount ∈ s.accounts.map AccountObject.name := fun a ha ↦
    List.mem_map.mpr ⟨a, (find_some ha).1, (find_some ha).2⟩
  cases h with
  | create a ha => exact ⟨hupd a (· + 1) ha, hmem a ha⟩
  | remove a ha => exact ⟨hupd a (· - 1) ha, hmem a ha⟩
  | modify a ha => exact ⟨rfl, hmem a ha⟩

/-- The counter follows the routes of its own account, and the others have theirs left. -/
theorem Changes.counted (h : s.Changes o t) (hs : s.Consistent) : ∀ a ∈ t.accounts,
    a.withdrawRoutes.toNat = (t.routesOf a.name).length ∧ a.withdrawRoutes ≤ taiyiMaxWithdrawRoutes := by
  have hroute : o.route.fromAccount = o.fromAccount := rfl
  have hall : ∀ a ∈ s.accounts, a.withdrawRoutes.toNat = (s.routesOf a.name).length ∧
      a.withdrawRoutes ≤ taiyiMaxWithdrawRoutes := fun a ha ↦ ⟨hs.counted a ha, hs.few a ha⟩
  cases h with
  | create a ha hfree hpercent hfew =>
    obtain ⟨hmem, hname⟩ := find_some ha
    have hlt : a.withdrawRoutes.toNat < 10 := UInt16.lt_iff_toNat_lt.mp hfew
    have hadd : (a.withdrawRoutes + 1).toNat = a.withdrawRoutes.toNat + 1 := by
      rw [UInt16.toNat_add]
      exact Nat.mod_eq_of_lt (by change _ + 1 < _; omega)
    have hperm := List.perm_append_singleton o.route s.routes
    refine forall_update_of_ne hs.names ha (fun b hb hne ↦ ?_) ?_
    · rw [length_routesOf hperm, hroute, if_neg (Ne.symm hne), Nat.zero_add]
      exact hall b hb
    · refine ⟨?_, UInt16.le_iff_toNat_le.mpr ?_⟩
      · rw [length_routesOf hperm, hroute, if_pos hname.symm, hadd, hs.counted a hmem, Nat.add_comm]
        rfl
      · rw [hadd]
        exact hlt
  | remove a ha r hr =>
    obtain ⟨hmem, hname⟩ := find_some ha
    obtain ⟨l₁, l₂, hrows, -, hrem⟩ := split (f := id) hr
    have hfrom : r.fromAccount = o.fromAccount := congrArg Prod.fst (find_some hr).2
    have hperm : s.routes.Perm (r :: (l₁ ++ l₂)) := hrows ▸ List.perm_middle
    have hcount := hs.counted a hmem
    rw [length_routesOf hperm, hfrom, if_pos hname.symm] at hcount
    have hsub : (a.withdrawRoutes - 1).toNat = a.withdrawRoutes.toNat - 1 :=
      UInt16.toNat_sub_of_le _ _ (UInt16.le_iff_toNat_le.mpr (by change 1 ≤ _; omega))
    refine forall_update_of_ne hs.names ha (fun b hb hne ↦ ?_) ?_
    · have hb := hall b hb
      rw [length_routesOf hperm, hfrom, if_neg (Ne.symm hne), Nat.zero_add, ← hrem] at hb
      exact hb
    · refine ⟨?_, UInt16.le_iff_toNat_le.mpr ?_⟩
      · rw [hsub, hcount, Nat.add_sub_cancel_left, ← hrem]
        rfl
      · rw [hsub]
        exact (Nat.sub_le _ _).trans (UInt16.le_iff_toNat_le.mp (hs.few a hmem))
  | modify a ha r hr hpercent =>
    obtain ⟨l₁, l₂, hrows, hupd, -⟩ := split (f := fun _ ↦ o.route) hr
    have hfrom : r.fromAccount = o.fromAccount := congrArg Prod.fst (find_some hr).2
    have hperm : s.routes.Perm (r :: (l₁ ++ l₂)) := hrows ▸ List.perm_middle
    have hperm' := (List.Perm.of_eq hupd).trans List.perm_middle
    intro b hb
    have hb := hall b hb
    rw [length_routesOf hperm, hfrom] at hb
    rw [length_routesOf hperm', hroute]
    exact hb

theorem Changes.consistent (h : s.Changes o t) (hs : s.Consistent) (hto : o.toAccount ≠ []) : t.Consistent where
  names := by
    have hnodup : (s.accounts.map AccountObject.name).Nodup := hs.names
    rw [← h.names.1] at hnodup
    exact hnodup
  pairs := h.pairs hs.pairs
  owned r hr := by
    rw [h.names.1]
    rcases h.mem_routes hr with hr | ⟨rfl, -⟩
    · exact hs.owned r hr
    · exact h.names.2
  counted a ha := (h.counted hs a ha).1
  few a ha := (h.counted hs a ha).2
  nonzero r hr := by
    rcases h.mem_routes hr with hr | ⟨rfl, hpercent⟩
    · exact hs.nonzero r hr
    · exact hpercent
  named r hr := by
    rcases h.mem_routes hr with hr | ⟨rfl, -⟩
    · exact hs.named r hr
    · exact hto

end Change

end State

section Run

variable {s t : State} {o : SetWithdrawQiRoute}

/-- An operation that is valid asks for a share that is none or one, and names an account. -/
theorem of_validate {u : Unit} (h : o.validate = .ok u) : o.toAccount ≠ [] ∧ o.percent.toNat ≤ 10000 := by
  unfold SetWithdrawQiRoute.validate at h
  obtain ⟨_, -, h⟩ := bind_eq_ok.mp h
  obtain ⟨_, hto, h⟩ := bind_eq_ok.mp h
  refine ⟨fun hnil ↦ ?_, UInt16.le_iff_toNat_le.mp (State.require_ok.mp h).2⟩
  have hvalid := State.require_ok.mp hto
  rw [hnil] at hvalid
  cases hvalid

/-- The account has no more routes, and no more shares to them, than it may have. -/
structure Sound (s : State) : Prop extends s.Consistent where
  share_le : ∀ name, share (s.routesOf name) ≤ 10000

/-- The routes are summed up exactly, whether the sum is allowed or not. -/
theorem Sound.scan_exact (hs : Sound s) {u : Unit} (hvalid : o.validate = .ok u) (h : s.changeRoute o = .ok t) :
    (t.scan o.fromAccount).Perm (t.routesOf o.fromAccount) ∧
      ∀ taken, taken <+: t.scan o.fromAccount → (totalPercent taken).toNat = share taken := by
  obtain ⟨hto, hle⟩ := of_validate hvalid
  have hchange := State.changes_of_changeRoute h
  have hperm := State.scan_perm (hchange.consistent hs.toConsistent hto).named o.fromAccount
  refine ⟨hperm, fun taken htaken ↦ totalPercent_eq ?_ htaken⟩
  have hshare : share (t.scan o.fromAccount) = share (t.routesOf o.fromAccount) := (hperm.map _).sum_eq
  have hbefore := hs.share_le o.fromAccount
  have hafter := hchange.share_le o.fromAccount
  rw [if_pos rfl] at hafter
  omega

theorem Sound.doApply (hs : Sound s) {u : Unit} (hvalid : o.validate = .ok u) (h : s.doApply o = .ok t) : Sound t := by
  obtain ⟨t', hchange, h⟩ := bind_eq_ok.mp h
  obtain ⟨_, htotal, h⟩ := bind_eq_ok.mp h
  cases h
  obtain ⟨hperm, hexact⟩ := hs.scan_exact hvalid hchange
  refine ⟨(State.changes_of_changeRoute hchange).consistent hs.toConsistent (of_validate hvalid).1, fun name ↦ ?_⟩
  by_cases hname : o.fromAccount = name
  · have hle := UInt16.le_iff_toNat_le.mp (State.require_ok.mp htotal)
    rw [hexact _ List.prefix_rfl] at hle
    have hshare : share (t.scan o.fromAccount) = share (t.routesOf o.fromAccount) := (hperm.map _).sum_eq
    rw [← hname, ← hshare]
    exact hle
  · have hle := (State.changes_of_changeRoute hchange).share_le name
    rw [if_neg hname, Nat.add_zero] at hle
    exact hle.trans (hs.share_le name)

theorem Sound.createAccount (hs : Sound s) {name : Name} (h : s.createAccount name = .ok t) : Sound t := by
  obtain ⟨_, hfree, h⟩ := bind_eq_ok.mp h
  have hfree := State.require_ok.mp hfree
  cases h
  have hno : s.routesOf name = [] := List.filter_eq_nil_iff.mpr fun r hr hname ↦ by
    obtain ⟨a, ha, haname⟩ := List.mem_map.mp (hs.owned r hr)
    exact find_none.mp hfree a ha (haname.trans (of_decide_eq_true hname))
  refine ⟨⟨hs.names.append hfree, hs.pairs, fun r hr ↦ ?_, fun a ha ↦ ?_, fun a ha ↦ ?_, hs.nonzero, hs.named⟩,
    hs.share_le⟩
  · rw [List.map_append]
    exact List.mem_append_left _ (hs.owned r hr)
  · rcases List.mem_append.mp ha with ha | ha
    · exact hs.counted a ha
    · rw [List.mem_singleton.mp ha]
      exact (congrArg List.length hno).symm
  · rcases List.mem_append.mp ha with ha | ha
    · exact hs.few a ha
    · rw [List.mem_singleton.mp ha]
      exact UInt16.le_iff_toNat_le.mpr (Nat.zero_le _)

theorem Reaches.sound (h : Reaches s) : Sound s := by
  induction h with
  | start names hn =>
    refine ⟨⟨?_, List.nodup_nil, nofun, ?_, ?_, nofun, nofun⟩, fun _ ↦ Nat.zero_le _⟩
    · change ((names.map fun n ↦ ({ name := n } : AccountObject)).map AccountObject.name).Nodup
      rw [List.map_map]
      exact (List.map_id names).symm ▸ hn
    · intro a ha
      obtain ⟨n, -, rfl⟩ := List.mem_map.mp ha
      rfl
    · intro a ha
      obtain ⟨n, -, rfl⟩ := List.mem_map.mp ha
      exact UInt16.le_iff_toNat_le.mpr (Nat.zero_le _)
  | @step s h act ih =>
    cases act with
    | setWithdrawQiRoute o =>
      rw [State.apply]
      cases happly : o.validate >>= fun _ ↦ s.doApply o with
      | error e => exact ih
      | ok t =>
        obtain ⟨_, hvalid, happly⟩ := bind_eq_ok.mp happly
        exact ih.doApply hvalid happly
    | createAccount name =>
      rw [State.apply]
      cases hcreate : s.createAccount name with
      | error e => exact ih
      | ok t => exact ih.createAccount hcreate

/-- Of every account the counter is the number of its routes, the routes are few, different and not
empty, and their shares are no more than the whole, which the narrow sum over them decides. -/
theorem Reaches.withdraw_routes (h : Reaches s) :
    (∀ a ∈ s.accounts, a.withdrawRoutes.toNat = (s.routesOf a.name).length ∧
      a.withdrawRoutes ≤ taiyiMaxWithdrawRoutes ∧ share (s.routesOf a.name) ≤ taiyi100Percent.toNat) ∧
    (∀ r ∈ s.routes, r.percent ≠ 0) ∧ (s.routes.map WithdrawQiRoute.key).Nodup ∧
    ∀ (o : SetWithdrawQiRoute) (t : State), o.validate = .ok () → s.changeRoute o = .ok t →
      (t.scan o.fromAccount).Perm (t.routesOf o.fromAccount) ∧
        ∀ taken, taken <+: t.scan o.fromAccount → (totalPercent taken).toNat = share taken :=
  have hs := h.sound
  ⟨fun a ha ↦ ⟨hs.counted a ha, hs.few a ha, hs.share_le a.name⟩, hs.nonzero, hs.pairs,
    fun _ _ hvalid hchange ↦ hs.scan_exact hvalid hchange⟩

theorem Reaches.withdraw_routes_whole :
    let alice : Name := "alice".toUTF8.data.toList
    let bobby : Name := "bobby".toUTF8.data.toList
    let s := (State.apply { accounts := [alice, bobby].map fun n ↦ { name := n } }
      (.setWithdrawQiRoute ⟨alice, bobby, 10000, true⟩)).apply (.setWithdrawQiRoute ⟨alice, alice, 1, true⟩)
    s.routes = [⟨alice, bobby, 10000, true⟩] ∧
      ∀ a ∈ s.accounts, a.withdrawRoutes.toNat = (s.routesOf a.name).length ∧
        a.withdrawRoutes ≤ taiyiMaxWithdrawRoutes ∧ share (s.routesOf a.name) ≤ taiyi100Percent.toNat :=
  ⟨by decide +kernel, (Reaches.withdraw_routes (.step (.step (.start _ (by decide)) _) _)).1⟩

end Run

end Taiyi.Ledger.WithdrawRoutes
