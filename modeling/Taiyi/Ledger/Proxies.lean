import Mathlib.Algebra.BigOperators.Intervals
import Mathlib.Tactic.Ring
import Taiyi.Ledger.Takes
import Taiyi.Library.Descend

set_option autoImplicit false

namespace Taiyi.Ledger

open Library Library.IdMap Library.Outcome Library.Frame

def State.proxies (s : State) (a : ℕ) : Option ℕ := (s.account a).proxy

theorem sub_lt_five (depth : ℕ) (i : Fin 4) : i - depth < 5 := by
  omega

/-- What changes of the QI, and of what is proxied over one hop and so on, are to an account
`depth` hops on: all shifted, without those that have run out of hops. -/
def shifted (delta : Fin 5 → ℤ) (depth : ℕ) (i : Fin 4) : ℤ :=
  if depth ≤ i then delta ⟨i - depth, sub_lt_five depth i⟩ else 0

/-- What an account stands for at the accounts along its proxies. -/
def State.carried (s : State) (a c : ℕ) (i : Fin 4) : ℤ :=
  ∑ d ∈ Finset.range taiyiMaxProxyRecursionDepth,
    if hop s.proxies (d + 1) a = some c then shifted (s.account a).shares d i else 0

/-- An account has another proxy or none: what it stands for is moved from the old chain of
proxies to the new one. -/
structure Rewired (s t : State) (a : ℕ) (proxy : Option ℕ) : Prop where
  proxies : ∀ c, t.proxies c = if a = c then proxy else s.proxies c
  ends : hop t.proxies taiyiMaxProxyRecursionDepth a = none
  shares : (t.account a).shares = (s.account a).shares
  moved : ∀ c i, (t.account c).proxiedVsfAdores i =
    (s.account c).proxiedVsfAdores i - s.carried a c i + t.carried a c i
  others : ∀ c, (∀ d < taiyiMaxProxyRecursionDepth,
      hop s.proxies (d + 1) a ≠ some c ∧ hop t.proxies (d + 1) a ≠ some c) →
    (t.account c).proxiedVsfAdores = (s.account c).proxiedVsfAdores

section Frames

variable {s t : State} {a id : ℕ}

theorem proxies_modifyAccount {f : Account → Account} (hf : ∀ acc, (f acc).proxy = acc.proxy) :
    Moves (Same State.proxies) (modifyAccount id f) := by
  refine moves_modifyIn fun s acc hacc ↦ funext fun c ↦ ?_
  unfold State.proxies
  rw [account_insert hacc rfl]
  split
  · exact hf _
  · rfl

instance : Frames (Same State.proxies) where
  account := proxies_modifyAccount
  nfa _ := moves_modifyIn fun _ _ _ ↦ rfl
  siming := moves_modifyIn fun _ _ _ ↦ rfl
  fund := moves_modifyIn fun _ _ _ ↦ rfl
  props _ := .update fun _ ↦ rfl
  newAccount hnone := funext fun c ↦ congrArg Account.proxy (account_new hnone rfl c)
  newSiming := rfl
  declines := rfl

instance : FramesNfas (Same State.proxies) where
  nfa := moves_modifyIn fun _ _ _ ↦ rfl
  cultivation := moves_modifyIn fun _ _ _ ↦ rfl
  cultivations := rfl
  newNfa := rfl
  fund := moves_modifyIn fun _ _ _ ↦ rfl
  props _ := .update fun _ ↦ rfl

end Frames

section Propagate

variable {s t : State} {a c left : ℕ} {delta : Fin 5 → ℤ} {u : Unit}

theorem adores_keep {x : ℤ} (h : (adjustSimingAdores a x).run s = .ok u t) :
    t.accounts = s.accounts := by
  have hx : Moves (Same State.accounts) (adjustSimingAdores a x) :=
    .bind moves_getAccount fun _ ↦ .forM fun _ _ ↦ .bind moves_getSiming fun _ ↦ .bind .get fun _ ↦
      .bind moves_require fun _ ↦ moves_modifyIn fun _ _ _ ↦ rfl
  exact hx.keeps s u t h

namespace Account

def credited (acc : Account) (x : Fin 4 → ℤ) : Account :=
  { acc with proxiedVsfAdores := fun i ↦ acc.proxiedVsfAdores i + x i }

theorem creditArray_eq (delta : Fin 5 → ℤ) (depth : ℕ) (acc : Account) :
    acc.creditArray delta depth = acc.credited (shifted delta depth) := by
  unfold creditArray credited shifted
  congr 1
  funext i
  split
  · rfl
  · rw [add_zero]

theorem credited_credited (acc : Account) (x y : Fin 4 → ℤ) :
    (acc.credited x).credited y = acc.credited fun i ↦ x i + y i := by
  unfold credited
  simp only [add_assoc]

theorem credited_zero (acc : Account) {x : Fin 4 → ℤ} (h : ∀ i, x i = 0) : acc.credited x = acc := by
  unfold credited
  simp only [h, add_zero]

end Account

theorem hop_account {acc : Account} (h : (getAccount a).run s = .ok acc t) (k : ℕ) :
    hop s.proxies (k + 1) a = acc.proxy.bind (hop s.proxies k) := by
  obtain ⟨hacc, -⟩ := account_of_getAccount h
  rw [hop, State.proxies, hacc]

/-- The accounts at the next hops are credited, one depth more at each. -/
theorem propagate_spec {settle : ℕ → ℤ} (hleft : left ≤ taiyiMaxProxyRecursionDepth)
    (h : (propagate (Account.creditArray delta) settle left a).run s = .ok u t) (c : ℕ) :
    t.account c = (s.account c).credited fun i ↦
      ∑ d ∈ Finset.range left, if hop s.proxies (d + 1) a = some c then
        shifted delta (taiyiMaxProxyRecursionDepth - left + d) i else 0 := by
  induction left generalizing a s with
  | zero =>
    obtain ⟨acc, s₁, hacc, hrest⟩ := bind_ok.mp h
    obtain ⟨-, rfl⟩ := account_of_getAccount hacc
    rw [Account.credited_zero _ fun i ↦ Finset.sum_range_zero _]
    split at hrest
    · rw [State.account, adores_keep hrest, State.account]
    · cases hrest
      rfl
  | succ left ih =>
    obtain ⟨acc, s₁, hacc, hrest⟩ := bind_ok.mp h
    have hhop := hop_account hacc
    obtain ⟨-, rfl⟩ := account_of_getAccount hacc
    split at hrest
    · next hnone =>
      rw [Account.credited_zero _ fun i ↦ Finset.sum_eq_zero fun d _ ↦ by
        rw [hhop, hnone, Option.bind_none, if_neg (Option.some_ne_none c).symm]]
      rw [State.account, adores_keep hrest, State.account]
    · next p hp =>
      obtain ⟨_, s₂, hcredit, hnext⟩ := bind_ok.mp hrest
      obtain ⟨hcredited, -⟩ := modifyAccount_ok hcredit
      have hsame : s₂.proxies = s₁.proxies :=
        (proxies_modifyAccount (f := Account.creditArray delta _) fun _ ↦ rfl).keeps _ _ _ hcredit
      have hlater : ∀ i, (∑ d ∈ Finset.range left, if hop s₁.proxies (d + 1) p = some c then
            shifted delta (taiyiMaxProxyRecursionDepth - left + d) i else 0) =
          ∑ d ∈ Finset.range left, if hop s₁.proxies (d + 1 + 1) a = some c then
            shifted delta (taiyiMaxProxyRecursionDepth - (left + 1) + (d + 1)) i else 0 := by
        refine fun i ↦ Finset.sum_congr rfl fun d _ ↦ ?_
        rw [hhop, hp, Option.bind_some]
        congr 2
        omega
      have hfirst : hop s₁.proxies (0 + 1) a = some p := by rw [hhop, hp, Option.bind_some, hop]
      rw [ih (by omega) hnext, hsame, hcredited]
      simp only [hlater, Finset.sum_range_succ', hfirst]
      by_cases hpc : p = c
      · rw [if_pos hpc, Account.creditArray_eq, Account.credited_credited]
        congr 1
        funext i
        rw [if_pos (congrArg some hpc), Int.add_comm]
        rfl
      · simp only [if_neg hpc, if_neg fun he ↦ hpc (Option.some.inj he), add_zero]

end Propagate

section Rewire

variable {s t : State} {a b c p left : ℕ} {proxy : Option ℕ} {chain : List ℕ} {u : Unit}

/-- The walk that finds no loop comes to an end, and past none of the accounts it started with. -/
theorem checkProxyLoop_spec (h : (checkProxyLoop chain left p).run s = .ok u t) :
    t = s ∧ hop s.proxies (left + 1) p = none ∧
      ∀ b ∈ chain, p ≠ b → ¬Relation.ReflTransGen (Under s.proxies) p b := by
  induction left generalizing p chain s with
  | zero =>
    unfold checkProxyLoop at h
    obtain ⟨acc, s₁, hacc, hrest⟩ := bind_ok.mp h
    have hhop := hop_account hacc
    obtain ⟨hp, rfl⟩ := account_of_getAccount hacc
    split at hrest
    · next hnone =>
      cases hrest
      refine ⟨rfl, by rw [hhop, hnone, Option.bind_none], fun b _ hne hreach ↦ ?_⟩
      obtain rfl | ⟨q, hq, -⟩ := Relation.ReflTransGen.cases_head hreach
      · exact hne rfl
      · rw [Under, State.proxies, hp, hnone] at hq
        cases hq
    · obtain ⟨-, hthrow⟩ := after_require hrest
      cases hthrow
  | succ left ih =>
    unfold checkProxyLoop at h
    obtain ⟨acc, s₁, hacc, hrest⟩ := bind_ok.mp h
    have hhop := hop_account hacc
    obtain ⟨hp, rfl⟩ := account_of_getAccount hacc
    split at hrest
    · next hnone =>
      cases hrest
      refine ⟨rfl, by rw [hhop, hnone, Option.bind_none], fun b _ hne hreach ↦ ?_⟩
      obtain rfl | ⟨q, hq, -⟩ := Relation.ReflTransGen.cases_head hreach
      · exact hne rfl
      · rw [Under, State.proxies, hp, hnone] at hq
        cases hq
    · next next hnext =>
      obtain ⟨hfresh, hwalk⟩ := after_require hrest
      obtain ⟨ht, hend, hpast⟩ := ih hwalk
      refine ⟨ht, by rw [hhop, hnext, Option.bind_some, hend], fun b hb hne hreach ↦ ?_⟩
      obtain rfl | ⟨q, hq, hreach⟩ := Relation.ReflTransGen.cases_head hreach
      · exact hne rfl
      · rw [Under, State.proxies, hp, hnext] at hq
        cases hq
        exact hpast b (List.mem_cons_of_mem _ hb) (fun he ↦ hfresh (he ▸ hb)) hreach

theorem adjustProxiedArray_spec {delta : Fin 5 → ℤ}
    (h : (adjustProxiedArray a delta).run s = .ok u t) (c : ℕ) :
    t.account c = (s.account c).credited fun i ↦
      ∑ d ∈ Finset.range taiyiMaxProxyRecursionDepth,
        if hop s.proxies (d + 1) a = some c then shifted delta d i else 0 := by
  rw [propagate_spec le_rfl h, Nat.sub_self]
  simp only [Nat.zero_add]

/-- The old proxies of an account lose what it stands for. -/
theorem adjustProxiedArray_neg (h : (adjustProxiedArray a fun i ↦ -(s.account a).shares i).run s = .ok u t)
    (c : ℕ) : t.account c = (s.account c).credited fun i ↦ -s.carried a c i := by
  rw [adjustProxiedArray_spec h]
  congr 1
  funext i
  rw [State.carried, ← Finset.sum_neg_distrib]
  refine Finset.sum_congr rfl fun d _ ↦ ?_
  split
  · unfold shifted
    split
    · rfl
    · rw [neg_zero]
  · rw [neg_zero]

theorem carried_self (h : Acyclic s.proxies) (a : ℕ) (i : Fin 4) : s.carried a a i = 0 :=
  Finset.sum_eq_zero fun d _ ↦ if_neg (h.hop_ne a d)

theorem carried_other (h : ∀ d < taiyiMaxProxyRecursionDepth, hop s.proxies (d + 1) a ≠ some c) (i : Fin 4) :
    s.carried a c i = 0 :=
  Finset.sum_eq_zero fun d hd ↦ if_neg (h d (Finset.mem_range.mp hd))

theorem proxies_adjustProxiedArray {delta : Fin 5 → ℤ}
    (h : (adjustProxiedArray a delta).run s = .ok u t) : t.proxies = s.proxies :=
  (frames_adjustProxiedArray : Moves (Same State.proxies) _).keeps s u t h

/-- What is left of a change once the old proxies lost their part and the account has the new
proxy, which in a state `m` credits the new proxies. -/
theorem rewired_of_linked {m : State} (hs : Acyclic s.proxies)
    (hlinked : ∀ c, m.proxies c = if a = c then proxy else s.proxies c)
    (hproxies : t.proxies = m.proxies) (ht : Acyclic t.proxies)
    (hends : hop t.proxies taiyiMaxProxyRecursionDepth a = none)
    (hqi : ∀ c, (m.account c).assets.qi = (s.account c).assets.qi)
    (hremoved : ∀ c i, (m.account c).proxiedVsfAdores i = (s.account c).proxiedVsfAdores i - s.carried a c i)
    (hadded : ∀ c, t.account c = (m.account c).credited fun i ↦
      ∑ d ∈ Finset.range taiyiMaxProxyRecursionDepth,
        if hop m.proxies (d + 1) a = some c then shifted (s.account a).shares d i else 0) :
    Rewired s t a proxy := by
  have hself : t.account a = m.account a := by
    rw [hadded a, Account.credited_zero]
    exact fun i ↦ Finset.sum_eq_zero fun d _ ↦ if_neg (hproxies ▸ ht.hop_ne a d)
  have hshares : (t.account a).shares = (s.account a).shares := by
    have hvsf : (m.account a).proxiedVsfAdores = (s.account a).proxiedVsfAdores :=
      funext fun i ↦ by rw [hremoved a i, carried_self hs, Int.sub_zero]
    rw [hself, Account.shares, Account.shares, hqi a, hvsf]
  have hmoved : ∀ c i, (t.account c).proxiedVsfAdores i =
      (s.account c).proxiedVsfAdores i - s.carried a c i + t.carried a c i := by
    intro c i
    rw [State.carried.eq_1 t, hshares, hproxies, ← hremoved c i, hadded c]
    rfl
  refine ⟨fun c ↦ hproxies ▸ hlinked c, hends, hshares, hmoved, fun c hc ↦ funext fun i ↦ ?_⟩
  rw [hmoved c i, carried_other (fun d hd ↦ (hc d hd).1), carried_other (fun d hd ↦ (hc d hd).2),
    Int.sub_zero, Int.add_zero]

theorem rewired_none (hs : Acyclic s.proxies) {m : State} {acc : Account} (hacc : s.account a = acc)
    (hneg : (adjustProxiedArray a fun i ↦ -acc.shares i).run s = .ok u m)
    (h : (modifyAccount a fun acc ↦ { acc with proxy := none }).run m = .ok u t) :
    Acyclic t.proxies ∧ Rewired s t a none := by
  subst hacc
  have hm := adjustProxiedArray_neg hneg
  obtain ⟨ht, -⟩ := modifyAccount_ok h
  have hlinked : ∀ c, t.proxies c = if a = c then none else s.proxies c := by
    intro c
    rw [State.proxies, ht c, ← proxies_adjustProxiedArray hneg]
    split <;> rfl
  have hacyclic : Acyclic t.proxies := by
    refine hs.mono fun c d hd ↦ ?_
    rw [hlinked c] at hd
    split at hd
    · cases hd
    · exact hd
  have hnone : t.proxies a = none := by rw [hlinked a, if_pos rfl]
  have hsum : ∀ c i, (∑ d ∈ Finset.range taiyiMaxProxyRecursionDepth,
      if hop t.proxies (d + 1) a = some c then shifted (s.account a).shares d i else 0) = 0 :=
    fun c i ↦ Finset.sum_eq_zero fun d _ ↦ by rw [hop, hnone, Option.bind_none, if_neg (Option.some_ne_none c).symm]
  refine ⟨hacyclic, rewired_of_linked hs hlinked rfl hacyclic ?_ (fun c ↦ ?_) (fun c i ↦ ?_) fun c ↦ ?_⟩
  · rw [taiyiMaxProxyRecursionDepth, hop, hnone, Option.bind_none]
  · rw [ht c, hm c]
    split <;> rfl
  · rw [ht c, hm c, Int.sub_eq_add_neg]
    split <;> rfl
  · rw [Account.credited_zero _ (hsum c)]

theorem rewired_some (hs : Acyclic s.proxies) (hne : p ≠ a) {s₁ s₂ m : State} {acc : Account}
    (hacc : s.account a = acc) (hneg : (adjustProxiedArray a fun i ↦ -acc.shares i).run s = .ok u s₁)
    (hcheck : (checkProxyLoop [a, p] (taiyiMaxProxyRecursionDepth - 2) p).run s₁ = .ok u s₁)
    (hclear : (clearSimingAdores a).run s₁ = .ok u s₂)
    (hset : (modifyAccount a fun acc ↦ { acc with proxy := some p }).run s₂ = .ok u m)
    (h : (adjustProxiedArray a acc.shares).run m = .ok u t) :
    Acyclic t.proxies ∧ Rewired s t a (some p) := by
  subst hacc
  have h₁ := adjustProxiedArray_neg hneg
  have hs₁ := proxies_adjustProxiedArray hneg
  obtain ⟨-, hend, hpast⟩ := checkProxyLoop_spec hcheck
  obtain ⟨h₂, -⟩ := modifyAccount_ok hclear
  obtain ⟨hm, -⟩ := modifyAccount_ok hset
  rw [hs₁] at hend hpast
  have hnot : ¬Relation.ReflTransGen (Under s.proxies) p a := hpast a List.mem_cons_self hne
  have hlinked : ∀ c, m.proxies c = if a = c then some p else s.proxies c := by
    intro c
    rw [State.proxies, hm c, h₂ c, ← hs₁]
    split <;> rfl
  have hsame : t.proxies = m.proxies := proxies_adjustProxiedArray h
  have hfirst : m.proxies a = some p := by rw [hlinked a, if_pos rfl]
  have hother : ∀ c, c ≠ a → m.proxies c = s.proxies c := fun c hc ↦ by
    rw [hlinked c, if_neg (Ne.symm hc)]
  have hacyclic : Acyclic t.proxies := hsame ▸ hs.relink hfirst hother hnot
  refine ⟨hacyclic, rewired_of_linked hs hlinked hsame hacyclic ?_ (fun c ↦ ?_) (fun c i ↦ ?_)
    (adjustProxiedArray_spec h)⟩
  · rw [hsame, taiyiMaxProxyRecursionDepth, hop, hfirst, Option.bind_some, hop_congr hother hnot]
    exact hend
  · rw [hm c, h₂ c, h₁ c]
    split <;> rfl
  · rw [hm c, h₂ c, h₁ c, Int.sub_eq_add_neg]
    split <;> rfl

/-- What the operation does to a state whose proxies lead nowhere back. -/
theorem rewired (hs : Acyclic s.proxies) (h : (accountSimingProxy a proxy).run s = .ok u t) :
    Acyclic t.proxies ∧ Rewired s t a proxy := by
  obtain ⟨hself, h₁⟩ := after_require h
  obtain ⟨acc, s₀, hacc, h₂⟩ := bind_ok.mp h₁
  obtain ⟨hacc, rfl⟩ := account_of_getAccount hacc
  obtain ⟨-, h₃⟩ := after_require h₂
  obtain ⟨-, h₄⟩ := after_require h₃
  obtain ⟨_, s₁, hneg, hrest⟩ := bind_ok.mp h₄
  cases proxy with
  | none => exact rewired_none hs hacc hneg hrest
  | some p =>
    obtain ⟨_, s₂, hp, h₅⟩ := bind_ok.mp hrest
    obtain ⟨-, rfl⟩ := account_of_getAccount hp
    obtain ⟨_, s₃, hcheck, h₆⟩ := bind_ok.mp h₅
    obtain rfl := (checkProxyLoop_spec hcheck).1
    obtain ⟨_, s₄, hclear, h₇⟩ := bind_ok.mp h₆
    obtain ⟨_, m, hset, hadd⟩ := bind_ok.mp h₇
    exact rewired_some hs (fun he ↦ hself (congrArg some he)) hacc hneg hcheck hclear hset hadd

end Rewire

section Run

variable {hash : ℕ → ℕ} {s t : State}

instance : Frames (Holds fun s : State ↦ Acyclic s.proxies) where
  account hf := (proxies_modifyAccount hf).mono fun _ _ hst ↦ (congrArg Acyclic hst).mpr
  nfa _ := moves_modifyIn fun _ _ _ ↦ id
  siming := moves_modifyIn fun _ _ _ ↦ id
  fund := moves_modifyIn fun _ _ _ ↦ id
  props _ := .update fun _ ↦ id
  newAccount hnone hs := by
    refine hs.mono fun c d hd ↦ ?_
    rw [← hd, State.proxies, State.proxies, account_new hnone rfl]
  newSiming := id
  declines := id

instance : FramesNfas (Holds fun s : State ↦ Acyclic s.proxies) where
  nfa := moves_modifyIn fun _ _ _ ↦ id
  cultivation := moves_modifyIn fun _ _ _ ↦ id
  cultivations := id
  newNfa := id
  fund := moves_modifyIn fun _ _ _ ↦ id
  props _ := .update fun _ ↦ id

abbrev KeepsAcyclic {α : Type} (x : Call α) : Prop := Moves (Holds fun s : State ↦ Acyclic s.proxies) x

theorem acyclic_decline {a : ℕ} :
    KeepsAcyclic (modifyAccount a fun acc ↦ { acc with canAdore := false, proxy := none }) := by
  refine moves_modifyIn fun s acc hacc hs ↦ hs.mono fun c d hd ↦ ?_
  rw [State.proxies, account_insert (f := fun acc ↦ { acc with canAdore := false, proxy := none }) hacc rfl]
    at hd
  split at hd
  · cases hd
  · exact hd

theorem acyclic_outside (o : Outside) : KeepsAcyclic o.apply := by
  cases o with
  | headBlock => exact .bind .get fun _ ↦ .bind moves_require fun _ ↦ .update fun _ ↦ id
  | changeOwner => exact FramesNfas.nfa
  | setTick => exact FramesNfas.nfa
  | delegateQi => exact Frames.account fun _ ↦ rfl
  | createActor => exact .bind moves_getMaterial fun _ ↦ .update fun _ ↦ id
  | settleActor =>
    exact .bind .get fun _ ↦ .bind moves_lookup fun _ ↦ moves_modifyIn fun _ _ _ ↦ id
  | createZone => exact .bind moves_getMaterial fun _ ↦ .update fun _ ↦ id

theorem acyclic_step {act : Action} (h : act.step hash s = some t) (hs : Acyclic s.proxies) :
    Acyclic t.proxies := by
  have ht := after_of_step h
  cases act with
  | operation o =>
    by_cases ho : ∃ a proxy, o = .accountSimingProxy a proxy
    · obtain ⟨a, proxy, rfl⟩ := ho
      exact (rewired hs ht).1
    · have hkeeps : KeepsAcyclic o.apply := frames_operation o fun a proxy he ↦ (ho ⟨a, proxy, he⟩).elim
      exact after_ok ht ▸ hkeeps s hs
  | contract c => exact ht ▸ (frames_call c : KeepsAcyclic (c.apply hash)) s hs
  | routine r =>
    have hkeeps : KeepsAcyclic (r.apply hash) :=
      frames_routine r (fun _ ↦ frames_withdrawTurn) fun _ ↦ acyclic_decline
    exact after_ok ht ▸ hkeeps s hs
  | outside o => exact after_ok ht ▸ acyclic_outside o s hs

theorem acyclic_genesis (initSupply initQiSupply : ℕ) :
    Acyclic (genesis initSupply initQiSupply).proxies := by
  have hnone : ∀ a, (genesis initSupply initQiSupply).proxies a = none := by
    intro a
    simp only [State.proxies, State.account, genesis, getElem?_insert]
    repeat' split
    all_goals rfl
  intro a ha
  obtain ⟨b, hb, -⟩ := Relation.TransGen.head'_iff.mp ha
  rw [Under, hnone a] at hb
  cases hb

theorem acyclic_of_reaches {P : State → Action → Prop} {initSupply initQiSupply : ℕ}
    (h : Reaches hash P (genesis initSupply initQiSupply) s) : Acyclic s.proxies := by
  induction h with
  | start => exact acyclic_genesis initSupply initQiSupply
  | step act _ _ hs ih => exact acyclic_step hs ih

/-- In every reachable state no account comes back to itself along its proxies, and an account
that changes or clears its proxy moves what it stands for and nothing else. -/
theorem proxies_of_reaches {initSupply initQiSupply : ℕ}
    (h : Reaches hash (fun _ _ ↦ True) (genesis initSupply initQiSupply) s) :
    Acyclic s.proxies ∧ ∀ a proxy t,
      (Action.operation (.accountSimingProxy a proxy)).step hash s = some t → Rewired s t a proxy :=
  ⟨acyclic_of_reaches h, fun _ _ _ ht ↦ (rewired (acyclic_of_reaches h) (after_of_step ht)).2⟩

/-- The first siming has danuo as its proxy, who goes from one proxy of its own to another. -/
theorem proxies_of_reaches_danuo : ∃ s t,
    runActions (· + 1) (genesis 0 1000) [.operation (.accountSimingProxy danuo (some 3)),
      .operation (.accountSimingProxy initSiming (some danuo))] = some s ∧
    (Action.operation (.accountSimingProxy danuo (some 4))).step (· + 1) s = some t ∧
    Acyclic s.proxies ∧ Rewired s t danuo (some 4) ∧
    (s.account 3).proxiedVsfAdores 1 = 1000 ∧ (t.account 4).proxiedVsfAdores 1 = 1000 := by
  have hrun : ((runActions (· + 1) (genesis 0 1000)
      [.operation (.accountSimingProxy danuo (some 3)),
        .operation (.accountSimingProxy initSiming (some danuo))]).bind fun s ↦
      ((Action.operation (.accountSimingProxy danuo (some 4))).step (· + 1) s).map fun t ↦
        decide ((s.account 3).proxiedVsfAdores 1 = 1000 ∧ (t.account 4).proxiedVsfAdores 1 = 1000)) =
      some true := by decide +kernel
  obtain ⟨s, hs, hrun⟩ := Option.bind_eq_some_iff.mp hrun
  obtain ⟨t, ht, hweights⟩ := Option.map_eq_some_iff.mp hrun
  obtain ⟨hacyclic, hrewired⟩ := proxies_of_reaches (reaches_of_runActions hs)
  exact ⟨s, t, hs, ht, hacyclic, hrewired danuo (some 4) t ht, of_decide_eq_true hweights⟩

end Run

end Taiyi.Ledger
