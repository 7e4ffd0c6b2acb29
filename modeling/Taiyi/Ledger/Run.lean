import Taiyi.Ledger.Cultivation
import Taiyi.Ledger.Routines
import Taiyi.Library.Frame

set_option autoImplicit false

namespace Taiyi.Ledger

open Library.IdMap Library.Frame

/-- The operations of a transaction that move what the state keeps. A call of a contract stands
for what it is charged, the calls that the contract makes are actions of their own. -/
inductive Operation
  | accountCreate (creator newAccount : ℕ) (fee : ℤ)
  | transfer (fromAccount toAccount : ℕ) (amount : ℤ) (symbol : Symbol)
  | transferToQi (fromAccount toAccount : ℕ) (amount : ℤ)
  | withdrawQi (account : ℕ) (qi : ℤ)
  | setWithdrawQiRoute (fromAccount toAccount percent : ℕ) (autoVest : Bool)
  | accountSimingProxy (account : ℕ) (proxy : Option ℕ)
  | accountSimingAdore (account siming : ℕ) (approve : Bool)
  | simingUpdate (owner : ℕ)
  | declineAdoringRights (account : ℕ) (decline : Bool)
  | claimRewardBalance (account : ℕ) (yang qi feigang : ℤ)
  | createContract (owner : ℕ) (usedQi : ℤ)
  | callContractFunction (contractOwner caller : ℕ) (usedDrops apiExePoint : ℤ)

def Operation.apply : Operation → Call Unit
  | .accountCreate creator newAccount fee => Ledger.accountCreate creator newAccount fee
  | .transfer a b amount symbol => Ledger.transfer a b amount symbol
  | .transferToQi a b amount => Ledger.transferToQi a b amount
  | .withdrawQi a qi => Ledger.withdrawQi a qi
  | .setWithdrawQiRoute a b percent autoVest => Ledger.setWithdrawQiRoute a b percent autoVest
  | .accountSimingProxy a proxy => Ledger.accountSimingProxy a proxy
  | .accountSimingAdore a siming approve => Ledger.accountSimingAdore a siming approve
  | .simingUpdate owner => Ledger.simingUpdate owner
  | .declineAdoringRights a decline => Ledger.declineAdoringRights a decline
  | .claimRewardBalance a yang qi feigang => Ledger.claimRewardBalance a yang qi feigang
  | .createContract owner usedQi => chargeTreasury owner usedQi
  | .callContractFunction owner caller drops points => chargeCaller owner caller drops points

/-- The calls that a running contract makes into the database. -/
inductive ContractCall
  | transferByContract (fromAccount toAccount : ℕ) (amount : ℤ) (symbol : Symbol)
  | transferNfaByContract (caller fromNfa toNfa : ℕ) (amount : ℤ) (symbol : Symbol)
  | withdrawByContract (caller fromNfa toAccount : ℕ) (amount : ℤ) (symbol : Symbol)
  | depositByContract (caller fromAccount toNfa : ℕ) (amount : ℤ) (symbol : Symbol)
  | convertQiToResource (caller nfa : ℕ) (amount : ℤ) (r : Resource)
  | convertResourceToQi (caller nfa : ℕ) (amount : ℤ) (r : Resource)
  | injectMaterial (caller fromNfa toNfa : ℕ) (amount : ℤ) (r : Resource)
  | separateMaterial (caller fromNfa toNfa : ℕ) (amount : ℤ) (r : Resource)
  | takeQi (caller nfa : ℕ) (qi : ℤ)
  | chargeInCall (payee payer : ℕ) (usedQi : ℤ)
  | consumeMaterial (nfa seed : ℕ)
  | createNfa (nfa creator minEquivalentQi : ℕ) (initialised : Bool)
  | createCultivation (caller cult managerNfa : ℕ) (entries : List (ℕ × ℤ)) (prepareTime : ℕ)
  | participateCultivation (caller cult nfa value : ℕ)
  | startCultivation (caller cult : ℕ)
  | stopAndCloseCultivation (caller cult seed : ℕ)
  | updateCultivation (caller cult seed : ℕ)

def ContractCall.apply (hash : ℕ → ℕ) : ContractCall → Call Unit
  | .transferByContract a b amount symbol => Ledger.transferByContract a b amount symbol
  | .transferNfaByContract c m n amount symbol => Ledger.transferNfaByContract c m n amount symbol
  | .withdrawByContract c n a amount symbol => Ledger.withdrawByContract c n a amount symbol
  | .depositByContract c a n amount symbol => Ledger.depositByContract c a n amount symbol
  | .convertQiToResource c n amount r => Ledger.convertQiToResource c n amount r
  | .convertResourceToQi c n amount r => Ledger.convertResourceToQi c n amount r
  | .injectMaterial c m n amount r => injectMaterialByContract c m n amount r
  | .separateMaterial c m n amount r => separateMaterialByContract c m n amount r
  | .takeQi c n qi => Ledger.takeQi c n qi
  | .chargeInCall payee payer usedQi => Ledger.chargeInCall payee payer usedQi
  | .consumeMaterial n seed => consumeNfaMaterialRandom hash n seed
  | .createNfa n creator minQi ok => Ledger.createNfa n creator minQi ok
  | .createCultivation c cult manager entries time =>
    Ledger.createCultivation c cult manager entries time
  | .participateCultivation c cult n value => Ledger.participateCultivation c cult n value
  | .startCultivation c cult => Ledger.startCultivation c cult
  | .stopAndCloseCultivation c cult seed => Ledger.stopAndCloseCultivation hash c cult seed
  | .updateCultivation c cult seed => updateCultivationByContract hash c cult seed

/-- The routines of a block, an NFA's tick and a proposal by what they charge. -/
inductive Routine
  | processFunds
  | processQiWithdrawals
  | processDeclineAdoringRights
  | cleanCultivations (seed : ℕ)
  | payDebt (nfa contractOwner : ℕ)
  | chargeTick (nfa contract contractOwner : ℕ) (usedDrops apiExePoint : ℤ) (beatFail : Bool)
  | chargeProposal (contractOwner : ℕ) (usedDrops apiExePoint : ℤ)

def Routine.apply (hash : ℕ → ℕ) : Routine → Call Unit
  | .processFunds => Ledger.processFunds
  | .processQiWithdrawals => Ledger.processQiWithdrawals
  | .processDeclineAdoringRights => Ledger.processDeclineAdoringRights
  | .cleanCultivations seed => Ledger.cleanCultivations hash seed
  | .payDebt n owner => Ledger.payDebt n owner
  | .chargeTick n contract owner drops points fail =>
    Ledger.chargeTick n contract owner drops points fail
  | .chargeProposal owner drops points => Ledger.chargeProposal owner drops points

/-- What the rest of the program writes into these objects. The number of a block is not below
that of the block before, and not yet the last that there is. -/
inductive Outside
  | headBlock (number time siming virtualTime : ℕ)
  | changeOwner (nfa ownerAccount activeAccount : ℕ)
  | setTick (nfa nextTickBlock : ℕ)
  | delegateQi (account : ℕ) (delegatedQi : ℤ)
  | createActor (nfa : ℕ)
  | settleActor (nfa zone : ℕ)
  | createZone (zone nfa : ℕ)

def Outside.apply : Outside → Call Unit
  | .headBlock number time siming virtualTime => do
    require ((← get).props.headBlockNumber ≤ number ∧ number < maximum) "invalid block number"
    modifyProps fun p ↦
      { p with
        headBlockNumber := number, time := time, currentSiming := siming
        currentVirtualTime := virtualTime }
  | .changeOwner n owner active =>
    modifyNfa n fun nfa ↦ { nfa with ownerAccount := owner, activeAccount := active }
  | .setTick n block => modifyNfa n fun nfa ↦ { nfa with nextTickBlock := block }
  | .delegateQi a delegated => modifyAccount a fun acc ↦ { acc with delegatedQi := delegated }
  | .createActor n => do
    let _ ← getMaterial n
    modify fun s ↦ { s with actors := s.actors.insertIfNew n {} }
  | .settleActor n zone => do
    let _ ← lookup (← get).zones zone
    modifyIn State.actors (fun t s ↦ { s with actors := t }) n fun _ ↦ { location := some zone }
  | .createZone zone n => do
    let _ ← getMaterial n
    modify fun s ↦ { s with zones := s.zones.insertIfNew zone { nfaId := n } }

inductive Action
  | operation (o : Operation)
  | contract (c : ContractCall)
  | routine (r : Routine)
  | outside (o : Outside)

/-- A transaction or a block that throws is undone as a whole. A contract can catch what its
call throws, and then keeps what the call wrote before. -/
def Action.step (hash : ℕ → ℕ) (act : Action) (s : State) : Option State :=
  let whole (x : Call Unit) : Option State :=
    match x.run s with
    | .ok _ t => some t
    | .error _ _ => none
  match act with
  | .operation o => whole o.apply
  | .routine r => whole (r.apply hash)
  | .outside o => whole o.apply
  | .contract c =>
    match (c.apply hash).run s with
    | .ok _ t => some t
    | .error _ t => some t

/-- The states of the runs from `s₀` whose steps all meet a condition on the state before. -/
inductive Reaches (hash : ℕ → ℕ) (P : State → Action → Prop) (s₀ : State) : State → Prop
  | start : Reaches hash P s₀ s₀
  | step {s t : State} (act : Action) :
      Reaches hash P s₀ s → P s act → act.step hash s = some t → Reaches hash P s₀ t

/-- The state after a list of actions. -/
def runActions (hash : ℕ → ℕ) (s : State) : List Action → Option State
  | [] => some s
  | act :: acts => act.step hash s >>= fun t ↦ runActions hash t acts

def danuo : ℕ := 1

def initSiming : ℕ := 2

/-- `init_genesis`; the null and the temp account have the ids 3 and 4, the first NFA is 0. -/
def genesis (initSupply initQiSupply : ℕ) : State where
  accounts :=
    (((((∅ : Table Account).insert taiyiDaoAccount {}).insert danuo {}).insert initSiming
      { assets := { yang := initSupply, qi := initQiSupply } }).insert 3 {}).insert 4 {}
  simings := (∅ : Table Siming).insert initSiming {}
  nfas := (∅ : Table Nfa).insert 0 { ownerAccount := initSiming, activeAccount := danuo }
  funds := (∅ : Table RewardFund).insert cultivationFund { percentContentRewards := 10000 }
  props :=
    { currentSiming := initSiming
      time := 1762840800
      totalQi := initQiSupply
      currentSupply := initSupply + (initQiSupply / 1000 : ℕ) }

theorem after_of_step {hash : ℕ → ℕ} {act : Action} {s t : State} (h : act.step hash s = some t) :
    match act with
    | .operation o => o.apply.run s = .ok ⟨⟩ t
    | .contract c => after (c.apply hash) s = t
    | .routine r => (r.apply hash).run s = .ok ⟨⟩ t
    | .outside o => o.apply.run s = .ok ⟨⟩ t := by
  cases act with
  | operation o =>
    simp only [Action.step] at h
    split at h
    · next u hu => cases h; exact hu
    · cases h
  | contract c =>
    simp only [Action.step] at h
    split at h
    · next u hu => cases h; exact after_ok hu
    · next e u hu => cases h; exact after_error hu
  | routine r =>
    simp only [Action.step] at h
    split at h
    · next u hu => cases h; exact hu
    · cases h
  | outside o =>
    simp only [Action.step] at h
    split at h
    · next u hu => cases h; exact hu
    · cases h

theorem Reaches.mono {hash : ℕ → ℕ} {P Q : State → Action → Prop} {s₀ s : State}
    (h : Reaches hash P s₀ s) (hPQ : ∀ s act, P s act → Q s act) : Reaches hash Q s₀ s := by
  induction h with
  | start => exact .start
  | step act _ hp hs ih => exact .step act ih (hPQ _ _ hp) hs

theorem Reaches.trans {hash : ℕ → ℕ} {P : State → Action → Prop} {s₀ s t : State}
    (h : Reaches hash P s₀ s) (h' : Reaches hash P s t) : Reaches hash P s₀ t := by
  induction h' with
  | start => exact h
  | step act _ hp hs ih => exact .step act ih hp hs

theorem reaches_of_runActions {hash : ℕ → ℕ} {acts : List Action} {s₀ s : State}
    (h : runActions hash s₀ acts = some s) : Reaches hash (fun _ _ ↦ True) s₀ s := by
  induction acts generalizing s₀ with
  | nil =>
    cases h
    exact .start
  | cons act acts ih =>
    obtain ⟨t, ht, h⟩ := Option.bind_eq_some_iff.mp h
    exact (Reaches.step act .start trivial ht).trans (ih h)

end Taiyi.Ledger
