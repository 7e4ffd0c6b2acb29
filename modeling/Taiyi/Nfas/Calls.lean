import Taiyi.Nfas.Objects

set_option autoImplicit false

namespace Taiyi.Nfas

namespace State

variable (s : State)

/-- The account is the owner or the active operator of an NFA. -/
def Operates (account : ℕ) (n : Nfa) : Prop := n.ownerAccount = account ∨ n.activeAccount = account

instance (account : ℕ) (n : Nfa) : Decidable (Operates account n) :=
  inferInstanceAs (Decidable (n.ownerAccount = account ∨ n.activeAccount = account))

section Symbols

def createNfaSymbol (caller : ℕ) (symbol : String) (maxCount : ℕ) (isSbt : Bool) :
    Except String State :=
  match s.symbolNamed symbol with
  | some _ => .error "NFA symbol is already exist."
  | none =>
    .ok { s with symbols := s.symbols ++ [{ symbol, authorityAccount := caller, maxCount, isSbt }] }

def changeNfaSymbolAuthority (symbol : String) (authorityAccount : ℕ) : Except String State :=
  match s.symbolNamed symbol with
  | none => .error "NFA symbol is not exist."
  | some id => .ok (s.modifySymbol id ({ · with authorityAccount }))

def changeNfaSymbolAuthorityNfaSymbol (symbol authoritySymbolName : String) : Except String State :=
  match s.symbolNamed symbol with
  | none => .error "NFA symbol is not exist."
  | some id =>
    match s.symbolNamed authoritySymbolName with
    | none => .error "NFA symbol is not exist"
    | some authority => .ok (s.modifySymbol id ({ · with authorityNfaSymbol := some authority }))

end Symbols

section Create

/-- `create_nfa` up to the init function. -/
def createNfa (creator symbolId : ℕ) (target : Target) : Except String State :=
  match s.symbols[symbolId]? with
  | none => .error "NFA symbol is not exist."
  | some y =>
    if ¬y.count < y.maxCount then .error "The quantity of nfa has reached the maximum limit"
    else
      .ok { s.modifySymbol symbolId ({ · with count := y.count + 1 }) with
        nfas := s.nfas ++
          [{ ownerAccount := creator, activeAccount := creator, symbolId }]
        creations := (s.nfas.length, target) :: s.creations }

/-- The check of the creator's authority, and `create_nfa`. -/
def createNfaFromSymbol (caller : ℕ) (symbol : String) (target : Target) : Except String State :=
  match s.symbolNamed symbol with
  | none => .error "NFA symbol is not exist."
  | some id =>
    match s.symbols[id]? with
    | none => .error "NFA symbol is not exist."
    | some y =>
      if y.authorityAccount = caller ∨ s.hasNfaWithSymbol caller y.authorityNfaSymbol then
        s.createNfa caller id target
      else .error "have no authority to create nfa from symbol"

def createNfaToActorWithCaller (caller toActor : ℕ) (symbol : String) : Except String State :=
  match s.nfas[toActor]? with
  | none => .error "target nfa is not exist"
  | some n =>
    if !n.isActor then .error "target nfa is not an actor"
    else s.createNfaFromSymbol caller symbol (.actor toActor)

def createNfaToAccountWithCaller (caller toAccount : ℕ) (symbol : String) : Except String State :=
  s.createNfaFromSymbol caller symbol (.account toAccount)

/-- The functions of `nfa_helper` create with the owner of its NFA, whoever calls. -/
def createNfaWithOwner (self : ℕ) (create : ℕ → Except String State) : Except String State :=
  match s.nfas[self]? with
  | none => .error "unknown nfa"
  | some n => create n.ownerAccount

def createZone (caller : ℕ) : Except String State :=
  if !s.isXinsu caller then .error "you have no authority to create zone"
  else s.createNfaFromSymbol caller "nfa.zone.default" .newZone

def createActor (caller : ℕ) : Except String State :=
  s.createNfaFromSymbol caller "nfa.actor.default" .newActor

def grantXinsu (caller receiver : ℕ) : Except String State :=
  if caller ≠ daoAccount then .error "you have no authority to call this function"
  else if s.isXinsu receiver then .error "account is already xinsu"
  else s.createNfa danuoAccount xinsuMark (.mark receiver)

/-- What follows on the init function of the innermost creation. -/
def finish : Except String State :=
  match s.creations with
  | [] => .error "no creation"
  | (id, target) :: rest =>
    let s := { s with creations := rest }
    match target with
    | .actor a =>
      match s.nfas[a]? with
      | none => .error "target nfa is not exist"
      | some n => .ok (s.modifyNfa id fun m ↦ { m with
          ownerAccount := n.ownerAccount, activeAccount := n.activeAccount, parent := some a })
    | .account account => .ok (s.modifyNfa id fun m ↦ { m with
        ownerAccount := account, activeAccount := account })
    | .mark receiver => .ok { s.modifyNfa id (Nfa.setOwner receiver) with
        xinsuCount := (s.xinsuCount + 1) % 2 ^ 32 }
    | .newActor => .ok (s.modifyNfa id ({ · with isActor := true }))
    | .newZone => .ok s

/-- The innermost creation throws, and the contract catches the error. -/
def abort : Except String State :=
  match s.creations with
  | [] => .error "no creation"
  | _ :: rest => .ok { s with creations := rest }

end Create

section Owners

/-- `modify_nfa_children_owner` of the NFAs to do, with what is in `recursion_loop_check`. -/
def modifyNfaChildrenOwner (newOwner : ℕ) : ℕ → List ℕ → List ℕ × State → List ℕ × State
  | 0, _, r => r
  | depth + 1, todo, r =>
    todo.foldl (fun r id ↦
      if id ∈ r.1 then r
      else modifyNfaChildrenOwner newOwner depth (r.2.children id)
        (id :: r.1, r.2.modifyNfa id (Nfa.setOwner newOwner))) r

/-- `transfer_nfa_by_contract`, from the owner of the contract or its caller. -/
def transferNfa (fromAccount toAccount id : ℕ) : Except String State :=
  if fromAccount = toAccount then .error "It's no use transferring nfa to yourself"
  else
    match s.nfas[id]? with
    | none => .error "NFA not found"
    | some n =>
      if (s.symbols[n.symbolId]?.map NfaSymbol.isSbt).getD true then
        .error "SBT NFA can not be transfered between accounts"
      else if n.parent ≠ none then .error "Can not transfer child NFA, only can transfer root NFA"
      else if fromAccount ≠ n.ownerAccount then .error "Can not transfer NFA not ownd"
      else
        let s := s.modifyNfa id (Nfa.setOwner toAccount)
        .ok (modifyNfaChildrenOwner toAccount (s.nfas.length + 1) (s.children id) ([], s)).2

/-- `approve_nfa_active_by_contract`; `change_nfa_active_operator` does the same for the caller. -/
def approveNfaActive (fromAccount newActiveAccount id : ℕ) : Except String State :=
  match s.nfas[id]? with
  | none => .error "NFA not found"
  | some n =>
    if fromAccount ≠ n.ownerAccount then .error "Can not change active operator of NFA not ownd"
    else .ok (s.modifyNfa id ({ · with activeAccount := newActiveAccount }))

def destroy (caller self : ℕ) : Except String State :=
  match s.nfas[self]? with
  | none => .error "unknown nfa"
  | some n =>
    if n.ownerAccount ≠ caller then .error "caller account not the owner"
    else if n.parent ≠ none then .error "caller with parent can not be destroyed"
    else if s.children self ≠ [] then .error "caller with child can not be destroyed"
    else .ok (s.modifyNfa self ({ · with ownerAccount := nullAccount, activeAccount := nullAccount }))

/-- Every NFA of the account goes to danuo, and each counts as a mark. -/
def revokeXinsu (caller account : ℕ) : Except String State :=
  if caller ≠ daoAccount then .error "you have no authority to call this function"
  else if !s.isXinsu account then .error "account is not xinsu yet"
  else
    let found := s.ownedBy account
    .ok { found.foldl (fun s id ↦ s.modifyNfa id (Nfa.setOwner danuoAccount)) s with
      xinsuCount := (s.xinsuCount + 2 ^ 32 - found.length % 2 ^ 32) % 2 ^ 32 }

end Owners

section Parents

/-- What the four functions that attach one NFA to another do, each with the accounts that must
operate the parent and the child. -/
def attach (parentAccount childAccount parent child : ℕ) : Except String State :=
  match s.nfas[parent]?, s.nfas[child]? with
  | some p, some c =>
    if ¬Operates parentAccount p then .error "not the parent nfa's owner or active operator"
    else if ¬Operates childAccount c then .error "not the input nfa's owner or active operator"
    else if c.parent ≠ none then .error "input nfa already have parent"
    else .ok (s.modifyNfa child ({ · with parent := some parent }))
  | _, _ => .error "unknown nfa"

def addChild (caller self id : ℕ) : Except String State := s.attach caller caller self id

def addToParent (caller self parent : ℕ) : Except String State := s.attach caller caller parent self

def addChildFromContractOwner (caller contractOwner self id : ℕ) : Except String State :=
  s.attach caller contractOwner self id

def addToParentFromContractOwner (caller contractOwner self parent : ℕ) : Except String State :=
  s.attach contractOwner caller parent self

def removeFromParent (caller self : ℕ) : Except String State :=
  match s.nfas[self]? with
  | none => .error "unknown nfa"
  | some n =>
    if ¬Operates caller n then .error "caller account not the owner or active operator"
    else
      match n.parent with
      | none => .error "caller have no parent"
      | some parent =>
        match s.nfas[parent]? with
        | none => .error "unknown nfa"
        | some p =>
          if p.ownerAccount ≠ caller then .error "caller account not the parent nfa's owner"
          else .ok (s.modifyNfa self ({ · with parent := none }))

end Parents

end State

/-- The calls that contracts make, with the account that runs the contract. Calls whose strings
do not validate, or name no account, throw at once and are left out. -/
inductive Op
  | createNfaSymbol (caller : ℕ) (symbol : String) (maxCount : ℕ) (isSbt : Bool)
  | changeNfaSymbolAuthority (caller : ℕ) (symbol : String) (authorityAccount : ℕ)
  | changeNfaSymbolAuthorityNfaSymbol (caller : ℕ) (symbol authoritySymbolName : String)
  | createNfaToActor (caller toActor : ℕ) (symbol : String)
  | createNfaToAccount (caller toAccount : ℕ) (symbol : String)
  | nfaCreateNfaToActor (caller self toActor : ℕ) (symbol : String)
  | nfaCreateNfaToAccount (caller self toAccount : ℕ) (symbol : String)
  | createZone (caller : ℕ)
  | createActor (caller : ℕ)
  | grantXinsu (caller receiver : ℕ)
  | revokeXinsu (caller account : ℕ)
  | finish
  | abort
  | transferNfa (fromAccount toAccount id : ℕ)
  | approveNfaActive (fromAccount newActiveAccount id : ℕ)
  | addChild (caller self id : ℕ)
  | addToParent (caller self parent : ℕ)
  | addChildFromContractOwner (caller contractOwner self id : ℕ)
  | addToParentFromContractOwner (caller contractOwner self parent : ℕ)
  | removeFromParent (caller self : ℕ)
  | destroy (caller self : ℕ)
  deriving DecidableEq

def State.exec (s : State) : Op → Except String State
  | .createNfaSymbol caller symbol maxCount isSbt => s.createNfaSymbol caller symbol maxCount isSbt
  | .changeNfaSymbolAuthority _ symbol account => s.changeNfaSymbolAuthority symbol account
  | .changeNfaSymbolAuthorityNfaSymbol _ symbol authority =>
    s.changeNfaSymbolAuthorityNfaSymbol symbol authority
  | .createNfaToActor caller toActor symbol => s.createNfaToActorWithCaller caller toActor symbol
  | .createNfaToAccount caller toAccount symbol => s.createNfaToAccountWithCaller caller toAccount symbol
  | .nfaCreateNfaToActor _ self toActor symbol =>
    s.createNfaWithOwner self fun owner ↦ s.createNfaToActorWithCaller owner toActor symbol
  | .nfaCreateNfaToAccount _ self toAccount symbol =>
    s.createNfaWithOwner self fun owner ↦ s.createNfaToAccountWithCaller owner toAccount symbol
  | .createZone caller => s.createZone caller
  | .createActor caller => s.createActor caller
  | .grantXinsu caller receiver => s.grantXinsu caller receiver
  | .revokeXinsu caller account => s.revokeXinsu caller account
  | .finish => s.finish
  | .abort => s.abort
  | .transferNfa fromAccount toAccount id => s.transferNfa fromAccount toAccount id
  | .approveNfaActive fromAccount newActiveAccount id => s.approveNfaActive fromAccount newActiveAccount id
  | .addChild caller self id => s.addChild caller self id
  | .addToParent caller self parent => s.addToParent caller self parent
  | .addChildFromContractOwner caller contractOwner self id =>
    s.addChildFromContractOwner caller contractOwner self id
  | .addToParentFromContractOwner caller contractOwner self parent =>
    s.addToParentFromContractOwner caller contractOwner self parent
  | .removeFromParent caller self => s.removeFromParent caller self
  | .destroy caller self => s.destroy caller self

def State.run (s : State) (ops : List Op) : Except String State := ops.foldlM State.exec s

/-- The runs of calls that succeed and meet a condition on the state before. -/
inductive Reaches (Allowed : State → Op → Prop) (s₀ : State) : State → Prop
  | start : Reaches Allowed s₀ s₀
  | call {s t : State} (op : Op) (h : Reaches Allowed s₀ s) (ha : Allowed s op)
      (hop : s.exec op = .ok t) : Reaches Allowed s₀ t

theorem reaches_of_run {Allowed : State → Op → Prop} {s t u : State} {ops : List Op}
    (h : Reaches Allowed s t) (ha : ∀ t op, Allowed t op) (hrun : t.run ops = .ok u) :
    Reaches Allowed s u := by
  induction ops generalizing t with
  | nil =>
    cases hrun
    exact h
  | cons op ops ih =>
    rw [State.run, List.foldlM_cons] at hrun
    cases hop : t.exec op with
    | error e =>
      rw [hop] at hrun
      cases hrun
    | ok v =>
      rw [hop] at hrun
      exact ih (h.call op (ha t op) hop) hrun

/-- The first siming has its mark, and an NFA 1 that can be transferred. -/
def owning : State :=
  { genesis with
    symbols := genesis.symbols ++
      [{ symbol := "nfa.a", authorityAccount := initSiming, count := 1, maxCount := 10, isSbt := false }]
    nfas := genesis.nfas ++
      [{ ownerAccount := initSiming, activeAccount := initSiming, symbolId := 3 }] }

theorem reaches_owning {Allowed : State → Op → Prop} (ha : ∀ s op, Allowed s op) :
    Reaches Allowed genesis owning := by
  have hrun : genesis.run [.createNfaSymbol initSiming "nfa.a" 10 false,
      .createNfaToAccount initSiming initSiming "nfa.a", .finish] = .ok owning := by decide +kernel
  exact reaches_of_run .start ha hrun

end Taiyi.Nfas
