import Taiyi.Nfas.Calls

set_option autoImplicit false

namespace Taiyi.Nfas

open Library Relation

variable {s t : State} {op : Op} {i id account owner : ℕ}

section Reowned

/-- The NFAs with `P` have a new owner, and nothing else is changed. -/
structure Reowned (P : ℕ → Prop) (owner : ℕ) (s t : State) : Prop where
  moved : ∀ i, P i → t.nfas[i]? = s.nfas[i]?.map (Nfa.setOwner owner)
  kept : ∀ i, ¬P i → t.nfas[i]? = s.nfas[i]?
  symbols : t.symbols = s.symbols
  creations : t.creations = s.creations
  xinsuCount : t.xinsuCount = s.xinsuCount

variable {P Q : ℕ → Prop}

theorem Reowned.nfas (h : Reowned P owner s t) (i : ℕ) :
    t.nfas[i]? = s.nfas[i]? ∨ t.nfas[i]? = s.nfas[i]?.map (Nfa.setOwner owner) := by
  by_cases hi : P i
  · exact .inr (h.moved i hi)
  · exact .inl (h.kept i hi)

theorem Reowned.parentOf (h : Reowned P owner s t) (i : ℕ) : t.parentOf i = s.parentOf i := by
  rw [State.parentOf, State.parentOf]
  rcases h.nfas i with hi | hi
  · rw [hi]
  · rw [hi, Option.bind_map]
    rfl

theorem Reowned.ownerOf (h : Reowned P owner s t) (hi : P i) :
    t.ownerOf i = (s.ownerOf i).map fun _ ↦ owner := by
  rw [State.ownerOf, State.ownerOf, h.moved i hi, Option.map_map, Option.map_map]
  rfl

theorem Reowned.ownerOf_kept (h : Reowned P owner s t) (hi : ¬P i) : t.ownerOf i = s.ownerOf i := by
  rw [State.ownerOf, State.ownerOf, h.kept i hi]

theorem Reowned.children (h : Reowned P owner s t) (hlen : t.nfas.length = s.nfas.length) :
    t.children = s.children := by
  funext id
  rw [State.children, State.children, hlen]
  exact List.filter_congr fun i _ ↦ by rw [h.parentOf]

theorem Reowned.refl (s : State) : Reowned (fun _ ↦ False) owner s s :=
  ⟨nofun, fun _ _ ↦ rfl, rfl, rfl, rfl⟩

/-- One more NFA gets the new owner. -/
theorem Reowned.cons (h : Reowned P owner s t) (hQ : ∀ i, Q i ↔ i = id ∨ P i) :
    Reowned Q owner s (t.modifyNfa id (Nfa.setOwner owner)) where
  moved i hi := by
    rw [nfas_modifyNfa]
    split
    · next heq =>
      rcases h.nfas i with hn | hn
      · rw [hn]
      · rw [hn, Option.map_map]
        rfl
    · next hne => exact h.moved i (((hQ i).mp hi).resolve_left (Ne.symm hne))
  kept i hi := by
    rw [nfas_modifyNfa, if_neg fun heq ↦ hi ((hQ i).mpr (.inl heq.symm))]
    exact h.kept i fun hp ↦ hi ((hQ i).mpr (.inr hp))
  symbols := h.symbols
  creations := h.creations
  xinsuCount := h.xinsuCount

theorem Reowned.trans {u : State} (h : Reowned P owner s t) (h' : Reowned Q owner t u) :
    Reowned (fun i ↦ P i ∨ Q i) owner s u where
  moved i hi := by
    by_cases hq : Q i
    · rw [h'.moved i hq]
      rcases h.nfas i with hn | hn
      · rw [hn]
      · rw [hn, Option.map_map]
        rfl
    · rw [h'.kept i hq, h.moved i (hi.resolve_right hq)]
  kept i hi := (h'.kept i fun hq ↦ hi (.inr hq)).trans (h.kept i fun hp ↦ hi (.inl hp))
  symbols := h'.symbols.trans h.symbols
  creations := h'.creations.trans h.creations
  xinsuCount := h'.xinsuCount.trans h.xinsuCount

theorem Reowned.congr (h : Reowned P owner s t) (hPQ : ∀ i, Q i ↔ P i) : Reowned Q owner s t where
  moved i hi := h.moved i ((hPQ i).mp hi)
  kept i hi := h.kept i fun hp ↦ hi ((hPQ i).mpr hp)
  symbols := h.symbols
  creations := h.creations
  xinsuCount := h.xinsuCount

theorem Reowned.length (h : Reowned P owner s t) : t.nfas.length = s.nfas.length := by
  have hnone (l m : List Nfa) (hlm : ∀ i, m[i]? = none → l[i]? = none) : l.length ≤ m.length :=
    List.getElem?_eq_none_iff.mp (hlm m.length (List.getElem?_eq_none (Nat.le_refl _)))
  refine Nat.le_antisymm (hnone _ _ fun i hi ↦ ?_) (hnone _ _ fun i hi ↦ ?_)
  · rcases h.nfas i with hn | hn <;> rw [hn, hi]
    rfl
  · rcases h.nfas i with hn | hn
    · rw [← hn, hi]
    · rw [hi] at hn
      exact Option.map_eq_none_iff.mp hn.symm

end Reowned

section Transfer

/-- The recursion over the children checks what `descend` does, and gives it to the new owner. -/
theorem modifyNfaChildrenOwner_spec (depth : ℕ) (todo : List ℕ) {r : List ℕ × State}
    (h : Reowned (· ∈ r.1) owner s r.2) :
    (State.modifyNfaChildrenOwner owner depth todo r).1 = descend s.children depth todo r.1 ∧
      Reowned (· ∈ (State.modifyNfaChildrenOwner owner depth todo r).1) owner s
        (State.modifyNfaChildrenOwner owner depth todo r).2 := by
  induction depth generalizing todo r with
  | zero => exact ⟨rfl, h⟩
  | succ depth ih =>
    rw [State.modifyNfaChildrenOwner, descend]
    induction todo generalizing r with
    | nil => exact ⟨rfl, h⟩
    | cons id todo ihtodo =>
      rw [List.foldl_cons, List.foldl_cons]
      by_cases hmem : id ∈ r.1
      · rw [if_pos hmem, if_pos hmem]
        exact ihtodo h
      · rw [if_neg hmem, if_neg hmem]
        have hstep : Reowned (· ∈ id :: r.1) owner s (r.2.modifyNfa id (Nfa.setOwner owner)) :=
          h.cons fun i ↦ List.mem_cons
        rw [h.children h.length]
        obtain ⟨hfst, hsnd⟩ := ih (s.children id) (r := (id :: r.1, r.2.modifyNfa id (Nfa.setOwner owner))) hstep
        rw [← hfst]
        exact ihtodo hsnd

/-- The NFAs below another. -/
def State.Below (s : State) (id i : ℕ) : Prop := TransGen (Under s.parentOf) i id

theorem children_lt {id : ℕ} (h : i ∈ s.children id) : i < s.nfas.length :=
  List.mem_range.mp (List.mem_of_mem_filter h)

theorem transGen_children : TransGen (fun a b ↦ b ∈ s.children a) id i ↔ s.Below id i := by
  rw [State.Below, ← transGen_swap]
  have heq : (fun a b ↦ b ∈ s.children a) = Function.swap (Under s.parentOf) := by
    funext a b
    exact propext mem_children
  rw [heq]

theorem mem_descend_children :
    i ∈ descend s.children (s.nfas.length + 1) (s.children id) [] ↔ s.Below id i := by
  have hU : ∀ a, ∀ b ∈ s.children a, b ∈ List.range s.nfas.length :=
    fun a b hb ↦ List.mem_range.mpr (children_lt hb)
  rw [mem_descend_iff (fun a _ ↦ hU a) (hU id) (by rw [List.length_range]; exact Nat.lt_succ_self _),
    transGen_children]

theorem reowned_children (h : Reowned (· = id) owner s t) :
    Reowned (fun i ↦ i = id ∨ s.Below id i) owner s
      (State.modifyNfaChildrenOwner owner (t.nfas.length + 1) (t.children id) ([], t)).2 := by
  have hstart : Reowned (· ∈ []) owner t t := (Reowned.refl t).congr fun i ↦ by simp
  obtain ⟨hfst, hmoved⟩ :=
    modifyNfaChildrenOwner_spec (t.nfas.length + 1) (t.children id) (r := ([], t)) hstart
  rw [hfst] at hmoved
  refine (h.trans hmoved).congr fun i ↦ or_congr_right ?_
  rw [h.children h.length, h.length, mem_descend_children]

/-- A transfer gives the NFA and all that is below it to the receiver. -/
theorem transferNfa_spec {sender receiver : ℕ} (h : s.transferNfa sender receiver id = .ok t) :
    ∃ n, s.nfas[id]? = some n ∧ n.ownerAccount = sender ∧ n.parent = none ∧
      (∀ y, s.symbols[n.symbolId]? = some y → y.isSbt = false) ∧
      Reowned (fun i ↦ i = id ∨ s.Below id i) receiver s t := by
  unfold State.transferNfa at h
  split at h
  · cases h
  · split at h
    · cases h
    · next n hn =>
      split at h
      · cases h
      · next hsbt =>
        split at h
        · cases h
        · next hparent =>
          split at h
          · cases h
          · next howner =>
            have hone : Reowned (· = id) receiver s (s.modifyNfa id (Nfa.setOwner receiver)) :=
              (Reowned.refl s).cons fun i ↦ by rw [or_false]
            refine ⟨n, hn, (not_not.mp howner).symm, not_not.mp hparent, fun y hy ↦ ?_, ?_⟩
            · rw [hy] at hsbt
              simpa using hsbt
            · cases h
              exact reowned_children hone

theorem reowned_foldl {found : List ℕ} {P : ℕ → Prop} (h : Reowned P owner s t) :
    Reowned (fun i ↦ P i ∨ i ∈ found) owner s
      (found.foldl (fun s id ↦ s.modifyNfa id (Nfa.setOwner owner)) t) := by
  induction found generalizing P t with
  | nil => exact h.congr fun i ↦ by simp
  | cons id found ih =>
    rw [List.foldl_cons]
    have hstep : Reowned (fun i ↦ i = id ∨ P i) owner s (t.modifyNfa id (Nfa.setOwner owner)) :=
      h.cons fun _ ↦ Iff.rfl
    exact (ih hstep).congr fun i ↦ by
      rw [List.mem_cons]
      tauto

end Transfer

section Effect

/-- The account may create NFAs of the symbol. -/
def State.Authorized (s : State) (account symbolId : ℕ) : Prop :=
  ∃ y, s.symbols[symbolId]? = some y ∧
    (y.authorityAccount = account ∨ s.hasNfaWithSymbol account y.authorityNfaSymbol = true)

/-- The creator, the symbol and the target of a call that begins a creation. -/
inductive Creates (s : State) : Op → ℕ → ℕ → Target → Prop
  | toActor {caller a id : ℕ} {symbol : String} (hname : s.symbolNamed symbol = some id)
      (hauth : s.Authorized caller id) : Creates s (.createNfaToActor caller a symbol) caller id (.actor a)
  | toAccount {caller account id : ℕ} {symbol : String} (hname : s.symbolNamed symbol = some id)
      (hauth : s.Authorized caller id) :
      Creates s (.createNfaToAccount caller account symbol) caller id (.account account)
  | nfaToActor {caller self a id : ℕ} {symbol : String} {n : Nfa} (hn : s.nfas[self]? = some n)
      (hname : s.symbolNamed symbol = some id) (hauth : s.Authorized n.ownerAccount id) :
      Creates s (.nfaCreateNfaToActor caller self a symbol) n.ownerAccount id (.actor a)
  | nfaToAccount {caller self account id : ℕ} {symbol : String} {n : Nfa}
      (hn : s.nfas[self]? = some n) (hname : s.symbolNamed symbol = some id)
      (hauth : s.Authorized n.ownerAccount id) :
      Creates s (.nfaCreateNfaToAccount caller self account symbol) n.ownerAccount id (.account account)
  | zone {caller id : ℕ} (hname : s.symbolNamed "nfa.zone.default" = some id)
      (hauth : s.Authorized caller id) : Creates s (.createZone caller) caller id .newZone
  | actor {caller id : ℕ} (hname : s.symbolNamed "nfa.actor.default" = some id)
      (hauth : s.Authorized caller id) : Creates s (.createActor caller) caller id .newActor
  | grant {receiver : ℕ} (hx : s.isXinsu receiver = false) :
      Creates s (.grantXinsu daoAccount receiver) danuoAccount xinsuMark (.mark receiver)

/-- The parent and the child of a call that attaches one to the other. -/
def Op.attaches : Op → Option (ℕ × ℕ)
  | .addChild _ self id => some (self, id)
  | .addToParent _ self parent => some (parent, self)
  | .addChildFromContractOwner _ _ self id => some (self, id)
  | .addToParentFromContractOwner _ _ self parent => some (parent, self)
  | _ => none

/-- What a call that succeeds can do. -/
inductive Effect (s : State) : Op → State → Prop
  | createSymbol {caller maxCount : ℕ} {symbol : String} {isSbt : Bool}
      (hnew : s.symbolNamed symbol = none) :
      Effect s (.createNfaSymbol caller symbol maxCount isSbt)
        { s with symbols := s.symbols ++ [{ symbol, authorityAccount := caller, maxCount, isSbt }] }
  | authority {caller id authorityAccount : ℕ} {symbol : String} (hid : s.symbolNamed symbol = some id) :
      Effect s (.changeNfaSymbolAuthority caller symbol authorityAccount)
        (s.modifySymbol id ({ · with authorityAccount }))
  | authorityNfaSymbol {caller id authority : ℕ} {symbol name : String}
      (hid : s.symbolNamed symbol = some id) (hname : s.symbolNamed name = some authority) :
      Effect s (.changeNfaSymbolAuthorityNfaSymbol caller symbol name)
        (s.modifySymbol id ({ · with authorityNfaSymbol := some authority }))
  | create {op : Op} {creator symbolId : ℕ} {target : Target} {y : NfaSymbol}
      (hby : Creates s op creator symbolId target) (hy : s.symbols[symbolId]? = some y)
      (hcount : y.count < y.maxCount) :
      Effect s op { s.modifySymbol symbolId ({ · with count := y.count + 1 }) with
        nfas := s.nfas ++ [{ ownerAccount := creator, activeAccount := creator, symbolId }]
        creations := (s.nfas.length, target) :: s.creations }
  | finishActor {id a : ℕ} {rest : List (ℕ × Target)} {n : Nfa} (hs : s.creations = (id, .actor a) :: rest)
      (hn : s.nfas[a]? = some n) :
      Effect s .finish (({ s with creations := rest }).modifyNfa id fun m ↦ { m with
        ownerAccount := n.ownerAccount, activeAccount := n.activeAccount, parent := some a })
  | finishAccount {id account : ℕ} {rest : List (ℕ × Target)}
      (hs : s.creations = (id, .account account) :: rest) :
      Effect s .finish (({ s with creations := rest }).modifyNfa id fun m ↦ { m with
        ownerAccount := account, activeAccount := account })
  | finishMark {id receiver : ℕ} {rest : List (ℕ × Target)}
      (hs : s.creations = (id, .mark receiver) :: rest) :
      Effect s .finish { ({ s with creations := rest }).modifyNfa id (Nfa.setOwner receiver) with
        xinsuCount := (s.xinsuCount + 1) % 2 ^ 32 }
  | finishNewActor {id : ℕ} {rest : List (ℕ × Target)} (hs : s.creations = (id, .newActor) :: rest) :
      Effect s .finish (({ s with creations := rest }).modifyNfa id ({ · with isActor := true }))
  | finishNewZone {id : ℕ} {rest : List (ℕ × Target)} (hs : s.creations = (id, .newZone) :: rest) :
      Effect s .finish { s with creations := rest }
  | abort {c : ℕ × Target} {rest : List (ℕ × Target)} (hs : s.creations = c :: rest) :
      Effect s .abort { s with creations := rest }
  | transfer {sender receiver id : ℕ} {n : Nfa} {t : State} (hn : s.nfas[id]? = some n)
      (howner : n.ownerAccount = sender) (hparent : n.parent = none)
      (hsbt : ∀ y, s.symbols[n.symbolId]? = some y → y.isSbt = false)
      (ht : Reowned (fun i ↦ i = id ∨ s.Below id i) receiver s t) :
      Effect s (.transferNfa sender receiver id) t
  | approve {owner newActiveAccount id : ℕ} :
      Effect s (.approveNfaActive owner newActiveAccount id)
        (s.modifyNfa id ({ · with activeAccount := newActiveAccount }))
  | attach {op : Op} {parent child : ℕ} {p c : Nfa} (hop : op.attaches = some (parent, child))
      (hp : s.nfas[parent]? = some p) (hc : s.nfas[child]? = some c) (hnone : c.parent = none) :
      Effect s op (s.modifyNfa child ({ · with parent := some parent }))
  | remove {caller self : ℕ} :
      Effect s (.removeFromParent caller self) (s.modifyNfa self ({ · with parent := none }))
  | destroy {caller self : ℕ} {n : Nfa} (hn : s.nfas[self]? = some n) (howner : n.ownerAccount = caller)
      (hparent : n.parent = none) (hchildren : s.children self = []) :
      Effect s (.destroy caller self) (s.modifyNfa self
        ({ · with ownerAccount := nullAccount, activeAccount := nullAccount }))
  | revoke {account : ℕ} {t : State} (hx : s.isXinsu account = true)
      (ht : Reowned (· ∈ s.ownedBy account) danuoAccount s t) :
      Effect s (.revokeXinsu daoAccount account) { t with
        xinsuCount := (s.xinsuCount + 2 ^ 32 - (s.ownedBy account).length % 2 ^ 32) % 2 ^ 32 }

theorem createNfa_effect {creator symbolId : ℕ} {target : Target}
    (h : s.createNfa creator symbolId target = .ok t) (hby : Creates s op creator symbolId target) :
    Effect s op t := by
  unfold State.createNfa at h
  split at h
  · cases h
  · next y hy =>
    split at h
    · cases h
    · next hcount =>
      cases h
      exact .create hby hy (not_not.mp hcount)

theorem createNfaFromSymbol_effect {caller : ℕ} {symbol : String} {target : Target}
    (h : s.createNfaFromSymbol caller symbol target = .ok t)
    (hby : ∀ id, s.symbolNamed symbol = some id → s.Authorized caller id →
      Creates s op caller id target) : Effect s op t := by
  unfold State.createNfaFromSymbol at h
  split at h
  · cases h
  · next id hname =>
    split at h
    · cases h
    · next y hy =>
      split at h
      · next hauth => exact createNfa_effect h (hby id hname ⟨y, hy, hauth⟩)
      · cases h

theorem createNfaToActorWithCaller_effect {caller a : ℕ} {symbol : String}
    (h : s.createNfaToActorWithCaller caller a symbol = .ok t)
    (hby : ∀ id, s.symbolNamed symbol = some id → s.Authorized caller id →
      Creates s op caller id (.actor a)) : Effect s op t := by
  unfold State.createNfaToActorWithCaller at h
  split at h
  · cases h
  · split at h
    · cases h
    · exact createNfaFromSymbol_effect h hby

theorem createNfaWithOwner_eq {self : ℕ} {create : ℕ → Except String State}
    (h : s.createNfaWithOwner self create = .ok t) :
    ∃ n, s.nfas[self]? = some n ∧ create n.ownerAccount = .ok t := by
  unfold State.createNfaWithOwner at h
  split at h
  · cases h
  · next n hn => exact ⟨n, hn, h⟩

theorem attach_effect {parentAccount childAccount parent child : ℕ}
    (h : s.attach parentAccount childAccount parent child = .ok t)
    (hop : op.attaches = some (parent, child)) : Effect s op t := by
  unfold State.attach at h
  split at h
  · next p c hp hc =>
    split at h
    · cases h
    · split at h
      · cases h
      · split at h
        · cases h
        · next hnone =>
          cases h
          exact .attach hop hp hc (not_not.mp hnone)
  · cases h

theorem finish_effect (h : s.finish = .ok t) : Effect s .finish t := by
  unfold State.finish at h
  split at h
  · cases h
  · next id target rest hs =>
    cases target with
    | actor a =>
      dsimp only at h
      split at h
      · cases h
      · next n hn =>
        cases h
        exact .finishActor hs hn
    | account account =>
      cases h
      exact .finishAccount hs
    | mark receiver =>
      cases h
      exact .finishMark hs
    | newActor =>
      cases h
      exact .finishNewActor hs
    | newZone =>
      cases h
      exact .finishNewZone hs

theorem exec_effect (h : s.exec op = .ok t) : Effect s op t := by
  cases op with
  | createNfaSymbol caller symbol maxCount isSbt =>
    rw [State.exec, State.createNfaSymbol] at h
    split at h
    · cases h
    · next hnew =>
      cases h
      exact .createSymbol hnew
  | changeNfaSymbolAuthority caller symbol account =>
    rw [State.exec, State.changeNfaSymbolAuthority] at h
    split at h
    · cases h
    · next hid =>
      cases h
      exact .authority hid
  | changeNfaSymbolAuthorityNfaSymbol caller symbol name =>
    rw [State.exec, State.changeNfaSymbolAuthorityNfaSymbol] at h
    split at h
    · cases h
    · next hid =>
      split at h
      · cases h
      · next hname =>
        cases h
        exact .authorityNfaSymbol hid hname
  | createNfaToActor caller a symbol => exact createNfaToActorWithCaller_effect h fun _ ↦ .toActor
  | createNfaToAccount caller account symbol => exact createNfaFromSymbol_effect h fun _ ↦ .toAccount
  | nfaCreateNfaToActor caller self a symbol =>
    rw [State.exec] at h
    obtain ⟨n, hn, hcreate⟩ := createNfaWithOwner_eq h
    exact createNfaToActorWithCaller_effect hcreate fun _ ↦ .nfaToActor hn
  | nfaCreateNfaToAccount caller self account symbol =>
    rw [State.exec] at h
    obtain ⟨n, hn, hcreate⟩ := createNfaWithOwner_eq h
    exact createNfaFromSymbol_effect hcreate fun _ ↦ .nfaToAccount hn
  | createZone caller =>
    rw [State.exec, State.createZone] at h
    split at h
    · cases h
    · exact createNfaFromSymbol_effect h fun _ ↦ .zone
  | createActor caller => exact createNfaFromSymbol_effect h fun _ ↦ .actor
  | grantXinsu caller receiver =>
    rw [State.exec, State.grantXinsu] at h
    split at h
    · cases h
    · next hcaller =>
      split at h
      · cases h
      · next hx =>
        rw [not_not.mp hcaller]
        exact createNfa_effect h (.grant (by simpa using hx))
  | revokeXinsu caller account =>
    rw [State.exec, State.revokeXinsu] at h
    split at h
    · cases h
    · next hcaller =>
      split at h
      · cases h
      · next hx =>
        cases h
        rw [not_not.mp hcaller]
        exact .revoke (by simpa using hx)
          ((reowned_foldl (Reowned.refl s)).congr fun i ↦ by rw [false_or])
  | finish => exact finish_effect h
  | abort =>
    rw [State.exec, State.abort] at h
    split at h
    · cases h
    · next hs =>
      cases h
      exact .abort hs
  | transferNfa sender receiver id =>
    obtain ⟨n, hn, howner, hparent, hsbt, ht⟩ := transferNfa_spec h
    exact .transfer hn howner hparent hsbt ht
  | approveNfaActive owner newActiveAccount id =>
    rw [State.exec, State.approveNfaActive] at h
    split at h
    · cases h
    · split at h
      · cases h
      · cases h
        exact .approve
  | addChild caller self id => exact attach_effect h rfl
  | addToParent caller self parent => exact attach_effect h rfl
  | addChildFromContractOwner caller contractOwner self id => exact attach_effect h rfl
  | addToParentFromContractOwner caller contractOwner self parent => exact attach_effect h rfl
  | removeFromParent caller self =>
    rw [State.exec, State.removeFromParent] at h
    repeat' split at h
    all_goals cases h
    exact .remove
  | destroy caller self =>
    rw [State.exec, State.destroy] at h
    split at h
    · cases h
    · next n hn =>
      split at h
      · cases h
      · next howner =>
        split at h
        · cases h
        · next hparent =>
          split at h
          · cases h
          · next hchildren =>
            cases h
            exact .destroy hn (not_not.mp howner) (not_not.mp hparent) (not_not.mp hchildren)

end Effect

section Persists

/-- What no call changes: the symbol of an NFA, and of a symbol its name, its limit and whether
its NFAs are soul-bound. -/
structure Persists (s t : State) : Prop where
  nfas : ∀ (i : ℕ) (n : Nfa), s.nfas[i]? = some n →
    ∃ n', t.nfas[i]? = some n' ∧ n'.symbolId = n.symbolId
  symbols : ∀ (j : ℕ) (y : NfaSymbol), s.symbols[j]? = some y → ∃ y', t.symbols[j]? = some y' ∧
    y'.symbol = y.symbol ∧ y'.maxCount = y.maxCount ∧ y'.isSbt = y.isSbt

variable {f : Nfa → Nfa} {g : NfaSymbol → NfaSymbol}

theorem Persists.of_nfas (hnfas : t.nfas = s.nfas) (hsymbols : t.symbols = s.symbols) : Persists s t where
  nfas i n hn := ⟨n, by rw [hnfas, hn], rfl⟩
  symbols j y hy := ⟨y, by rw [hsymbols, hy], rfl, rfl, rfl⟩

theorem Persists.modify (hnfas : t.nfas = s.nfas.modify id f) (hsymbols : t.symbols = s.symbols)
    (hf : ∀ n, (f n).symbolId = n.symbolId) : Persists s t where
  nfas i n hn := by
    rw [hnfas, List.getElem?_modify, hn]
    split
    · exact ⟨f n, rfl, hf n⟩
    · exact ⟨n, rfl, rfl⟩
  symbols j y hy := ⟨y, by rw [hsymbols, hy], rfl, rfl, rfl⟩

theorem Persists.modifySymbol (hg : ∀ y ∈ s.symbols[id]?, (g y).symbol = y.symbol ∧
    (g y).maxCount = y.maxCount ∧ (g y).isSbt = y.isSbt) : Persists s (s.modifySymbol id g) where
  nfas i n hn := ⟨n, hn, rfl⟩
  symbols j y hy := by
    rw [State.modifySymbol, List.getElem?_modify, hy]
    split
    · next heq =>
      subst heq
      exact ⟨g y, rfl, hg y hy⟩
    · exact ⟨y, rfl, rfl, rfl, rfl⟩

theorem Persists.reowned {P : ℕ → Prop} (h : Reowned P owner s t) : Persists s t where
  nfas i n hn := by
    rcases h.nfas i with hi | hi
    · exact ⟨n, hi.trans hn, rfl⟩
    · rw [hn] at hi
      exact ⟨n.setOwner owner, hi, rfl⟩
  symbols j y hy := ⟨y, by rw [h.symbols, hy], rfl, rfl, rfl⟩

theorem persists_effect (h : Effect s op t) : Persists s t := by
  cases h with
  | createSymbol =>
    refine ⟨fun i n hn ↦ ⟨n, hn, rfl⟩, fun j y hy ↦ ⟨y, ?_, rfl, rfl, rfl⟩⟩
    rw [List.getElem?_append_left (List.getElem?_eq_some_iff.mp hy).1, hy]
  | authority => exact .modifySymbol fun _ _ ↦ ⟨rfl, rfl, rfl⟩
  | authorityNfaSymbol => exact .modifySymbol fun _ _ ↦ ⟨rfl, rfl, rfl⟩
  | @create _ creator symbolId _ y =>
    have hsymbol : Persists s (s.modifySymbol symbolId ({ · with count := y.count + 1 })) :=
      .modifySymbol fun _ _ ↦ ⟨rfl, rfl, rfl⟩
    refine ⟨fun i n hn ↦ ⟨n, ?_, rfl⟩, hsymbol.symbols⟩
    rw [List.getElem?_append_left (List.getElem?_eq_some_iff.mp hn).1, hn]
  | finishActor => exact .modify rfl rfl fun _ ↦ rfl
  | finishAccount => exact .modify rfl rfl fun _ ↦ rfl
  | finishMark => exact .modify rfl rfl fun _ ↦ rfl
  | finishNewActor => exact .modify rfl rfl fun _ ↦ rfl
  | finishNewZone => exact .of_nfas rfl rfl
  | abort => exact .of_nfas rfl rfl
  | transfer hn howner hparent hsbt ht => exact .reowned ht
  | approve => exact .modify rfl rfl fun _ ↦ rfl
  | attach => exact .modify rfl rfl fun _ ↦ rfl
  | remove => exact .modify rfl rfl fun _ ↦ rfl
  | destroy => exact .modify rfl rfl fun _ ↦ rfl
  | revoke hx ht => exact ⟨(Persists.reowned ht).nfas, (Persists.reowned ht).symbols⟩

end Persists

end Taiyi.Nfas
