import Taiyi.Nfas.Effects

set_option autoImplicit false

namespace Taiyi.Nfas

open Library Relation

variable {s t : State} {op : Op} {i j id p owner : ℕ} {f : Nfa → Nfa}

section Children

variable {todo : List ℕ} {r r' r₁ r₂ : List ℕ × State}

/-- The recursion of `modify_nfa_children_owner` without a bound on its depth: the NFAs to do, what
is in `recursion_loop_check` and the state before, and both after. -/
inductive Settles (owner : ℕ) : List ℕ → List ℕ × State → List ℕ × State → Prop
  | done (r : List ℕ × State) : Settles owner [] r r
  | checked {id : ℕ} {todo : List ℕ} {r r' : List ℕ × State} (hmem : id ∈ r.1)
      (hrest : Settles owner todo r r') : Settles owner (id :: todo) r r'
  | child {id : ℕ} {todo : List ℕ} {r r₁ r' : List ℕ × State} (hnot : id ∉ r.1)
      (hbelow : Settles owner (r.2.children id) (id :: r.1, r.2.modifyNfa id (Nfa.setOwner owner)) r₁)
      (hrest : Settles owner todo r₁ r') : Settles owner (id :: todo) r r'

theorem Settles.unique (h₁ : Settles owner todo r r₁) (h₂ : Settles owner todo r r₂) : r₁ = r₂ := by
  induction h₁ generalizing r₂ with
  | done r =>
    cases h₂
    rfl
  | checked hmem hrest ih =>
    cases h₂ with
    | checked _ hrest' => exact ih hrest'
    | child hnot => exact absurd hmem hnot
  | child hnot hbelow hrest ihbelow ihrest =>
    cases h₂ with
    | checked hmem => exact absurd hmem hnot
    | child _ hbelow' hrest' =>
      cases ihbelow hbelow'
      exact ihrest hrest'

/-- With more depth than there are NFAs that are not checked yet, the bound is never met. -/
theorem settles_modifyNfaChildrenOwner {depth : ℕ} (h : Reowned (· ∈ r.1) owner s r.2)
    (htodo : ∀ i ∈ todo, i < s.nfas.length)
    (hdepth : unchecked (List.range s.nfas.length) r.1 < depth) :
    Settles owner todo r (State.modifyNfaChildrenOwner owner depth todo r) := by
  induction depth generalizing todo r with
  | zero => omega
  | succ depth ih =>
    rw [State.modifyNfaChildrenOwner]
    induction todo generalizing r with
    | nil => exact .done r
    | cons id todo ihtodo =>
      have hid := htodo id List.mem_cons_self
      have hrest : ∀ i ∈ todo, i < s.nfas.length := fun i hi ↦ htodo i (List.mem_cons_of_mem id hi)
      rw [List.foldl_cons]
      by_cases hmem : id ∈ r.1
      · rw [if_pos hmem]
        exact .checked hmem (ihtodo h hrest hdepth)
      · rw [if_neg hmem]
        have hstep : Reowned (· ∈ id :: r.1) owner s (r.2.modifyNfa id (Nfa.setOwner owner)) :=
          h.cons fun i ↦ List.mem_cons
        have hless := unchecked_cons (List.mem_range.mpr hid) hmem
        have hchildren : ∀ i ∈ r.2.children id, i < s.nfas.length := fun i hi ↦
          h.length ▸ children_lt hi
        obtain ⟨hfst, hafter⟩ := modifyNfaChildrenOwner_spec depth (r.2.children id)
          (r := (id :: r.1, r.2.modifyNfa id (Nfa.setOwner owner))) hstep
        have hsub : r.1 ⊆ (State.modifyNfaChildrenOwner owner depth (r.2.children id)
            (id :: r.1, r.2.modifyNfa id (Nfa.setOwner owner))).1 := by
          rw [hfst]
          exact List.Subset.trans (List.subset_cons_self id r.1) subset_descend
        refine .child hmem (ih hstep hchildren (by dsimp only; omega)) (ihtodo hafter hrest ?_)
        exact Nat.lt_of_le_of_lt (unchecked_le hsub) hdepth

/-- The recursion from an NFA of any parent graph ends in one state, in which what is below the NFA
has the new owner and nothing else is changed. -/
theorem children_settle (s : State) (id owner : ℕ) :
    ∃ r, Settles owner (s.children id) ([], s) r ∧
      (∀ r', Settles owner (s.children id) ([], s) r' → r' = r) ∧
      State.modifyNfaChildrenOwner owner (s.nfas.length + 1) (s.children id) ([], s) = r ∧
      Reowned (s.Below id) owner s r.2 := by
  have hstart : Reowned (· ∈ []) owner s s := (Reowned.refl s).congr fun i ↦ by simp
  have htodo : ∀ i ∈ s.children id, i < s.nfas.length := fun i hi ↦ children_lt hi
  have hdepth : unchecked (List.range s.nfas.length) [] < s.nfas.length + 1 := by
    have hle := List.length_filter_le (· ∉ ([] : List ℕ)) (List.range s.nfas.length)
    rw [List.length_range] at hle
    exact Nat.lt_succ_of_le hle
  have hruns := settles_modifyNfaChildrenOwner (r := ([], s)) hstart htodo hdepth
  obtain ⟨hfst, hmoved⟩ :=
    modifyNfaChildrenOwner_spec (s.nfas.length + 1) (s.children id) (r := ([], s)) hstart
  refine ⟨_, hruns, fun r' h ↦ h.unique hruns, rfl, hmoved.congr fun i ↦ ?_⟩
  rw [hfst, mem_descend_children]

end Children

/-- No NFA is its own ancestor, and children have the owner of their parent. -/
structure Forest (s : State) : Prop where
  acyclic : Acyclic s.parentOf
  owners : ∀ i p, s.parentOf i = some p → ∃ owner, s.ownerOf p = some owner ∧ s.ownerOf i = some owner

section Fits

/-- The parent is neither the child nor below it, and they have one owner. -/
def State.MayJoin (s : State) (parent child : ℕ) : Prop :=
  ¬ReflTransGen (Under s.parentOf) parent child ∧ s.ownerOf parent = s.ownerOf child

/-- The neighbours of an NFA in the tree belong to the account. -/
def State.Surrounded (s : State) (id account : ℕ) : Prop :=
  ∀ i, s.parentOf i = some id ∨ s.parentOf id = some i → s.ownerOf i = some account

/-- The condition on a creation that comes to its end. -/
def State.MayPlace (s : State) (id : ℕ) : Target → Prop
  | .actor a => ¬ReflTransGen (Under s.parentOf) a id ∧
      ∀ i, s.parentOf i = some id → s.ownerOf i = s.ownerOf a
  | .account account => s.Surrounded id account
  | .mark receiver => s.Surrounded id receiver
  | .newActor => True
  | .newZone => True

/-- What the calls that attach an NFA, or give a new one its place, leave unchecked. -/
def Fits (s : State) (op : Op) : Prop :=
  (∀ parent child, op.attaches = some (parent, child) → s.MayJoin parent child) ∧
    (op = .finish → ∀ id target rest, s.creations = (id, target) :: rest → s.MayPlace id target)

end Fits

section Steps

theorem Forest.congr (h : Forest s) (hparent : ∀ i, t.parentOf i = s.parentOf i)
    (howner : ∀ i, t.ownerOf i = s.ownerOf i) : Forest t where
  acyclic := by
    rw [show t.parentOf = s.parentOf from funext hparent]
    exact h.acyclic
  owners i p hp := by
    rw [hparent] at hp
    rw [howner, howner]
    exact h.owners i p hp

theorem Forest.congr_nfas (h : Forest s) (hn : ∀ i : ℕ, t.nfas[i]? = s.nfas[i]?) : Forest t :=
  h.congr (fun i ↦ by rw [State.parentOf, State.parentOf, hn])
    fun i ↦ by rw [State.ownerOf, State.ownerOf, hn]

theorem Forest.parent_ne (h : Forest s) (hp : s.parentOf i = some p) : i ≠ p := by
  rintro rfl
  exact h.acyclic i (.single hp)

/-- Where each NFA goes with its parent, all owners can change. -/
theorem Forest.reowned {P : ℕ → Prop} (h : Forest s) (ht : Reowned P owner s t)
    (hP : ∀ i p, s.parentOf i = some p → (P i ↔ P p)) : Forest t where
  acyclic := by
    rw [show t.parentOf = s.parentOf from funext ht.parentOf]
    exact h.acyclic
  owners i p hp := by
    rw [ht.parentOf] at hp
    obtain ⟨o, hop, hoi⟩ := h.owners i p hp
    by_cases hi : P i
    · rw [ht.ownerOf hi, ht.ownerOf ((hP i p hp).mp hi), hop, hoi]
      exact ⟨owner, rfl, rfl⟩
    · rw [ht.ownerOf_kept hi, ht.ownerOf_kept fun hpp ↦ hi ((hP i p hp).mpr hpp)]
      exact ⟨o, hop, hoi⟩

theorem below_iff_parent (hroot : s.parentOf id = none) (hp : s.parentOf i = some p) :
    i = id ∨ s.Below id i ↔ p = id ∨ s.Below id p := by
  have hne : i ≠ id := by
    rintro rfl
    rw [hroot] at hp
    cases hp
  rw [or_iff_right hne, State.Below, TransGen.head'_iff]
  constructor
  · rintro ⟨q, hq, hpath⟩
    cases hp.symm.trans hq
    exact (reflTransGen_iff_eq_or_transGen.mp hpath).imp_left Eq.symm
  · rintro (rfl | hbelow)
    · exact ⟨p, hp, .refl⟩
    · exact ⟨p, hp, hbelow.to_reflTransGen⟩

/-- A new owner, among neighbours of the same account. -/
theorem Forest.setOwner (h : Forest s) (hparent : ∀ n, (f n).parent = n.parent)
    (howner : ∀ n, (f n).ownerAccount = owner) (hs : s.Surrounded id owner) :
    Forest (s.modifyNfa id f) where
  acyclic := by
    rw [show (s.modifyNfa id f).parentOf = s.parentOf from funext fun i ↦ parentOf_modifyNfa hparent]
    exact h.acyclic
  owners i p hp := by
    rw [parentOf_modifyNfa hparent] at hp
    obtain ⟨o, hop, hoi⟩ := h.owners i p hp
    by_cases hi : i = id
    · subst hi
      rw [ownerOf_modifyNfa_ne (h.parent_ne hp).symm, ownerOf_modifyNfa_self howner, hoi]
      exact ⟨owner, hs p (.inr hp), rfl⟩
    · rw [ownerOf_modifyNfa_ne hi]
      by_cases hpid : p = id
      · subst hpid
        rw [ownerOf_modifyNfa_self howner, hop]
        exact ⟨owner, rfl, hs i (.inl hp)⟩
      · rw [ownerOf_modifyNfa_ne hpid]
        exact ⟨o, hop, hoi⟩

/-- A new parent of the same owner, that is not below the NFA. -/
theorem Forest.join (h : Forest s) {n : Nfa} (hn : s.nfas[id]? = some n)
    (hparent : (f n).parent = some p) (howner : (f n).ownerAccount = owner)
    (hp : s.ownerOf p = some owner) (hnot : ¬ReflTransGen (Under s.parentOf) p id)
    (hchildren : ∀ i, s.parentOf i = some id → s.ownerOf i = some owner) :
    Forest (s.modifyNfa id f) where
  acyclic := h.acyclic.relink ((parentOf_modifyNfa_self hn).trans hparent)
    (fun _ ↦ parentOf_modifyNfa_ne) hnot
  owners i q hq := by
    have hne : p ≠ id := fun heq ↦ hnot (heq ▸ .refl)
    have hid : (s.modifyNfa id f).ownerOf id = some owner := by
      rw [State.ownerOf, nfas_modifyNfa, if_pos rfl, hn]
      exact congrArg some howner
    by_cases hi : i = id
    · subst hi
      rw [parentOf_modifyNfa_self hn, hparent] at hq
      cases hq
      exact ⟨owner, (ownerOf_modifyNfa_ne hne).trans hp, hid⟩
    · rw [parentOf_modifyNfa_ne hi] at hq
      rw [ownerOf_modifyNfa_ne hi]
      by_cases hqid : q = id
      · subst hqid
        exact ⟨owner, hid, hchildren i hq⟩
      · rw [ownerOf_modifyNfa_ne hqid]
        exact h.owners i q hq

theorem Forest.leave (h : Forest s) (hparent : ∀ n, (f n).parent = none)
    (howner : ∀ n, (f n).ownerAccount = n.ownerAccount) : Forest (s.modifyNfa id f) := by
  have hsub (i p : ℕ) (hp : (s.modifyNfa id f).parentOf i = some p) : s.parentOf i = some p := by
    by_cases hi : i = id
    · subst hi
      rw [State.parentOf, nfas_modifyNfa, if_pos rfl] at hp
      obtain ⟨m, hm, hmp⟩ := Option.bind_eq_some_iff.mp hp
      obtain ⟨n, -, rfl⟩ := Option.map_eq_some_iff.mp hm
      rw [hparent] at hmp
      cases hmp
    · rwa [parentOf_modifyNfa_ne hi] at hp
  exact ⟨h.acyclic.mono hsub, fun i p hp ↦ by
    rw [ownerOf_modifyNfa howner, ownerOf_modifyNfa howner]
    exact h.owners i p (hsub i p hp)⟩

end Steps

section Run

theorem forest_effect (h : Forest s) (he : Effect s op t) (hfits : Fits s op) : Forest t := by
  have hplace {id : ℕ} {target : Target} {rest : List (ℕ × Target)} (hop : op = .finish)
      (hs : s.creations = (id, target) :: rest) : s.MayPlace id target := hfits.2 hop id target rest hs
  cases he with
  | createSymbol => exact h.congr_nfas fun _ ↦ rfl
  | authority => exact h.congr_nfas fun _ ↦ rfl
  | authorityNfaSymbol => exact h.congr_nfas fun _ ↦ rfl
  | create =>
    refine ⟨fun i hi ↦ h.acyclic i ?_, fun i p hp ↦ ?_⟩
    · refine TransGen.mono (fun a b hab ↦ ?_) i i hi
      exact (parentOf_append rfl rfl).symm.trans hab
    · rw [parentOf_append rfl rfl] at hp
      obtain ⟨o, hop, hoi⟩ := h.owners i p hp
      exact ⟨o, ownerOf_append rfl hop, ownerOf_append rfl hoi⟩
  | @finishActor id a rest n hs hn =>
    obtain ⟨hnot, hchildren⟩ := hplace rfl hs
    have howner : s.ownerOf a = some n.ownerAccount := by rw [State.ownerOf, hn, Option.map_some]
    have hforest : Forest { s with creations := rest } := h.congr_nfas fun _ ↦ rfl
    cases hid : s.nfas[id]? with
    | none =>
      refine hforest.congr_nfas fun i ↦ ?_
      rw [nfas_modifyNfa]
      split
      · next heq => rw [← heq, hid, Option.map_none]
      · rfl
    | some m => exact hforest.join hid rfl rfl howner hnot fun i hi ↦ (hchildren i hi).trans howner
  | finishAccount hs =>
    exact Forest.setOwner (h.congr_nfas fun _ ↦ rfl) (fun _ ↦ rfl) (fun _ ↦ rfl) (hplace rfl hs)
  | @finishMark id receiver rest hs =>
    have hforest : Forest { s with creations := rest } := h.congr_nfas fun _ ↦ rfl
    have hplaced : Forest (({ s with creations := rest }).modifyNfa id (Nfa.setOwner receiver)) :=
      hforest.setOwner (fun _ ↦ rfl) (fun _ ↦ rfl) (hplace rfl hs)
    exact hplaced.congr_nfas fun _ ↦ rfl
  | finishNewActor hs =>
    exact h.congr (fun _ ↦ parentOf_modifyNfa fun _ ↦ rfl) fun _ ↦ ownerOf_modifyNfa fun _ ↦ rfl
  | finishNewZone hs => exact h.congr_nfas fun _ ↦ rfl
  | abort => exact h.congr_nfas fun _ ↦ rfl
  | transfer hn howner hparent hsbt ht =>
    refine h.reowned ht fun i p hp ↦ below_iff_parent ?_ hp
    rw [State.parentOf, hn]
    exact hparent
  | approve => exact h.congr (fun _ ↦ parentOf_modifyNfa fun _ ↦ rfl) fun _ ↦ ownerOf_modifyNfa fun _ ↦ rfl
  | @attach _ parent child p c hop hp hc hnone =>
    obtain ⟨hnot, howner⟩ := hfits.1 parent child hop
    have hchild : s.ownerOf child = some c.ownerAccount := by rw [State.ownerOf, hc, Option.map_some]
    refine h.join hc rfl rfl (howner.trans hchild) hnot fun i hi ↦ ?_
    obtain ⟨o, hop, hoi⟩ := h.owners i child hi
    rw [hoi, ← hop, hchild]
  | remove => exact h.leave (fun _ ↦ rfl) fun _ ↦ rfl
  | destroy hn howner hparent hchildren =>
    refine h.setOwner (fun _ ↦ rfl) (fun _ ↦ rfl) fun i hi ↦ ?_
    rcases hi with hi | hi
    · rw [← mem_children, hchildren] at hi
      cases hi
    · rw [State.parentOf, hn] at hi
      cases hparent.symm.trans hi
  | revoke hx ht =>
    have hreowned := h.reowned ht fun i p hp ↦ by
      obtain ⟨o, hop, hoi⟩ := h.owners i p hp
      rw [mem_ownedBy, mem_ownedBy, hop, hoi]
    exact hreowned.congr_nfas fun _ ↦ rfl

theorem forest_genesis : Forest genesis := by
  have hroot : ∀ i, genesis.parentOf i = none := parentOf_eq_none (by decide)
  refine ⟨fun i hi ↦ ?_, fun i p hp ↦ ?_⟩
  · obtain ⟨p, hp, -⟩ := TransGen.head'_iff.mp hi
    exact nomatch (hroot i).symm.trans hp
  · exact nomatch (hroot i).symm.trans hp

/-- The NFAs stay a forest, in which children have the owner of their parent, as long as an NFA
is only attached to one of the same owner that is not below it. -/
theorem forest_of_reaches (h : Reaches Fits genesis s) : Forest s := by
  induction h with
  | start => exact forest_genesis
  | call op _ hfits hop ih => exact forest_effect ih (exec_effect hop) hfits

/-- The first siming has a new NFA on its way to itself. -/
def placing : State :=
  { genesis with
    symbols := genesis.symbols ++
      [{ symbol := "nfa.a", authorityAccount := initSiming, count := 1, maxCount := 10, isSbt := false }]
    nfas := genesis.nfas ++
      [{ ownerAccount := initSiming, activeAccount := initSiming, symbolId := 3 }]
    creations := [(1, .account initSiming)] }

/-- The new NFA is placed, and the mark of the first siming is attached to it. -/
theorem forest_of_mark_attached : ∃ s, s.parentOf 0 = some 1 ∧ Forest s := by
  have hcreate : Reaches Fits genesis placing := by
    refine .call (.createNfaToAccount initSiming initSiming "nfa.a") (.call
      (.createNfaSymbol initSiming "nfa.a" 10 false) .start ⟨nofun, nofun⟩ rfl) ⟨nofun, nofun⟩ ?_
    decide +kernel
  have hplace : Fits placing .finish := by
    refine ⟨nofun, fun _ id target rest hs ↦ ?_⟩
    cases hs
    have hroot : ∀ i, placing.parentOf i = none := parentOf_eq_none (by decide)
    intro i hi
    rw [hroot, hroot] at hi
    exact hi.elim nofun nofun
  have hjoin : Fits { placing with creations := [] } (.addChild initSiming 1 0) := by
    refine ⟨fun parent child hop ↦ ?_, nofun⟩
    cases hop
    refine ⟨fun hpath ↦ ?_, by decide⟩
    have hroot : ∀ i, ({ placing with creations := [] } : State).parentOf i = none :=
      parentOf_eq_none (by decide)
    obtain ⟨p, hp, -⟩ := (reflTransGen_iff_eq_or_transGen.mp hpath).resolve_left (by decide) |>
      TransGen.head'_iff.mp
    exact nomatch (hroot 1).symm.trans hp
  have hreaches := (hcreate.call (t := { placing with creations := [] }) .finish hplace rfl).call
    (t := ({ placing with creations := [] } : State).modifyNfa 0 ({ · with parent := some 1 }))
    (.addChild initSiming 1 0) hjoin (by decide)
  exact ⟨_, by decide, forest_of_reaches hreaches⟩

/-- It attaches its mark to itself. -/
theorem not_forest_of_self_attached :
    ¬∀ s, Reaches (fun _ _ ↦ True) genesis s → Forest s := by
  intro h
  have hreaches : Reaches (fun _ _ ↦ True) genesis (genesis.modifyNfa 0 ({ · with parent := some 0 })) :=
    .call (.addChild initSiming 0 0) .start trivial (by decide)
  have hself : (genesis.modifyNfa 0 ({ · with parent := some 0 })).parentOf 0 = some 0 := by decide
  exact (h _ hreaches).acyclic 0 (.single hself)

end Run

end Taiyi.Nfas
