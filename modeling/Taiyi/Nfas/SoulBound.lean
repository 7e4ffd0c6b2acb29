import Taiyi.Nfas.Effects

set_option autoImplicit false

namespace Taiyi.Nfas

variable {s s₀ t : State} {op : Op} {id owner : ℕ}

/-- The symbol of the NFA is marked SBT. -/
def State.SoulBound (s : State) (id : ℕ) : Prop :=
  ∃ n y, s.nfas[id]? = some n ∧ s.symbols[n.symbolId]? = some y ∧ y.isSbt = true

theorem soulBound_persists (h : s.SoulBound id) (hp : Persists s t) : t.SoulBound id := by
  obtain ⟨n, y, hn, hy, hsbt⟩ := h
  obtain ⟨n', hn', hid⟩ := hp.nfas id n hn
  obtain ⟨y', hy', -, -, hsbt'⟩ := hp.symbols _ y hy
  exact ⟨n', y', hn', by rw [hid, hy'], hsbt'.trans hsbt⟩

/-- The other calls that give an NFA to another account: the mark is revoked, or it is destroyed. -/
def Op.takes : Op → Bool
  | .revokeXinsu .. => true
  | .destroy .. => true
  | _ => false

/-- What a transfer leaves unchecked: a soul-bound NFA below the one that it names stays with its
owner only where this is the receiver. -/
def Spares (s : State) (op : Op) : Prop :=
  ∀ sender receiver id, op = .transferNfa sender receiver id →
    ∀ i, s.Below id i → s.SoulBound i → s.ownerOf i = some receiver

/-- A soul-bound NFA of an account, whose creation is over. -/
structure Bound (s : State) (id owner : ℕ) : Prop where
  soulBound : s.SoulBound id
  owner : s.ownerOf id = some owner
  settled : ∀ c ∈ s.creations, c.1 ≠ id

theorem ownerOf_effect (h : Bound s id owner) (he : Effect s op t) (hop : op.takes = false)
    (hs : Spares s op) : t.ownerOf id = some owner := by
  have hne {c : ℕ × Target} {rest : List (ℕ × Target)} (hcr : s.creations = c :: rest) : id ≠ c.1 :=
    (h.settled c (hcr ▸ List.mem_cons_self)).symm
  cases he with
  | createSymbol => exact h.owner
  | authority => exact h.owner
  | authorityNfaSymbol => exact h.owner
  | create => exact ownerOf_append rfl h.owner
  | finishActor hcr => exact (ownerOf_modifyNfa_ne (hne hcr)).trans h.owner
  | finishAccount hcr => exact (ownerOf_modifyNfa_ne (hne hcr)).trans h.owner
  | finishMark hcr => exact (ownerOf_modifyNfa_ne (hne hcr)).trans h.owner
  | finishNewActor hcr => exact (ownerOf_modifyNfa_ne (hne hcr)).trans h.owner
  | finishNewZone => exact h.owner
  | abort => exact h.owner
  | @transfer sender receiver root n t hn howner hparent hsbt ht =>
    by_cases hmoved : id = root ∨ s.Below root id
    · rw [ht.ownerOf hmoved, h.owner]
      rcases hmoved with rfl | hbelow
      · -- the NFA named in the call is tested
        obtain ⟨m, y, hm, hy, hbound⟩ := h.soulBound
        cases hn.symm.trans hm
        rw [hsbt y hy] at hbound
        cases hbound
      · have := hs sender receiver root rfl id hbelow h.soulBound
        rw [h.owner] at this
        exact this.symm
    · rw [ht.ownerOf_kept hmoved, h.owner]
  | approve =>
    rw [ownerOf_modifyNfa, h.owner]
    exact fun _ ↦ rfl
  | attach =>
    rw [ownerOf_modifyNfa, h.owner]
    exact fun _ ↦ rfl
  | remove =>
    rw [ownerOf_modifyNfa, h.owner]
    exact fun _ ↦ rfl
  | destroy => cases hop
  | revoke => cases hop

theorem settled_effect (h : Bound s id owner) (he : Effect s op t) : ∀ c ∈ t.creations, c.1 ≠ id := by
  have hrest {c : ℕ × Target} {rest : List (ℕ × Target)} (hcr : s.creations = c :: rest) :
      ∀ d ∈ rest, d.1 ≠ id := fun d hd ↦ h.settled d (hcr ▸ List.mem_cons_of_mem c hd)
  cases he with
  | create =>
    refine List.forall_mem_cons.mpr ⟨fun heq ↦ ?_, h.settled⟩
    have hnone : s.ownerOf id = none := by
      rw [← heq, State.ownerOf, List.getElem?_eq_none (Nat.le_refl _), Option.map_none]
    rw [h.owner] at hnone
    cases hnone
  | finishActor hcr => exact hrest hcr
  | finishAccount hcr => exact hrest hcr
  | finishMark hcr => exact hrest hcr
  | finishNewActor hcr => exact hrest hcr
  | finishNewZone hcr => exact hrest hcr
  | abort hcr => exact hrest hcr
  | transfer hn howner hparent hsbt ht =>
    rw [ht.creations]
    exact h.settled
  | revoke hx ht =>
    change ∀ c ∈ State.creations _, _
    rw [ht.creations]
    exact h.settled
  | _ => exact h.settled

theorem bound_effect (h : Bound s id owner) (he : Effect s op t) (hop : op.takes = false)
    (hs : Spares s op) : Bound t id owner :=
  ⟨soulBound_persists h.soulBound (persists_effect he), ownerOf_effect h he hop hs, settled_effect h he⟩

/-- A soul-bound NFA stays with its account over transfers, attaching and detaching, as long as no
transfer names an NFA that it is below. -/
theorem ownerOf_of_reaches (h : Reaches (fun s op ↦ op.takes = false ∧ Spares s op) s₀ t)
    (hbound : Bound s₀ id owner) : t.ownerOf id = some owner := by
  have hrun : Bound t id owner := by
    induction h with
    | start => exact hbound
    | call op _ ha hop ih => exact bound_effect ih (exec_effect hop) ha.1 ha.2
  exact hrun.owner

theorem bound_owning : Bound owning 0 initSiming := ⟨⟨_, _, rfl, rfl, rfl⟩, rfl, nofun⟩

/-- The mark of the first siming stays where its other NFA is transferred. -/
theorem ownerOf_mark_owning :
    (owning.modifyNfa 1 (Nfa.setOwner 5)).ownerOf 0 = some initSiming := by
  have hspares : Spares owning (.transferNfa initSiming 5 1) := by
    intro sender receiver id hop i hbelow _
    cases hop
    obtain ⟨p, hp, -⟩ := Relation.TransGen.head'_iff.mp hbelow
    have hroot : ∀ i, owning.parentOf i = none := parentOf_eq_none (by decide)
    exact nomatch (hroot i).symm.trans hp
  exact ownerOf_of_reaches
    (.call (.transferNfa initSiming 5 1) .start ⟨rfl, hspares⟩ (by decide +kernel)) bound_owning

/-- Attached to that NFA, it goes with it to account 5. -/
theorem mark_transferred : ¬∀ s₀ t id owner, Reaches (fun _ _ ↦ True) genesis s₀ → Bound s₀ id owner →
    Reaches (fun _ op ↦ op.takes = false) s₀ t → t.ownerOf id = some owner := by
  intro h
  let attached : State := owning.modifyNfa 0 ({ · with parent := some 1 })
  let transferred : State := (attached.modifyNfa 1 (Nfa.setOwner 5)).modifyNfa 0 (Nfa.setOwner 5)
  have hattach : owning.exec (.addChild initSiming 1 0) = .ok attached := by decide +kernel
  have htransfer : attached.exec (.transferNfa initSiming 5 1) = .ok transferred := by decide +kernel
  have hreaches : Reaches (fun _ op ↦ op.takes = false) owning transferred :=
    .call _ (.call _ .start rfl hattach) rfl htransfer
  have howner := h owning transferred 0 initSiming (reaches_owning fun _ _ ↦ trivial) bound_owning hreaches
  exact absurd howner (by decide +kernel)

end Taiyi.Nfas
