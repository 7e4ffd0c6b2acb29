import Taiyi.Ledger.Cleaning
import Taiyi.Ledger.Frames

set_option autoImplicit false

namespace Taiyi.Ledger

open Library.IdMap Library.Outcome Library.Frame

section Grow

variable {s t : State}

/-- NFAs are never removed, and the fund stays. -/
structure Grows (s t : State) : Prop where
  exist : ∀ id, Exists s id → Exists t id
  cultivations : t.cultivations = s.cultivations
  head : t.props.headBlockNumber = s.props.headBlockNumber
  fund : (s.funds[cultivationFund]?).isSome → (t.funds[cultivationFund]?).isSome

instance : IsPreorder State Grows where
  refl _ := ⟨fun _ ↦ id, rfl, rfl, id⟩
  trans _ _ _ h h' :=
    ⟨fun id ↦ h'.exist id ∘ h.exist id, h'.cultivations.trans h.cultivations,
      h'.head.trans h.head, h'.fund ∘ h.fund⟩

theorem Same.grows (h : Same grounds s t) : Grows s t where
  exist _ := (exists_congr_world (congrArg Prod.fst h)).mpr
  cultivations := congrArg (fun g ↦ g.2.1) h
  head := head_of_world (congrArg Prod.fst h)
  fund hf := (congrArg (fun g ↦ g.2.2) h).trans hf

theorem Kept.mono {c : Cultivation} (hc : Kept s c) (h : Grows s t) : Kept t c where
  participants p hp := h.exist p (hc.participants p hp)
  beneficiaries b hb := h.exist b.1 (hc.beneficiaries b hb)
  nonempty := hc.nonempty
  started := h.head ▸ hc.started

theorem Sound.mono (hs : Sound s) (h : Grows s t) : Sound t where
  kept cult c hc := (hs.kept cult c (h.cultivations ▸ hc)).mono h
  head := h.head ▸ hs.head
  fund := h.fund hs.fund

theorem sound_of_rests {α : Type} {x : Call α} (h : Rests x) : Moves (Holds Sound) x :=
  h.mono fun _ _ hst hs ↦ hs.mono (Same.grows hst)

/-- A cultivation is put in the place of another. -/
theorem Sound.insert {cult : ℕ} {c : Cultivation} (hs : Sound s) (hc : Kept s c) :
    Sound { s with cultivations := s.cultivations.insert cult c } where
  kept b d hd := by
    change (s.cultivations.insert cult c)[b]? = some d at hd
    rw [getElem?_insert] at hd
    split at hd
    · cases hd
      exact ⟨hc.participants, hc.beneficiaries, hc.nonempty, hc.started⟩
    · have hk := hs.kept b d hd
      exact ⟨hk.participants, hk.beneficiaries, hk.nonempty, hk.started⟩
  head := hs.head
  fund := hs.fund

theorem Sound.erase {cult : ℕ} (hs : Sound s) :
    Sound { s with cultivations := s.cultivations.erase cult } where
  kept b d hd := by
    change (s.cultivations.erase cult)[b]? = some d at hd
    rw [getElem?_erase] at hd
    split at hd
    · cases hd
    · have hk := hs.kept b d hd
      exact ⟨hk.participants, hk.beneficiaries, hk.nonempty, hk.started⟩
  head := hs.head
  fund := hs.fund

theorem sound_modifyCultivation {cult : ℕ} {f : Cultivation → Cultivation}
    (h : ∀ c, s.cultivations[cult]? = some c → Kept s c → Kept s (f c)) :
    Holds Sound s (after (modifyCultivation cult f) s) :=
  modifyIn_at fun c hc hs ↦ hs.insert (h c hc (hs.kept cult c hc))

end Grow

section Calls

variable {caller cult nfa : ℕ}

theorem moves_modifyNfa {f : Nfa → Nfa} : Moves Grows (modifyNfa nfa f) :=
  moves_modifyIn fun s n hn ↦
    { exist := fun id ⟨m, hm⟩ ↦ by
        change ∃ n', (s.nfas.insert nfa (f n))[id]? = some n'
        rw [getElem?_insert]
        split
        · exact ⟨_, rfl⟩
        · exact ⟨m, hm⟩
      cultivations := rfl
      head := rfl
      fund := id }

theorem sound_createNfa {creator minQi : ℕ} {ok : Bool} :
    Moves (Holds Sound) (createNfa nfa creator minQi ok) := by
  have hg : Moves Grows (createNfa nfa creator minQi ok) :=
    .bind .get fun _ ↦ .bind moves_require fun _ ↦ .bind (.update fun s ↦
      { exist := fun id ⟨m, hm⟩ ↦ by
          change ∃ n', (s.nfas.insert nfa _)[id]? = some n'
          rw [getElem?_insert]
          split
          · exact ⟨_, rfl⟩
          · exact ⟨m, hm⟩
        cultivations := rfl
        head := rfl
        fund := id }) fun _ ↦ .bind moves_require fun _ ↦ moves_modifyNfa
  exact hg.mono fun _ _ hst hs ↦ hs.mono hst

theorem exists_of_getNfa {s : State} {n : Nfa} (h : (getNfa nfa).run s = .ok n s) : Exists s nfa :=
  ⟨n, (getNfa_ok.mp h).1⟩

theorem sound_participate {value : ℕ} :
    Moves (Holds Sound) (participateCultivation caller cult nfa value) := by
  intro s
  refine Moves.read_at moves_getCultivation fun c hc ↦ ?_
  refine Moves.read_at moves_require fun _ _ ↦ ?_
  refine Moves.read_at moves_requireOperator fun _ _ ↦ ?_
  refine Moves.read_at moves_getNfa fun n hn ↦ ?_
  refine Moves.read_at moves_require fun _ _ ↦ ?_
  refine Moves.read_at moves_require fun _ _ ↦ ?_
  refine Moves.read_at moves_require fun _ _ ↦ ?_
  refine Moves.bind_at (sound_modifyCultivation fun c _ hk ↦ ?_) fun _ t _ ↦
    (?_ : Moves (Holds Sound) _) t
  case refine_2 =>
    exact .bind (moves_modifyNfa.mono fun _ _ h hs ↦ hs.mono h) fun _ ↦
      sound_of_rests (rests_modifyProps fun _ ↦ rfl)
  refine ⟨fun p hp ↦ ?_, hk.beneficiaries, hk.nonempty, hk.started⟩
  rcases Std.ExtTreeSet.mem_insert.mp (Std.ExtTreeSet.mem_toList.mp hp) with he | hp
  · rw [Nat.compare_eq_eq] at he
    exact he ▸ exists_of_getNfa hn
  · exact hk.participants p (Std.ExtTreeSet.mem_toList.mpr hp)

theorem sound_start : Moves (Holds Sound) (startCultivation caller cult) := by
  intro s
  refine Moves.read_at moves_getCultivation fun c hc ↦ ?_
  refine Moves.read_at moves_requireOperator fun _ _ ↦ ?_
  refine Moves.read_at moves_require fun _ _ ↦ ?_
  refine Moves.read_at moves_require fun _ _ ↦ ?_
  refine Moves.read_at .get fun s' hs' ↦ ?_
  cases hs'
  exact sound_modifyCultivation fun c _ hk ↦
    ⟨hk.participants, hk.beneficiaries, hk.nonempty, .inr le_rfl⟩

theorem sound_create {managerNfa prepareTimeBlocks : ℕ} {entries : List (ℕ × ℤ)} :
    Moves (Holds Sound) (createCultivation caller cult managerNfa entries prepareTimeBlocks) := by
  intro s
  refine Moves.read_at moves_requireOperator fun _ _ ↦ ?_
  refine Moves.read_at (.forM fun _ _ ↦ .bind moves_getNfa fun _ ↦ moves_require) fun _ _ ↦ ?_
  refine Moves.read_at moves_require fun _ _ ↦ ?_
  refine Moves.read_at moves_require fun _ _ ↦ ?_
  refine Moves.read_at (.forM fun _ _ ↦ .bind moves_getNfa fun _ ↦ moves_require) fun _ hall ↦ ?_
  refine Moves.read_at moves_require fun _ hsum ↦ ?_
  refine Moves.read_at .get fun s' hs' ↦ ?_
  cases hs'
  refine Moves.read_at moves_require fun _ _ ↦ fun hs ↦ hs.insert ⟨?_, ?_, ?_, .inl rfl⟩
  · exact fun p hp ↦ nomatch hp
  · intro b hb
    obtain ⟨-, h⟩ := Keeps.forM_all (fun _ ↦ .bind keeps_getNfa fun _ ↦ keeps_require) hall
    obtain ⟨n, _, hn, -⟩ := bind_ok.mp (h b hb)
    exact ⟨n, (getNfa_ok.mp hn).1⟩
  · intro hnil
    obtain ⟨hsum, -⟩ := require_ok.mp hsum
    change (beneficiaryMap entries).toList = [] at hnil
    rw [shareSum, hnil] at hsum
    cases hsum

end Calls

section Settling

variable {hash : ℕ → ℕ} {caller cult seed : ℕ}

/-- A change of a cultivation that has no more participants and is as started as before. -/
theorem sound_modify {f : Cultivation → Cultivation}
    (h : ∀ c, ((f c).participants = c.participants ∨ (f c).participants = ∅) ∧
      (f c).beneficiaryMap = c.beneficiaryMap ∧
      ((f c).startTime = c.startTime ∨ (f c).startTime = maximum)) :
    Moves (Holds Sound) (modifyCultivation cult f) := by
  intro s
  refine sound_modifyCultivation fun c _ hk ↦ ?_
  obtain ⟨hp, hb, hst⟩ := h c
  refine ⟨?_, hb ▸ hk.beneficiaries, hb ▸ hk.nonempty, ?_⟩
  · intro p hm
    rcases hp with hp | hp
    · exact hk.participants p (hp ▸ hm)
    · rw [hp] at hm
      cases hm
  · rcases hst with hst | hst
    · exact hst ▸ hk.started
    · exact .inl hst

theorem sound_update : Moves (Holds Sound) (updateCultivation hash cult seed) := by
  refine .bind moves_getCultivation fun _ ↦ .bind moves_require fun _ ↦ .bind .get fun _ ↦
    .bind moves_require fun _ ↦ .ite (fun _ ↦ ?_) fun _ ↦ .pure _
  refine .bind moves_zoneOfActor fun _ ↦ .bind moves_energy fun _ ↦
    .bind moves_gatherParticipants fun _ ↦ .bind moves_efficiency fun _ ↦ .ite (fun _ ↦ ?_)
      fun _ ↦ .pure _
  exact sound_modify fun _ ↦ ⟨.inl rfl, rfl, .inl rfl⟩

theorem grows_returnQi {ps : List ℕ} : Moves Grows (returnQi ps) := by
  induction ps with
  | nil => exact .pure _
  | cons p ps ih =>
    exact .bind moves_getNfa fun _ ↦ .bind moves_modifyNfa fun _ ↦ .bind ih fun _ ↦ .pure _

theorem sound_dissolve : Moves (Holds Sound) (dissolveCultivation cult) := by
  refine .bind moves_getCultivation fun _ ↦
    .bind (grows_returnQi.mono fun _ _ h hs ↦ hs.mono h) fun _ ↦
    .bind (sound_modify fun _ ↦ ⟨.inr rfl, rfl, .inr rfl⟩) fun _ ↦ .ite (fun _ ↦ ?_) fun _ ↦ .pure _
  exact sound_of_rests (rests_modifyProps fun _ ↦ rfl)

theorem rests_payReward {rv : ℤ} {shares : List (ℕ × ℕ)} : Rests (payReward rv shares) := by
  refine .ite (fun _ ↦ .bind ?_ fun _ ↦ .bind rests_modifyFund fun _ ↦
    rests_modifyProps fun _ ↦ rfl) fun _ ↦ .pure _
  refine .bind (.forM fun _ _ ↦ frames_adjustNfaBalance) fun _ ↦ .ite (fun _ ↦ ?_) fun _ ↦ .pure _
  split
  · exact frames_adjustNfaBalance
  · exact .throw _

theorem sound_stop : Moves (Holds Sound) (stopCultivation hash cult seed) :=
  .bind sound_update fun _ ↦ .bind moves_getCultivation fun _ ↦ .bind .get fun _ ↦
    .bind moves_lookup fun _ ↦ .bind (sound_of_rests rests_payReward) fun _ ↦ sound_dissolve

theorem sound_remove : Moves (Holds Sound) (removeCultivation cult) := .update fun _ hs ↦ hs.erase

theorem sound_stopAndClose :
    Moves (Holds Sound) (stopAndCloseCultivation hash caller cult seed) := by
  refine .bind moves_getCultivation fun _ ↦ .bind moves_requireOperator fun _ ↦
    .ite (fun _ ↦ ?_) fun _ ↦ ?_
  · exact .bind sound_stop fun _ ↦ sound_remove
  · exact .bind sound_dissolve fun _ ↦ sound_remove

theorem sound_stopExpired {turns : ℕ} {iter : Option (ℕ × Cultivation)} :
    Moves (Holds Sound) (stopExpired hash seed turns iter) := by
  induction turns generalizing iter with
  | zero => exact .pure _
  | succ turns ih =>
    cases iter with
    | none => exact .pure _
    | some row =>
      exact .bind .get fun _ ↦ .ite (fun _ ↦ .pure _) fun _ ↦ .bind sound_stop fun _ ↦
        .bind .get fun _ ↦ .bind ih fun _ ↦ .pure _

theorem sound_clean : Moves (Holds Sound) (cleanCultivations hash seed) :=
  .bind .get fun _ ↦ .bind (.forM fun _ _ ↦ sound_dissolve) fun _ ↦ .bind .get fun _ ↦
    .bind sound_stopExpired fun _ ↦ .forM fun _ _ ↦ sound_remove

end Settling

section Run

variable {hash : ℕ → ℕ} {seed : ℕ} {s t : State}

theorem sound_call (c : ContractCall) : Moves (Holds Sound) (c.apply hash) := by
  cases c with
  | transferByContract => exact sound_of_rests frames_transferByContract
  | transferNfaByContract => exact sound_of_rests frames_transferNfaByContract
  | withdrawByContract => exact sound_of_rests frames_withdrawByContract
  | depositByContract => exact sound_of_rests frames_depositByContract
  | convertQiToResource => exact sound_of_rests frames_convertQiToResource
  | convertResourceToQi => exact sound_of_rests frames_convertResourceToQi
  | injectMaterial => exact sound_of_rests frames_injectMaterial
  | separateMaterial => exact sound_of_rests frames_separateMaterial
  | takeQi => exact sound_of_rests frames_takeQi
  | chargeInCall => exact sound_of_rests frames_chargeInCall
  | consumeMaterial => exact sound_of_rests frames_consumeNfaMaterialRandom
  | createNfa => exact sound_createNfa
  | createCultivation => exact sound_create
  | participateCultivation => exact sound_participate
  | startCultivation => exact sound_start
  | stopAndCloseCultivation => exact sound_stopAndClose
  | updateCultivation =>
    exact .bind moves_getCultivation fun _ ↦ .bind moves_requireOperator fun _ ↦ sound_update

theorem sound_routine (r : Routine) : Moves (Holds Sound) (r.apply hash) := by
  cases r with
  | processFunds => exact sound_of_rests frames_processFunds
  | processQiWithdrawals =>
    exact .bind .get fun _ ↦ sound_of_rests frames_withdrawFrom
  | processDeclineAdoringRights =>
    exact .bind .get fun _ ↦ .forM fun _ _ ↦ sound_of_rests (frames_declineAccount rests_modifyAccount)
  | cleanCultivations => exact sound_clean
  | payDebt => exact sound_of_rests frames_payDebt
  | chargeTick => exact sound_of_rests frames_chargeTick
  | chargeProposal => exact sound_of_rests frames_chargeProposal

theorem grows_call {α : Type} {x : Call α} (h : Moves Grows x) : Moves (Holds Sound) x :=
  h.mono fun _ _ hst hs ↦ hs.mono hst

theorem sound_headBlock {number time siming virtualTime : ℕ} :
    Moves (Holds Sound) (Outside.headBlock number time siming virtualTime).apply := by
  intro s
  refine Moves.read_at .get fun s' hs' ↦ ?_
  cases hs'
  refine Moves.read_at moves_require fun _ hr ↦ fun hs ↦ ?_
  obtain ⟨⟨hle, hlt⟩, -⟩ := require_ok.mp hr
  refine ⟨fun cult c hc ↦ ?_, hlt, hs.fund⟩
  have hk := hs.kept cult c hc
  exact ⟨hk.participants, hk.beneficiaries, hk.nonempty, hk.started.imp_right (·.trans hle)⟩

theorem sound_outside (o : Outside) : Moves (Holds Sound) o.apply := by
  cases o with
  | headBlock => exact sound_headBlock
  | changeOwner => exact grows_call moves_modifyNfa
  | setTick => exact grows_call moves_modifyNfa
  | delegateQi => exact sound_of_rests rests_modifyAccount
  | createActor =>
    exact .bind moves_getMaterial fun _ ↦ grows_call (.update fun _ ↦ ⟨fun _ ↦ id, rfl, rfl, id⟩)
  | settleActor =>
    exact .bind .get fun _ ↦ .bind moves_lookup fun _ ↦
      grows_call (moves_modifyIn fun _ _ _ ↦ ⟨fun _ ↦ id, rfl, rfl, id⟩)
  | createZone =>
    exact .bind moves_getMaterial fun _ ↦ grows_call (.update fun _ ↦ ⟨fun _ ↦ id, rfl, rfl, id⟩)

theorem sound_step {act : Action} (hs : Sound s) (h : act.step hash s = some t) : Sound t := by
  have ht := after_of_step h
  cases act with
  | operation o =>
    exact (sound_of_rests (frames_operation o fun _ _ _ ↦ rests_modifyAccount)).ends ht hs
  | contract c => exact ht ▸ sound_call c s hs
  | routine r => exact (sound_routine r).ends ht hs
  | outside o => exact (sound_outside o).ends ht hs

theorem sound_genesis (initSupply initQiSupply : ℕ) : Sound (genesis initSupply initQiSupply) where
  kept cult c hc := by
    change (∅ : Table Cultivation)[cult]? = some c at hc
    simp at hc
  head := (by decide : 0 < maximum)
  fund := rfl

theorem sound_of_reaches {P : State → Action → Prop} {initSupply initQiSupply : ℕ}
    (h : Reaches hash P (genesis initSupply initQiSupply) s) : Sound s := by
  induction h with
  | start => exact sound_genesis initSupply initQiSupply
  | step act _ _ hstep ih => exact sound_step ih hstep

/-- In every run, cleaning up a tidy state returns and misses nothing. -/
theorem cleaned_of_tidy {P : State → Action → Prop} {initSupply initQiSupply seed : ℕ}
    (h : Reaches hash P (genesis initSupply initQiSupply) s) (ht : Tidy s) :
    Cleaned hash seed s := cleaned_of_sound (sound_of_reaches h) ht

/-- A state with one cultivation is tidy when that one can be updated and its fund is small. -/
theorem tidy_of_single {cult : ℕ} {c : Cultivation} {f : RewardFund} (hs : Sound s)
    (hrow : s.cultivations.toList = [(cult, c)])
    (hu : succeeds (updateCultivation hash cult seed) s = true)
    (hf : s.funds[cultivationFund]? = some f)
    (hfit : ∀ b ∈ c.beneficiaryMap.toList, f.rewardQiBalance * b.2 < 2 ^ 63) : Tidy s := by
  have honly : ∀ (b : ℕ) (d : Cultivation), s.cultivations[b]? = some d → b = cult ∧ d = c := by
    intro b d hd
    have hm := (mem_toList _ _ _).mpr hd
    rw [hrow, List.mem_singleton, Prod.mk.injEq] at hm
    exact hm
  refine ⟨fun a b c d hc hd _ _ ↦ ?_, fun b d hb he hlt ↦ ?_, fun b d f' hb he hf' ↦ ?_⟩
  · exact (honly a c hc).1.trans (honly b d hd).1.symm
  · have hd := first_mem hb
    obtain ⟨rfl, rfl⟩ := honly b d hd
    have hle := (hs.kept b d hd).started.resolve_left he.1
    exact (updateCultivation_succeeds hd he.1 hle).mp (ok_of_succeeds hu) hlt
  · obtain ⟨rfl, rfl⟩ := honly b d (first_mem hb)
    cases hf.symm.trans hf'
    exact hfit

end Run

section Example

def settledZone : List Action :=
  [.contract (.createNfa 1 2 0 true), .contract (.createNfa 2 2 0 true),
    .outside (.createActor 0), .outside (.createZone 0 1), .outside (.settleActor 0 0),
    .routine .processFunds]

/-- A cultivation by one NFA that is also its manager. -/
def cultivating (cult nfa : ℕ) : List Action :=
  [.contract (.depositByContract 2 2 nfa 100 .qi),
    .contract (.createCultivation 2 cult 0 [(nfa, 10000)] 20),
    .contract (.participateCultivation 2 cult nfa 100), .contract (.startCultivation 2 cult)]

def cleanedBlock (number : ℕ) : List Action :=
  [.outside (.headBlock number 1762840800 2 0), .routine (.cleanCultivations 0)]

/-- The one cultivation of the state can be updated. -/
def startsFirst (s : State) : Bool :=
  match s.cultivations.toList, s.funds[cultivationFund]? with
  | [r], some f => decide (r.1 = 0) && succeeds (updateCultivation (fun _ ↦ 5000) 0 0) s &&
    decide (∀ b ∈ r.2.beneficiaryMap.toList, f.rewardQiBalance * b.2 < 2 ^ 63)
  | _, _ => false

theorem cleaned_of_tidy_single :
    ∃ s, Reaches (fun _ ↦ 5000) (fun _ _ ↦ True) (genesis 0 100000000) s ∧
      s.cultivations.toList ≠ [] ∧ Cleaned (fun _ ↦ 5000) 0 s := by
  have h : ((runActions (fun _ ↦ 5000) (genesis 0 100000000)
      (settledZone ++ cultivating 0 0 ++ [.outside (.headBlock 201600 1762840800 2 0)])).any
        startsFirst) = true := by
    decide +kernel
  obtain ⟨s, hs, h⟩ := (Option.any_eq_true ..).mp h
  unfold startsFirst at h
  split at h
  · next r f hrow hf =>
    obtain ⟨h, hfit⟩ := Bool.and_eq_true_iff.mp h
    obtain ⟨hzero, hu⟩ := Bool.and_eq_true_iff.mp h
    obtain ⟨cult, c⟩ := r
    obtain rfl : cult = 0 := of_decide_eq_true hzero
    have hreach := reaches_of_runActions hs
    have ht := tidy_of_single (sound_of_reaches hreach) hrow hu hf (of_decide_eq_true hfit)
    exact ⟨s, hreach, hrow ▸ List.cons_ne_nil _ _, cleaned_of_tidy hreach ht⟩
  · cases h

/-- The cleaning leaves a third cultivation that has run too long. -/
def leavesThird (s : State) : Bool :=
  succeeds (cleanCultivations (fun _ ↦ 5000) 0) s &&
    ((after (cleanCultivations (fun _ ↦ 5000) 0) s).cultivations[2]?).any fun c ↦
      decide (c.startTime ≠ maximum ∧ c.startTime + cultivationMaxTime <
        (after (cleanCultivations (fun _ ↦ 5000) 0) s).props.headBlockNumber)

/-- The manager of the first run is an NFA that is no actor, and its cultivation can never be
stopped. In the second run three cultivations start in one block. -/
theorem cleaning_throws_or_misses :
    (∃ s, Reaches (fun _ ↦ 5000) (fun _ _ ↦ True) (genesis 0 100000000) s ∧
      ∀ t, (cleanCultivations (fun _ ↦ 5000) 0).run s ≠ .ok ⟨⟩ t) ∧
    ∃ s t, Reaches (fun _ ↦ 5000) (fun _ _ ↦ True) (genesis 0 100000000) s ∧
      (cleanCultivations (fun _ ↦ 5000) 0).run s = .ok ⟨⟩ t ∧ ¬Clear t := by
  constructor
  · have h : ((runActions (fun _ ↦ 5000) (genesis 0 100000000)
        (cultivating 0 0 ++ [.outside (.headBlock 201600 1762840800 2 0)])).any
          fun s ↦ !succeeds (cleanCultivations (fun _ ↦ 5000) 0) s) = true := by
      decide +kernel
    obtain ⟨s, hs, h⟩ := (Option.any_eq_true ..).mp h
    refine ⟨s, reaches_of_runActions hs, fun t ht ↦ ?_⟩
    unfold Library.Outcome.succeeds at h
    rw [ht] at h
    cases h
  · have h : ((runActions (fun _ ↦ 5000) (genesis 0 100000000)
        (settledZone ++ cultivating 0 0 ++ cultivating 1 1 ++ cultivating 2 2 ++
          cleanedBlock 201600 ++ [.outside (.headBlock 201601 1762840803 2 0)])).any
            leavesThird) = true := by
      decide +kernel
    obtain ⟨s, hs, h⟩ := (Option.any_eq_true ..).mp h
    obtain ⟨hok, h⟩ := Bool.and_eq_true_iff.mp h
    obtain ⟨_, t, ht⟩ := ok_of_succeeds hok
    rw [after_ok ht] at h
    obtain ⟨c, hc, h⟩ := (Option.any_eq_true ..).mp h
    refine ⟨s, t, reaches_of_runActions hs, ht, fun hclear ↦ ?_⟩
    obtain ⟨hst, hlt⟩ := of_decide_eq_true h
    have hle := hclear.running 2 c hc hst
    omega

end Example

end Taiyi.Ledger
