import Taiyi.Ledger.Membership
import Taiyi.Ledger.Sound

set_option autoImplicit false

namespace Taiyi.Ledger

open Library.IdMap Library.Outcome Library.Frame Library.Deposits

section Rests

variable {id cult nfa seed : ℕ} {hash : ℕ → ℕ}

theorem roll_modifyNfa {f : Nfa → Nfa} (h : ∀ n, (f n).cultivationValue = n.cultivationValue) :
    Moves (Same roll) (modifyNfa id f) :=
  moves_modifyIn fun _ n hn ↦ roll_insert_nfa rfl ((h n).trans (putIn_of_some hn).symm) rfl

theorem roll_modifyCultivation {f : Cultivation → Cultivation}
    (h : ∀ c, (f c).participants = c.participants) :
    Moves (Same roll) (modifyCultivation cult f) :=
  moves_modifyIn fun _ c hc ↦
    roll_insert_cultivation rfl (fun _ ↦ h c ▸ (member_iff hc).symm) rfl

instance : Frames (Same roll) where
  account _ := moves_modifyIn fun _ _ _ ↦ rfl
  nfa h := roll_modifyNfa fun n ↦ (h n).2
  siming := moves_modifyIn fun _ _ _ ↦ rfl
  fund := moves_modifyIn fun _ _ _ ↦ rfl
  props _ := .update fun _ ↦ rfl
  newAccount _ := rfl
  newSiming := rfl
  declines := rfl

theorem roll_new {s : State} {m : Nfa} (h : putIn s nfa = m.cultivationValue) :
    Same roll s { s with nfas := s.nfas.insert nfa m } := roll_insert_nfa rfl h.symm rfl

theorem roll_createNfa {creator minQi : ℕ} {ok : Bool} :
    Moves (Same roll) (createNfa nfa creator minQi ok) := by
  intro s
  refine Moves.read_at .get fun s' hs' ↦ ?_
  cases hs'
  refine Moves.read_at moves_require fun _ hr ↦ ?_
  obtain ⟨hnone, -⟩ := require_ok.mp hr
  have hzero : putIn s nfa = 0 := by
    rw [putIn, hnone]
    rfl
  have hlast : Moves (Same roll) (do
      require ok "the init function failed"
      modifyNfa nfa fun n ↦ { n with hasMaterial := true } : Call Unit) :=
    .bind moves_require fun _ ↦ roll_modifyNfa fun _ ↦ rfl
  exact Moves.bind_at (roll_new hzero) fun _ t _ ↦ hlast t

theorem roll_createCultivation {caller managerNfa prepareTimeBlocks : ℕ}
    {entries : List (ℕ × ℤ)} :
    Moves (Same roll)
      (createCultivation caller cult managerNfa entries prepareTimeBlocks) := by
  intro s
  refine Moves.read_at moves_requireOperator fun _ _ ↦ ?_
  refine Moves.read_at (.forM fun _ _ ↦ .bind moves_getNfa fun _ ↦ moves_require) fun _ _ ↦ ?_
  refine Moves.read_at moves_require fun _ _ ↦ ?_
  refine Moves.read_at moves_require fun _ _ ↦ ?_
  refine Moves.read_at (.forM fun _ _ ↦ .bind moves_getNfa fun _ ↦ moves_require) fun _ _ ↦ ?_
  refine Moves.read_at moves_require fun _ _ ↦ ?_
  refine Moves.read_at .get fun s' hs' ↦ ?_
  cases hs'
  refine Moves.read_at moves_require fun _ hr ↦ ?_
  obtain ⟨hnone, -⟩ := require_ok.mp hr
  refine roll_insert_cultivation rfl (fun p ↦ ⟨nofun, fun ⟨c, hc, _⟩ ↦ ?_⟩) rfl
  cases hnone.symm.trans hc

theorem roll_start {caller : ℕ} : Moves (Same roll) (startCultivation caller cult) :=
  .bind moves_getCultivation fun _ ↦ .bind moves_requireOperator fun _ ↦
    .bind moves_require fun _ ↦ .bind moves_require fun _ ↦ .bind .get fun _ ↦
    roll_modifyCultivation fun _ ↦ rfl

theorem roll_update : Moves (Same roll) (updateCultivation hash cult seed) := by
  refine .bind moves_getCultivation fun _ ↦ .bind moves_require fun _ ↦ .bind .get fun _ ↦
    .bind moves_require fun _ ↦ .ite (fun _ ↦ ?_) fun _ ↦ .pure _
  exact .bind moves_zoneOfActor fun _ ↦ .bind moves_energy fun _ ↦
    .bind moves_gatherParticipants fun _ ↦ .bind moves_efficiency fun _ ↦
    .ite (fun _ ↦ roll_modifyCultivation fun _ ↦ rfl) fun _ ↦ .pure _

theorem roll_payReward {rv : ℤ} {shares : List (ℕ × ℕ)} :
    Moves (Same roll) (payReward rv shares) := by
  refine .ite (fun _ ↦ .bind ?_ fun _ ↦ .bind Frames.fund fun _ ↦ Frames.props fun _ ↦ rfl)
    fun _ ↦ .pure _
  refine .bind (.forM fun _ _ ↦ frames_adjustNfaBalance) fun _ ↦ .ite (fun _ ↦ ?_) fun _ ↦ .pure _
  split
  · exact frames_adjustNfaBalance
  · exact .throw _

theorem booked_of_roll {α : Type} {x : Call α} (h : Moves (Same roll) x) : Moves Booked x :=
  h.mono fun _ _ h ↦ booked_of_turn fun _ _ ↦ ⟨[], .rest h⟩

end Rests

section Joining

variable {s t : State} {caller cult nfa value : ℕ} {c : Cultivation} {n : Nfa}

/-- The writes of a participation, which all go to objects that are there. -/
theorem joining (hc : s.cultivations[cult]? = some c) (hn : s.nfas[nfa]? = some n)
    (hzero : n.cultivationValue = 0) (hpos : 0 < value) :
    ∃ t, (do
      modifyCultivation cult fun c ↦ { c with participants := c.participants.insert nfa }
      modifyNfa nfa fun n ↦
        { n with
          cultivationValue := value
          assets := n.assets.add (-value) .qi }
      modifyProps fun p ↦
        { p with
          totalQi := p.totalQi - value
          pendingCultivationQi := p.pendingCultivationQi + value } : Call Unit).run s = .ok ⟨⟩ t ∧
      Joined s t cult nfa value :=
  ⟨_, bind_ok.mpr ⟨⟨⟩, _, modifyIn_ok.mpr ⟨c, hc, rfl⟩,
    bind_ok.mpr ⟨⟨⟩, _, modifyIn_ok.mpr ⟨n, hn, rfl⟩, rfl⟩⟩, c, n, hc, hn, hzero, hpos, rfl, rfl⟩

theorem booked_participate :
    Moves Booked (participateCultivation caller cult nfa value) := by
  intro s
  refine Moves.read_at moves_getCultivation fun c hc ↦ ?_
  obtain ⟨hc, -⟩ := getCultivation_ok.mp hc
  refine Moves.read_at moves_require fun _ _ ↦ ?_
  refine Moves.read_at moves_requireOperator fun _ _ ↦ ?_
  refine Moves.read_at moves_getNfa fun n hn ↦ ?_
  obtain ⟨hn, -⟩ := getNfa_ok.mp hn
  refine Moves.read_at moves_require fun _ hzero ↦ ?_
  refine Moves.read_at moves_require fun _ hpos ↦ ?_
  refine Moves.read_at moves_require fun _ _ ↦ ?_
  -- from here on nothing throws
  obtain ⟨t, ht, hj⟩ := joining hc hn (require_ok.mp hzero).1 (require_ok.mp hpos).1
  rw [after_ok ht]
  exact booked_of_turn fun _ _ ↦ ⟨_, .join hj⟩

theorem joined_of_participate
    (h : (participateCultivation caller cult nfa value).run s = .ok ⟨⟩ t) :
    Joined s t cult nfa value := by
  obtain ⟨c, _, hc, h₁⟩ := bind_ok.mp h
  obtain ⟨hc, rfl⟩ := getCultivation_ok.mp hc
  obtain ⟨_, _, hr, h₂⟩ := bind_ok.mp h₁
  obtain ⟨-, rfl⟩ := require_ok.mp hr
  obtain ⟨_, _, ho, h₃⟩ := bind_ok.mp h₂
  cases (moves_requireOperator : Moves (Same id) _).keeps _ _ _ ho
  obtain ⟨n, _, hn, h₄⟩ := bind_ok.mp h₃
  obtain ⟨hn, rfl⟩ := getNfa_ok.mp hn
  obtain ⟨_, _, hr, h₅⟩ := bind_ok.mp h₄
  obtain ⟨hzero, rfl⟩ := require_ok.mp hr
  obtain ⟨_, _, hr, h₆⟩ := bind_ok.mp h₅
  obtain ⟨hpos, rfl⟩ := require_ok.mp hr
  obtain ⟨_, _, hr, h₇⟩ := bind_ok.mp h₆
  obtain ⟨-, rfl⟩ := require_ok.mp hr
  obtain ⟨u, hu, hj⟩ := joining hc hn hzero hpos
  cases hu.symm.trans h₇
  exact hj

end Joining

section Leaving

variable {s t : State} {hash : ℕ → ℕ} {cult seed b : ℕ}

theorem exists_of_putIn {p : ℕ} (h : 0 < putIn s p) : Exists s p := by
  unfold putIn at h
  cases hn : s.nfas[p]? with
  | none =>
    rw [hn] at h
    cases h
  | some n => exact ⟨n, hn⟩

theorem Enrolled.participants {c : Cultivation} (hs : Enrolled s)
    (hc : s.cultivations[cult]? = some c) : Participants s c := fun p hp ↦
  exists_of_putIn (hs.valued cult p
    ((member_iff hc).mpr (Std.ExtTreeSet.mem_toList.mp hp)))

theorem returnQi_ok {ps : List ℕ} {v : ℤ} (hps : ps.Nodup)
    (h : (returnQi ps).run s = .ok v t) :
    t.cultivations = s.cultivations ∧
      ∀ p, t.nfas[p]? = if p ∈ ps then (s.nfas[p]?).map Nfa.repaid else s.nfas[p]? := by
  induction ps generalizing s v with
  | nil =>
    cases h
    exact ⟨rfl, fun _ ↦ rfl⟩
  | cons q ps ih =>
    obtain ⟨hq, hps⟩ := List.nodup_cons.mp hps
    obtain ⟨n, r, hn, h₁⟩ := bind_ok.mp h
    obtain ⟨hn, rfl⟩ := getNfa_ok.mp hn
    obtain ⟨_, u, hm, h₂⟩ := bind_ok.mp h₁
    obtain ⟨n', hn', rfl⟩ := modifyIn_ok.mp hm
    cases hn.symm.trans hn'
    obtain ⟨rest, w, hrest, h₃⟩ := bind_ok.mp h₂
    cases h₃
    obtain ⟨hcults, hnfas⟩ := ih hps hrest
    refine ⟨hcults, fun p ↦ ?_⟩
    rw [hnfas]
    by_cases hpq : q = p
    · subst hpq
      rw [if_neg hq, if_pos List.mem_cons_self, hn]
      exact (getElem?_insert _ _ _ _).trans (if_pos rfl)
    · have hget : (r.nfas.insert q n.repaid)[p]? = r.nfas[p]? :=
        (getElem?_insert _ _ _ _).trans (if_neg hpq)
      simp only [List.mem_cons, Ne.symm hpq, false_or]
      exact hget ▸ rfl

/-- A cultivation that is dissolved repays each of its participants once. -/
theorem dissolveCultivation_ok (h : (dissolveCultivation cult).run s = .ok ⟨⟩ t) :
    ∃ c, Dissolved s t cult c := by
  obtain ⟨c, _, hc, h₁⟩ := bind_ok.mp h
  obtain ⟨hc, rfl⟩ := getCultivation_ok.mp hc
  obtain ⟨v, u, hret, h₂⟩ := bind_ok.mp h₁
  obtain ⟨hcults, hnfas⟩ := returnQi_ok (nodup_ids _) hret
  obtain ⟨_, w, hm, h₃⟩ := bind_ok.mp h₂
  obtain ⟨c', hc', rfl⟩ := modifyIn_ok.mp hm
  rw [hcults] at hc'
  cases hc.symm.trans hc'
  have ht : t.nfas = u.nfas ∧ t.cultivations = u.cultivations.insert cult c.dissolved := by
    split at h₃ <;> cases h₃ <;> exact ⟨rfl, rfl⟩
  refine ⟨c, hc, fun p ↦ ?_, hcults ▸ ht.2⟩
  rw [ht.1, hnfas]
  simp only [Std.ExtTreeSet.mem_toList]

theorem dissolveCultivation_returns {c : Cultivation} (hs : Enrolled s)
    (hc : s.cultivations[cult]? = some c) :
    ∃ t, (dissolveCultivation cult).run s = .ok ⟨⟩ t ∧ Dissolved s t cult c := by
  obtain ⟨t, ht, -⟩ := dissolveCultivation_spec hc (hs.participants hc)
  obtain ⟨c', hd⟩ := dissolveCultivation_ok ht
  cases hc.symm.trans hd.1
  exact ⟨t, ht, hd⟩

theorem booked_dissolve : Moves Booked (dissolveCultivation cult) := by
  intro s
  refine Moves.read_at moves_getCultivation fun c hc ↦ fun hs ↦ ?_
  obtain ⟨t, ht, hd⟩ := dissolveCultivation_returns hs (getCultivation_ok.mp hc).1
  obtain ⟨c', _, hc', h₁⟩ := bind_ok.mp ht
  cases hc.symm.trans hc'
  rw [after_ok h₁]
  exact booked_of_turn (fun _ _ ↦ ⟨_, .dissolve hd⟩) hs

theorem booked_stop : Moves Booked (stopCultivation hash cult seed) :=
  .bind (booked_of_roll roll_update) fun _ ↦ .bind moves_getCultivation fun _ ↦ .bind .get fun _ ↦
    .bind moves_lookup fun _ ↦ .bind (booked_of_roll roll_payReward) fun _ ↦ booked_dissolve

theorem booked_stopExpired {turns : ℕ} {iter : Option (ℕ × Cultivation)} :
    Moves Booked (stopExpired hash seed turns iter) := by
  induction turns generalizing iter with
  | zero => exact .pure _
  | succ turns ih =>
    cases iter with
    | none => exact .pure _
    | some row =>
      exact .bind .get fun _ ↦ .ite (fun _ ↦ .pure _) fun _ ↦ .bind booked_stop fun _ ↦
        .bind .get fun _ ↦ .bind ih fun _ ↦ .pure _

/-- Nobody is in a cultivation, whether there is one or not. -/
def Deserted (s : State) (cult : ℕ) : Prop := ∀ p, ¬Member s cult p

/-- Nobody has joined a cultivation. -/
def Shrinks (s t : State) : Prop := ∀ cult p, Member t cult p → Member s cult p

instance : IsPreorder State Shrinks where
  refl _ _ _ := id
  trans _ _ _ h h' cult p := h cult p ∘ h' cult p

theorem Deserted.mono (h : Deserted s cult) (hst : Shrinks s t) : Deserted t cult :=
  fun p hp ↦ h p (hst cult p hp)

theorem shrinks_of_roll {α : Type} {x : Call α} (h : Moves (Same roll) x) : Moves Shrinks x :=
  h.mono fun _ _ h _ _ ↦ (member_of_roll h).mp

theorem shrinks_returnQi {ps : List ℕ} : Moves Shrinks (returnQi ps) := by
  induction ps with
  | nil => exact .pure _
  | cons p ps ih =>
    exact .bind moves_getNfa fun _ ↦ .bind (moves_modifyIn fun _ _ _ _ _ ↦ id) fun _ ↦
      .bind ih fun _ ↦ .pure _

theorem shrinks_dissolve : Moves Shrinks (dissolveCultivation cult) := by
  refine .bind moves_getCultivation fun _ ↦ .bind shrinks_returnQi fun _ ↦
    .bind (moves_modifyIn fun s c hc b p hm ↦ ?_) fun _ ↦
    .ite (fun _ ↦ .update fun _ _ _ ↦ id) fun _ ↦ .pure _
  rw [member_insert rfl] at hm
  split at hm
  · cases hm
  · exact hm

theorem shrinks_stop : Moves Shrinks (stopCultivation hash cult seed) :=
  .bind (shrinks_of_roll roll_update) fun _ ↦ .bind moves_getCultivation fun _ ↦
    .bind .get fun _ ↦ .bind moves_lookup fun _ ↦
    .bind (shrinks_of_roll roll_payReward) fun _ ↦ shrinks_dissolve

theorem shrinks_stopExpired {turns : ℕ} {iter : Option (ℕ × Cultivation)} :
    Moves Shrinks (stopExpired hash seed turns iter) := by
  induction turns generalizing iter with
  | zero => exact .pure _
  | succ turns ih =>
    cases iter with
    | none => exact .pure _
    | some row =>
      exact .bind .get fun _ ↦ .ite (fun _ ↦ .pure _) fun _ ↦ .bind shrinks_stop fun _ ↦
        .bind .get fun _ ↦ .bind ih fun _ ↦ .pure _

theorem member_remove {p : ℕ} :
    Member (after (removeCultivation cult) s) b p ↔ Member s b p ∧ cult ≠ b := by
  change (∃ c, (s.cultivations.erase cult)[b]? = some c ∧ p ∈ c.participants) ↔ _
  rw [getElem?_erase]
  split
  · next hb => simp [hb]
  · next hb => exact ⟨fun h ↦ ⟨h, hb⟩, fun h ↦ h.1⟩

theorem shrinks_remove : Moves Shrinks (removeCultivation cult) :=
  fun _ _ _ hm ↦ (member_remove.mp hm).1

/-- A cultivation that nobody is in goes without anybody losing a value. -/
theorem roll_remove (h : Deserted s cult) : roll (after (removeCultivation cult) s) = roll s :=
  roll_eq (fun _ ↦ rfl) fun _ p ↦ member_remove.trans
    ⟨fun hm ↦ hm.1, fun hm ↦ ⟨hm, fun hb ↦ h p (hb ▸ hm)⟩⟩

theorem booked_remove (h : Deserted s cult) : Booked s (after (removeCultivation cult) s) :=
  booked_of_turn fun _ _ ↦ ⟨[], .rest (roll_remove h)⟩

end Leaving

section Cleaning

variable {s t : State} {hash : ℕ → ℕ} {caller cult seed : ℕ} {l : List ℕ}

theorem deserted_dissolve (h : (dissolveCultivation cult).run s = .ok ⟨⟩ t) : Deserted t cult := by
  obtain ⟨c, hd⟩ := dissolveCultivation_ok h
  exact fun p hm ↦ (hd.member_dissolved.mp hm).2 rfl

theorem deserted_stop (h : (stopCultivation hash cult seed).run s = .ok ⟨⟩ t) :
    Deserted t cult := by
  obtain ⟨_, _, -, h₁⟩ := bind_ok.mp h
  obtain ⟨_, _, -, h₂⟩ := bind_ok.mp h₁
  obtain ⟨_, _, -, h₃⟩ := bind_ok.mp h₂
  obtain ⟨_, _, -, h₄⟩ := bind_ok.mp h₃
  obtain ⟨_, _, -, h₅⟩ := bind_ok.mp h₄
  exact deserted_dissolve h₅

theorem deserted_dissolveAll (h : (l.forM dissolveCultivation).run s = .ok ⟨⟩ t) :
    ∀ cult ∈ l, Deserted t cult := by
  induction l generalizing s with
  | nil => exact fun _ hm ↦ nomatch hm
  | cons a l ih =>
    obtain ⟨u, hu, ht⟩ := forM_cons_ok.mp h
    have hshrinks : Shrinks u t := Moves.ends (.forM fun _ _ ↦ shrinks_dissolve) ht
    intro cult hm
    rcases List.mem_cons.mp hm with rfl | hm
    · exact (deserted_dissolve hu).mono hshrinks
    · exact ih ht cult hm

theorem deserted_stopExpired {turns : ℕ} {iter : Option (ℕ × Cultivation)} {stopped : List ℕ}
    (h : (stopExpired hash seed turns iter).run s = .ok stopped t) :
    ∀ cult ∈ stopped, Deserted t cult := by
  induction turns generalizing s iter stopped with
  | zero =>
    cases h
    exact fun _ hm ↦ nomatch hm
  | succ turns ih =>
    cases iter with
    | none =>
      cases h
      exact fun _ hm ↦ nomatch hm
    | some row =>
      obtain ⟨_, _, hg, h₁⟩ := bind_ok.mp h
      cases hg
      dsimp only at h₁
      split at h₁
      · cases h₁
        exact fun _ hm ↦ nomatch hm
      · obtain ⟨_, u, hu, h₂⟩ := bind_ok.mp h₁
        obtain ⟨_, _, hg, h₃⟩ := bind_ok.mp h₂
        cases hg
        obtain ⟨rest, _, hrest, h₄⟩ := bind_ok.mp h₃
        cases h₄
        intro cult hm
        rcases List.mem_cons.mp hm with rfl | hm
        · exact (deserted_stop hu).mono (Moves.ends shrinks_stopExpired hrest)
        · exact ih hrest cult hm

theorem booked_removeAll (h : ∀ cult ∈ l, Deserted s cult) :
    Booked s (after (l.forM removeCultivation) s) := by
  induction l generalizing s with
  | nil => exact refl_of Booked s
  | cons a l ih =>
    refine Moves.bind_at (booked_remove (h a List.mem_cons_self)) fun _ t ht ↦ ih fun cult hm ↦ ?_
    exact (h cult (List.mem_cons_of_mem _ hm)).mono (Moves.ends shrinks_remove ht)

theorem booked_stopAndClose :
    Moves Booked (stopAndCloseCultivation hash caller cult seed) := by
  intro s
  refine Moves.read_at moves_getCultivation fun c _ ↦ ?_
  refine Moves.read_at moves_requireOperator fun _ _ ↦ ?_
  split
  · exact Moves.bind_at (booked_stop s) fun _ _ h ↦ booked_remove (deserted_stop h)
  · exact Moves.bind_at (booked_dissolve s) fun _ _ h ↦ booked_remove (deserted_dissolve h)

/-- Every cultivation that the cleaning removes has been dissolved by it. -/
theorem booked_clean : Moves Booked (cleanCultivations hash seed) := by
  intro s
  refine Moves.read_at .get fun s' hs' ↦ ?_
  cases hs'
  refine Moves.bind_at (Moves.forM (fun _ _ ↦ booked_dissolve) s) fun _ t ht ↦ ?_
  refine Moves.read_at .get fun t' ht' ↦ ?_
  cases ht'
  refine Moves.bind_at (booked_stopExpired t) fun stopped u hu ↦ booked_removeAll fun cult hm ↦ ?_
  rcases List.mem_append.mp hm with hm | hm
  · exact (deserted_dissolveAll ht cult hm).mono (Moves.ends shrinks_stopExpired hu)
  · exact deserted_stopExpired hu cult hm

end Cleaning

section Run

variable {s t : State} {hash : ℕ → ℕ}

theorem booked_call (c : ContractCall) : Moves Booked (c.apply hash) := by
  cases c with
  | transferByContract => exact booked_of_roll frames_transferByContract
  | transferNfaByContract => exact booked_of_roll frames_transferNfaByContract
  | withdrawByContract => exact booked_of_roll frames_withdrawByContract
  | depositByContract => exact booked_of_roll frames_depositByContract
  | convertQiToResource => exact booked_of_roll frames_convertQiToResource
  | convertResourceToQi => exact booked_of_roll frames_convertResourceToQi
  | injectMaterial => exact booked_of_roll frames_injectMaterial
  | separateMaterial => exact booked_of_roll frames_separateMaterial
  | takeQi => exact booked_of_roll frames_takeQi
  | chargeInCall => exact booked_of_roll frames_chargeInCall
  | consumeMaterial => exact booked_of_roll frames_consumeNfaMaterialRandom
  | createNfa => exact booked_of_roll roll_createNfa
  | createCultivation => exact booked_of_roll roll_createCultivation
  | participateCultivation => exact booked_participate
  | startCultivation => exact booked_of_roll roll_start
  | stopAndCloseCultivation => exact booked_stopAndClose
  | updateCultivation =>
    exact .bind moves_getCultivation fun _ ↦ .bind moves_requireOperator fun _ ↦
      booked_of_roll roll_update

theorem booked_routine (r : Routine) : Moves Booked (r.apply hash) := by
  cases r with
  | processFunds => exact booked_of_roll frames_processFunds
  | processQiWithdrawals => exact .bind .get fun _ ↦ booked_of_roll frames_withdrawFrom
  | processDeclineAdoringRights =>
    exact .bind .get fun _ ↦ .forM fun _ _ ↦
      booked_of_roll (frames_declineAccount (moves_modifyIn fun _ _ _ ↦ rfl))
  | cleanCultivations => exact booked_clean
  | payDebt => exact booked_of_roll frames_payDebt
  | chargeTick => exact booked_of_roll frames_chargeTick
  | chargeProposal => exact booked_of_roll frames_chargeProposal

theorem booked_outside (o : Outside) : Moves Booked o.apply := by
  refine booked_of_roll ?_
  cases o with
  | headBlock => exact .bind .get fun _ ↦ .bind moves_require fun _ ↦ .update fun _ ↦ rfl
  | changeOwner => exact roll_modifyNfa fun _ ↦ rfl
  | setTick => exact roll_modifyNfa fun _ ↦ rfl
  | delegateQi => exact Frames.account fun _ ↦ rfl
  | createActor => exact .bind moves_getMaterial fun _ ↦ .update fun _ ↦ rfl
  | settleActor =>
    exact .bind .get fun _ ↦ .bind moves_lookup fun _ ↦ moves_modifyIn fun _ _ _ ↦ rfl
  | createZone => exact .bind moves_getMaterial fun _ ↦ .update fun _ ↦ rfl

theorem booked_step {act : Action} (h : act.step hash s = some t) : Booked s t := by
  have ht := after_of_step h
  cases act with
  | operation o =>
    exact (booked_of_roll (frames_operation o fun _ _ _ ↦ moves_modifyIn fun _ _ _ ↦ rfl)).ends ht
  | contract c => exact ht ▸ booked_call c s
  | routine r => exact (booked_routine r).ends ht
  | outside o => exact (booked_outside o).ends ht

theorem booked_of_run {P : State → Action → Prop} {s₀ : State} (h : Reaches hash P s₀ s) :
    Booked s₀ s := by
  induction h with
  | start => exact refl_of Booked s₀
  | step act _ _ hstep ih => exact trans_of Booked ih (booked_step hstep)

theorem putIn_genesis (initSupply initQiSupply p : ℕ) :
    putIn (genesis initSupply initQiSupply) p = 0 := by
  change (((((∅ : Table Nfa).insert 0 _)[p]?).map Nfa.cultivationValue).getD 0) = 0
  rw [getElem?_insert]
  split <;> simp

theorem enrolled_genesis (initSupply initQiSupply : ℕ) :
    Enrolled (genesis initSupply initQiSupply) := by
  have hnone : ∀ cult p, ¬Member (genesis initSupply initQiSupply) cult p := by
    rintro cult p ⟨c, hc, -⟩
    change (∅ : Table Cultivation)[cult]? = some c at hc
    simp at hc
  refine ⟨fun b p hb ↦ absurd hb (hnone b p), fun b d p hb ↦ absurd hb (hnone b p),
    fun p hp ↦ ?_⟩
  rw [putIn_genesis] at hp
  cases hp

theorem Enrolled.iff_existsUnique (hs : Enrolled s) (p : ℕ) :
    0 < putIn s p ↔ ∃! cult, Member s cult p := by
  constructor
  · intro hp
    obtain ⟨cult, hm⟩ := hs.joined p hp
    exact ⟨cult, hm, fun b hb ↦ hs.alone b cult p hb hm⟩
  · rintro ⟨cult, hm, -⟩
    exact hs.valued cult p hm

theorem holding_value {p : ℕ} {held : Option (ℕ × ℕ)} (h : Holding s p held) :
    (held.map Prod.snd).getD 0 = putIn s p := by
  match held, h with
  | none, h => exact h.symm
  | some (cult, value), h => exact h.2.symm

/-- The memberships in every run. Who has a value in a cultivation is in one and in no other. Each
NFA has a book in which everything it put in has come back once and as a whole, but for what it has
in the cultivation it is in now. The calls keep the two sides of the membership together from
any state in which they agree, also where they throw. What joins is taken from the QI of the NFA,
and what is dissolved goes back to each participant and to nobody else. -/
theorem membership {P : State → Action → Prop} {initSupply initQiSupply : ℕ}
    (h : Reaches hash P (genesis initSupply initQiSupply) s) :
    Enrolled s ∧ (∀ p, 0 < putIn s p ↔ ∃! cult, Member s cult p) ∧
    (∀ p, ∃ book held, Turns p (genesis initSupply initQiSupply) book s ∧ Paired book held ∧
      Holding s p held ∧
      (book.map Entry.paidIn).sum = (book.map Entry.paidBack).sum + putIn s p) ∧
    (∀ caller cult nfa value seed,
      ∀ x ∈ [participateCultivation caller cult nfa value, startCultivation caller cult,
        stopCultivation hash cult seed, dissolveCultivation cult, cleanCultivations hash seed,
        stopAndCloseCultivation hash caller cult seed], Moves (Holds Enrolled) x) ∧
    (∀ t cult, Enrolled t → Deserted t cult → Enrolled (after (removeCultivation cult) t)) ∧
    (∀ t u caller cult nfa value,
      (participateCultivation caller cult nfa value).run t = .ok ⟨⟩ u → Joined t u cult nfa value) ∧
    ∀ t cult c, Enrolled t → t.cultivations[cult]? = some c →
      ∃ u, (dissolveCultivation cult).run t = .ok ⟨⟩ u ∧ Dissolved t u cult c := by
  have hgen := enrolled_genesis initSupply initQiSupply
  obtain ⟨hs, hbooks⟩ := booked_of_run h hgen
  refine ⟨hs, hs.iff_existsUnique, fun p ↦ ?_, fun caller cult nfa value seed x hx ↦ ?_,
    fun t cult ht hd ↦ ?_, fun t u caller cult nfa value ↦ joined_of_participate,
    fun t cult c ↦ dissolveCultivation_returns⟩
  · obtain ⟨book, hbook⟩ := hbooks p
    obtain ⟨-, held, hpaired, hheld⟩ := hbook.paired hgen (putIn_genesis _ _ p)
    exact ⟨book, held, hbook, hpaired, hheld, holding_value hheld ▸ hpaired.total⟩
  · refine Moves.mono (R := Booked) ?_ fun _ _ hb ht ↦ (hb ht).1
    simp only [List.mem_cons, List.not_mem_nil, or_false] at hx
    rcases hx with rfl | rfl | rfl | rfl | rfl | rfl
    · exact booked_participate
    · exact booked_of_roll roll_start
    · exact booked_stop
    · exact booked_dissolve
    · exact booked_clean
    · exact booked_stopAndClose
  · exact (booked_remove hd ht).1

/-- The manager of a cultivation that has started has a value in it. -/
theorem membership_cultivating :
    ∃ s, Reaches (fun _ ↦ 0) (fun _ _ ↦ True) (genesis 0 100000000) s ∧ putIn s 0 = 100 ∧
      ∃! cult, Member s cult 0 := by
  have h : (match runActions (fun _ ↦ 0) (genesis 0 100000000) (cultivating 0 0) with
      | some s => decide (putIn s 0 = 100)
      | none => false) = true := by
    decide +kernel
  split at h
  · next s hs =>
    have hput := of_decide_eq_true h
    exact ⟨s, reaches_of_runActions hs, hput,
      ((membership (reaches_of_runActions hs)).2.1 0).mp (hput ▸ by decide)⟩
  · cases h

end Run

end Taiyi.Ledger
