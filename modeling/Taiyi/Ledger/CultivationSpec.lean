import Taiyi.Ledger.Run
import Taiyi.Library.Frame

set_option autoImplicit false

namespace Taiyi.Ledger

open Library.IdMap Library.Outcome Library.Frame

section Reads

variable {γ : Type} {view : State → γ} {id : ℕ}

theorem keeps_require {c : Prop} [Decidable c] {msg : String} :
    Keeps view (require c msg) := .ite (fun _ ↦ .pure _) fun _ ↦ .throw _

theorem keeps_lookup {V : Type} {m : Table V} :
    Keeps view (lookup m id) := by
  unfold lookup
  split
  · exact .pure _
  · exact .throw _

theorem keeps_getNfa : Keeps view (getNfa id) :=
  .bind .get fun _ ↦ keeps_lookup

theorem keeps_getMaterial : Keeps view (getMaterial id) :=
  .bind keeps_getNfa fun _ ↦ .bind keeps_require fun _ ↦ .pure _

theorem keeps_getCultivation : Keeps view (getCultivation id) :=
  .bind .get fun _ ↦ keeps_lookup

end Reads

def Exists (s : State) (id : ℕ) : Prop := ∃ n, s.nfas[id]? = some n

def HasMaterial (s : State) (id : ℕ) : Prop := ∃ n, s.nfas[id]? = some n ∧ n.hasMaterial = true

/-- What cultivations are settled against: which NFAs there are and have a material, where the
actors are, and the head block. -/
def world (s : State) : (ℕ → Option Bool) × Table Actor × Table Zone × ℕ :=
  (fun id ↦ (s.nfas[id]?).map Nfa.hasMaterial, s.actors, s.zones, s.props.headBlockNumber)

section World

variable {s t : State} {id : ℕ}

theorem exists_iff : Exists s id ↔ ((world s).1 id).isSome := by
  rw [Exists, world, Option.isSome_map, Option.isSome_iff_exists]

theorem hasMaterial_iff : HasMaterial s id ↔ (world s).1 id = some true := by
  simp [HasMaterial, world]

theorem exists_congr_world (h : world t = world s) : Exists t id ↔ Exists s id := by
  rw [exists_iff, exists_iff, h]

theorem hasMaterial_congr (h : world t = world s) : HasMaterial t id ↔ HasMaterial s id := by
  rw [hasMaterial_iff, hasMaterial_iff, h]

theorem HasMaterial.exists (h : HasMaterial s id) : Exists s id :=
  h.imp fun _ hn ↦ hn.1

/-- A change of an NFA that is not about its material. -/
theorem world_modifyNfa {n : Nfa} {f : Nfa → Nfa} (hn : s.nfas[id]? = some n)
    (h : (f n).hasMaterial = n.hasMaterial) :
    world { s with nfas := s.nfas.insert id (f n) } = world s := by
  refine Prod.ext (funext fun j ↦ ?_) rfl
  change ((s.nfas.insert id (f n))[j]?).map _ = (s.nfas[j]?).map _
  rw [getElem?_insert]
  split
  · next hj => rw [← hj, hn, Option.map_some, Option.map_some, h]
  · rfl

theorem getMaterial_succeeds : (∃ m t, (getMaterial id).run s = .ok m t) ↔ HasMaterial s id := by
  constructor
  · intro ⟨m, t, h⟩
    obtain ⟨n, r, hn, h'⟩ := bind_ok.mp h
    obtain ⟨hn, rfl⟩ := getNfa_ok.mp hn
    obtain ⟨_, _, hr, -⟩ := bind_ok.mp h'
    exact ⟨n, hn, (require_ok.mp hr).1⟩
  · intro ⟨n, hn, hm⟩
    exact ⟨n.material, s, bind_ok.mpr ⟨n, s, getNfa_ok.mpr ⟨hn, rfl⟩,
      bind_ok.mpr ⟨⟨⟩, s, require_ok.mpr ⟨hm, rfl⟩, rfl⟩⟩⟩

end World

section Update

variable {γ : Type} {view : State → γ} {hash : ℕ → ℕ} {cult seed : ℕ} {s t : State}

theorem keeps_gatherParticipants {ps : List ℕ} : Keeps view (gatherParticipants ps) := by
  induction ps with
  | nil => exact .pure _
  | cons p ps ih =>
    exact .bind keeps_getNfa fun _ ↦ .bind keeps_getMaterial fun _ ↦ .bind ih fun _ ↦ .pure _

theorem keeps_energy {zone : Zone} : Keeps view (calculateZoneSpiritualEnergy zone) :=
  .bind keeps_getMaterial fun _ ↦ .pure _

theorem keeps_efficiency {zone : Zone} {p : Stock} : Keeps view (efficiency zone p) :=
  .ite (fun _ ↦ .bind keeps_getMaterial fun _ ↦ .pure _) fun _ ↦ .pure _

theorem keeps_zoneOfActor {nfa : ℕ} : Keeps view (zoneOfActor nfa) := by
  refine .bind .get fun _ ↦ .bind keeps_lookup fun actor ↦ ?_
  split
  · exact .bind .get fun _ ↦ keeps_lookup
  · exact .throw _

/-- An update writes nothing but what the cultivation gained, if it gained anything. -/
theorem updateCultivation_ok {u : Unit}
    (h : (updateCultivation hash cult seed).run s = .ok u t) :
    ∃ c, s.cultivations[cult]? = some c ∧
      (t = s ∨ ∃ rv : ℤ, 0 < rv ∧
        t = { s with
          cultivations := s.cultivations.insert cult
            { c with
              qiAccumulated := c.qiAccumulated + rv, lastUpdateTime := s.props.headBlockNumber } }) := by
  obtain ⟨c, _, hc, h₁⟩ := bind_ok.mp h
  obtain ⟨hc, rfl⟩ := getCultivation_ok.mp hc
  obtain ⟨_, _, hr, h₂⟩ := bind_ok.mp h₁
  obtain ⟨-, rfl⟩ := require_ok.mp hr
  obtain ⟨_, _, hg, h₃⟩ := bind_ok.mp h₂
  cases hg
  obtain ⟨_, _, hr, h₄⟩ := bind_ok.mp h₃
  obtain ⟨-, rfl⟩ := require_ok.mp hr
  refine ⟨c, hc, ?_⟩
  split at h₄
  · obtain ⟨zone, _, hz, h₅⟩ := bind_ok.mp h₄
    cases (keeps_zoneOfActor : Keeps id _) _ _ _ hz
    obtain ⟨energy, _, he, h₆⟩ := bind_ok.mp h₅
    cases (keeps_energy : Keeps id _) _ _ _ he
    obtain ⟨put, _, hp, h₇⟩ := bind_ok.mp h₆
    cases (keeps_gatherParticipants : Keeps id _) _ _ _ hp
    obtain ⟨e, _, he, h₈⟩ := bind_ok.mp h₇
    cases (keeps_efficiency : Keeps id _) _ _ _ he
    dsimp only at h₈
    split at h₈
    · next hpos =>
      obtain ⟨_, hc', rfl⟩ := modifyIn_ok.mp h₈
      cases hc.symm.trans hc'
      exact .inr ⟨_, hpos, rfl⟩
    · cases h₈
      exact .inl rfl
  · cases h₄
    exact .inl rfl

end Update

section Survey

variable {hash : ℕ → ℕ} {s : State} {cult seed : ℕ} {c : Cultivation}

/-- The actor of the manager is in a zone, and the materials that are weighed are there. -/
structure Surveyable (s : State) (c : Cultivation) : Prop where
  zone : ∃ actor z zone, s.actors[c.managerNfaId]? = some actor ∧ actor.location = some z ∧
    s.zones[z]? = some zone ∧ HasMaterial s zone.nfaId
  participants : ∀ p ∈ c.participants.toList, HasMaterial s p

theorem zoneOfActor_ok {nfa : ℕ} {zone : Zone} {t : State} :
    (zoneOfActor nfa).run s = .ok zone t ↔
      (∃ actor z, s.actors[nfa]? = some actor ∧ actor.location = some z ∧
        s.zones[z]? = some zone) ∧ t = s := by
  unfold zoneOfActor
  constructor
  · intro h
    obtain ⟨_, _, hg, h₁⟩ := bind_ok.mp h
    cases hg
    obtain ⟨actor, r, ha, h₂⟩ := bind_ok.mp h₁
    obtain ⟨ha, rfl⟩ := lookup_ok.mp ha
    split at h₂
    · next z hz =>
      obtain ⟨_, _, hg, h₃⟩ := bind_ok.mp h₂
      cases hg
      obtain ⟨hzone, rfl⟩ := lookup_ok.mp h₃
      exact ⟨⟨actor, z, ha, hz, hzone⟩, rfl⟩
    · cases h₂
  · intro ⟨⟨actor, z, ha, hz, hzone⟩, ht⟩
    refine bind_ok.mpr ⟨s, s, rfl, bind_ok.mpr ⟨actor, s, lookup_ok.mpr ⟨ha, rfl⟩, ?_⟩⟩
    rw [hz]
    exact bind_ok.mpr ⟨s, s, rfl, lookup_ok.mpr ⟨hzone, ht⟩⟩

theorem gatherParticipants_succeeds {ps : List ℕ} :
    (∃ v t, (gatherParticipants ps).run s = .ok v t) ↔ ∀ p ∈ ps, HasMaterial s p := by
  induction ps with
  | nil => exact ⟨fun _ p hp ↦ (nomatch hp), fun _ ↦ ⟨_, s, rfl⟩⟩
  | cons p ps ih =>
    constructor
    · intro ⟨v, t, h⟩
      obtain ⟨n, _, hn, h₁⟩ := bind_ok.mp h
      cases (keeps_getNfa : Keeps id _) _ _ _ hn
      obtain ⟨m, _, hm, h₂⟩ := bind_ok.mp h₁
      cases (keeps_getMaterial : Keeps id _) _ _ _ hm
      obtain ⟨rest, r, hr, -⟩ := bind_ok.mp h₂
      intro q hq
      rcases List.mem_cons.mp hq with rfl | hq
      · exact getMaterial_succeeds.mp ⟨m, _, hm⟩
      · exact ih.mp ⟨rest, r, hr⟩ q hq
    · intro h
      have hp := h p List.mem_cons_self
      obtain ⟨n, hn⟩ := hp.exists
      obtain ⟨m, r, hm⟩ := getMaterial_succeeds.mpr hp
      cases (keeps_getMaterial : Keeps id _) _ _ _ hm
      obtain ⟨v, t, ht⟩ := ih.mpr fun q hq ↦ h q (List.mem_cons_of_mem _ hq)
      exact ⟨_, t, bind_ok.mpr ⟨n, s, getNfa_ok.mpr ⟨hn, rfl⟩, bind_ok.mpr ⟨m, s, hm,
        bind_ok.mpr ⟨v, t, ht, rfl⟩⟩⟩⟩

theorem energy_succeeds {zone : Zone} :
    (∃ v t, (calculateZoneSpiritualEnergy zone).run s = .ok v t) ↔ HasMaterial s zone.nfaId := by
  constructor
  · intro ⟨v, t, h⟩
    obtain ⟨m, r, hm, -⟩ := bind_ok.mp h
    exact getMaterial_succeeds.mp ⟨m, r, hm⟩
  · intro h
    obtain ⟨m, r, hm⟩ := getMaterial_succeeds.mpr h
    exact ⟨_, r, bind_ok.mpr ⟨m, r, hm, rfl⟩⟩

theorem efficiency_succeeds {zone : Zone} (h : HasMaterial s zone.nfaId) (p : Stock) :
    ∃ e t, (efficiency zone p).run s = .ok e t := by
  unfold efficiency
  dsimp only
  split
  · obtain ⟨m, r, hm⟩ := getMaterial_succeeds.mpr h
    exact ⟨_, r, bind_ok.mpr ⟨m, r, hm, rfl⟩⟩
  · exact ⟨_, s, rfl⟩

theorem updateCultivation_succeeds (hc : s.cultivations[cult]? = some c)
    (hmax : c.startTime ≠ maximum) (hle : c.startTime ≤ s.props.headBlockNumber) :
    (∃ u t, (updateCultivation hash cult seed).run s = .ok u t) ↔
      (c.lastUpdateTime < s.props.headBlockNumber → Surveyable s c) := by
  constructor
  · intro ⟨u, t, h⟩ hlt
    obtain ⟨c', _, hc', h₁⟩ := bind_ok.mp h
    obtain ⟨hc', rfl⟩ := getCultivation_ok.mp hc'
    cases hc.symm.trans hc'
    obtain ⟨_, _, hr, h₂⟩ := bind_ok.mp h₁
    obtain ⟨-, rfl⟩ := require_ok.mp hr
    obtain ⟨_, _, hg, h₃⟩ := bind_ok.mp h₂
    cases hg
    obtain ⟨_, _, hr, h₄⟩ := bind_ok.mp h₃
    obtain ⟨-, rfl⟩ := require_ok.mp hr
    rw [if_pos hlt] at h₄
    obtain ⟨zone, _, hz, h₅⟩ := bind_ok.mp h₄
    obtain ⟨⟨actor, z, ha, hloc, hzone⟩, rfl⟩ := zoneOfActor_ok.mp hz
    obtain ⟨energy, _, he, h₆⟩ := bind_ok.mp h₅
    have hmat := energy_succeeds.mp ⟨_, _, he⟩
    cases (keeps_energy : Keeps id _) _ _ _ he
    obtain ⟨put, _, hp, -⟩ := bind_ok.mp h₆
    exact ⟨⟨actor, z, zone, ha, hloc, hzone, hmat⟩, gatherParticipants_succeeds.mp ⟨_, _, hp⟩⟩
  · intro h
    refine succeeds_bind (getCultivation_ok.mpr ⟨hc, rfl⟩) ?_
    refine succeeds_bind (require_of hmax) (succeeds_bind rfl ?_)
    refine succeeds_bind (require_of hle) ?_
    split
    · next hlt =>
      obtain ⟨⟨actor, z, zone, ha, hloc, hzone, hmat⟩, hp⟩ := h hlt
      obtain ⟨_, he⟩ := keeps_energy.in_place (energy_succeeds.mpr hmat)
      obtain ⟨put, hput⟩ := keeps_gatherParticipants.in_place (gatherParticipants_succeeds.mpr hp)
      obtain ⟨_, heff⟩ := keeps_efficiency.in_place (efficiency_succeeds hmat put.2)
      refine succeeds_bind (zoneOfActor_ok.mpr ⟨⟨actor, z, ha, hloc, hzone⟩, rfl⟩) ?_
      refine succeeds_bind he (succeeds_bind hput (succeeds_bind heff ?_))
      dsimp only
      split
      · exact ⟨⟨⟩, _, modifyIn_ok.mpr ⟨c, hc, rfl⟩⟩
      · exact ⟨⟨⟩, s, rfl⟩
    · exact ⟨⟨⟩, s, rfl⟩

end Survey

section Dissolve

variable {s : State} {cult : ℕ} {c : Cultivation}

def Cultivation.dissolved (c : Cultivation) : Cultivation :=
  { c with participants := ∅, startTime := maximum, lastUpdateTime := maximum, qiAccumulated := 0 }

theorem returnQi_spec {ps : List ℕ} (h : ∀ p ∈ ps, Exists s p) :
    ∃ v t, (returnQi ps).run s = .ok v t ∧ world t = world s ∧ t.funds = s.funds ∧
      t.cultivations = s.cultivations := by
  induction ps generalizing s with
  | nil => exact ⟨0, s, rfl, rfl, rfl, rfl⟩
  | cons p ps ih =>
    obtain ⟨n, hn⟩ := h p List.mem_cons_self
    let f : Nfa → Nfa := fun n ↦
      { n with assets := n.assets.add n.cultivationValue .qi, cultivationValue := 0 }
    have hw : world { s with nfas := s.nfas.insert p (f n) } = world s := world_modifyNfa hn rfl
    obtain ⟨v, t, ht, hwt, hf, hc⟩ := ih (s := { s with nfas := s.nfas.insert p (f n) })
      fun q hq ↦ (exists_congr_world hw).mpr (h q (List.mem_cons_of_mem _ hq))
    exact ⟨_, t, bind_ok.mpr ⟨n, s, getNfa_ok.mpr ⟨hn, rfl⟩, bind_ok.mpr ⟨⟨⟩, _,
      modifyIn_ok.mpr ⟨n, hn, rfl⟩, bind_ok.mpr ⟨v, t, ht, rfl⟩⟩⟩, hwt.trans hw, hf, hc⟩

theorem dissolveCultivation_spec (hc : s.cultivations[cult]? = some c)
    (h : ∀ p ∈ c.participants.toList, Exists s p) :
    ∃ t, (dissolveCultivation cult).run s = .ok ⟨⟩ t ∧ world t = world s ∧ t.funds = s.funds ∧
      t.cultivations = s.cultivations.insert cult c.dissolved := by
  obtain ⟨v, r, hr, hw, hf, hcr⟩ := returnQi_spec h
  rw [← hcr] at hc
  let q := { r with cultivations := r.cultivations.insert cult c.dissolved }
  have hrun : ∀ t, (if 0 < v then modifyProps fun p ↦
        { p with
          totalQi := p.totalQi + v, pendingCultivationQi := p.pendingCultivationQi - v }
      else pure () : Call Unit).run q = .ok ⟨⟩ t → (dissolveCultivation cult).run s = .ok ⟨⟩ t :=
    fun t ht ↦ bind_ok.mpr ⟨c, s, getCultivation_ok.mpr ⟨hcr ▸ hc, rfl⟩, bind_ok.mpr ⟨v, r, hr,
      bind_ok.mpr ⟨⟨⟩, q, modifyIn_ok.mpr ⟨c, hc, rfl⟩, ht⟩⟩⟩
  by_cases hv : 0 < v
  · rw [if_pos hv] at hrun
    exact ⟨_, hrun _ rfl, hw, hf, by rw [← hcr]⟩
  · rw [if_neg hv] at hrun
    exact ⟨_, hrun _ rfl, hw, hf, by rw [← hcr]⟩

def Participants (s : State) (c : Cultivation) : Prop := ∀ p ∈ c.participants.toList, Exists s p

theorem dissolveAll_spec {l : List ℕ}
    (h : ∀ cult ∈ l, ∃ c, s.cultivations[cult]? = some c ∧ Participants s c) :
    ∃ t, (l.forM dissolveCultivation).run s = .ok ⟨⟩ t ∧ world t = world s ∧ t.funds = s.funds ∧
      ∀ cult, t.cultivations[cult]? =
        if cult ∈ l then (s.cultivations[cult]?).map Cultivation.dissolved
        else s.cultivations[cult]? := by
  induction l generalizing s with
  | nil => exact ⟨s, rfl, rfl, rfl, fun _ ↦ rfl⟩
  | cons cult l ih =>
    obtain ⟨c, hc, hp⟩ := h cult List.mem_cons_self
    obtain ⟨r, hr, hw, hf, hcr⟩ := dissolveCultivation_spec hc hp
    have hget : ∀ b, r.cultivations[b]? = if cult = b then some c.dissolved else s.cultivations[b]? :=
      fun b ↦ by rw [hcr, getElem?_insert]
    obtain ⟨t, ht, hwt, hft, hct⟩ := ih (s := r) fun b hb ↦ by
      by_cases hbc : cult = b
      · refine ⟨c.dissolved, by rw [hget, if_pos hbc], fun p hp ↦ ?_⟩
        cases hp
      · obtain ⟨d, hd, hpd⟩ := h b (List.mem_cons_of_mem _ hb)
        exact ⟨d, by rw [hget, if_neg hbc, hd], fun p hp ↦ (exists_congr_world hw).mpr (hpd p hp)⟩
    refine ⟨t, forM_cons_ok.mpr ⟨r, hr, ht⟩, hwt.trans hw, hft.trans hf, fun b ↦ ?_⟩
    rw [hct, hget]
    by_cases hbc : cult = b
    · subst hbc
      simp [hc, Cultivation.dissolved]
    · simp [hbc, Ne.symm hbc]

end Dissolve

section Pay

variable {s : State} {rv : ℤ} {shares : List (ℕ × ℕ)}

theorem adjustNfaQi_spec {id : ℕ} {d : ℤ} (hd : 0 ≤ d) (h : Exists s id) :
    ∃ t, (adjustNfaBalance id d .qi).run s = .ok ⟨⟩ t ∧ world t = world s ∧ t.funds = s.funds ∧
      t.cultivations = s.cultivations := by
  obtain ⟨n, hn⟩ := h
  refine ⟨_, ?_, world_modifyNfa (f := fun n ↦ { n with assets := n.assets.add d .qi }) hn rfl,
    rfl, rfl⟩
  refine bind_ok.mpr ⟨n.assets.qi, s, bind_ok.mpr ⟨n, s, getNfa_ok.mpr ⟨hn, rfl⟩, rfl⟩, ?_⟩
  refine bind_ok.mpr ⟨⟨⟩, s, require_of fun hneg ↦ absurd hd (not_le.mpr hneg), ?_⟩
  simp only [ne_eq, not_true_eq_false, ite_false]
  exact modifyIn_ok.mpr ⟨n, hn, rfl⟩

/-- A reward that no part of is negative is paid, whatever it comes to: the fund is not looked
at again. -/
theorem payReward_spec {f : RewardFund} (hf : s.funds[cultivationFund]? = some f)
    (hexist : ∀ b ∈ shares, Exists s b.1) (hne : shares ≠ [])
    (hpos : 0 < rv → ∀ b ∈ shares, 0 ≤ payout rv b.2) :
    ∃ t, (payReward rv shares).run s = .ok ⟨⟩ t ∧ world t = world s ∧
      t.cultivations = s.cultivations := by
  unfold payReward
  split
  case isFalse => exact ⟨s, rfl, rfl, rfl⟩
  case isTrue hrv =>
    obtain ⟨q, hq, hqw, hqf, hqc⟩ := forM_succeeds
      (fun t : State ↦ world t = world s ∧ t.funds = s.funds ∧ t.cultivations = s.cultivations)
      (f := fun b : ℕ × ℕ ↦ adjustNfaBalance b.1 (payout rv b.2) .qi) (l := shares) (s := s)
      (by
        intro b hb t ⟨htw, htf, htc⟩
        obtain ⟨t', ht', hw, hf, hc⟩ := adjustNfaQi_spec (hpos hrv b hb)
          ((exists_congr_world htw).mpr (hexist b hb))
        exact ⟨t', ht', hw.trans htw, hf.trans htf, hc.trans htc⟩)
      ⟨rfl, rfl, rfl⟩
    have hlast : ∃ t, (payBeneficiaries rv shares).run s = .ok ⟨⟩ t ∧ world t = world s ∧
        t.funds = s.funds ∧ t.cultivations = s.cultivations := by
      by_cases hleft : 0 < rewardLeft rv shares
      · have hg := List.getLast?_eq_getLast_of_ne_nil hne
        obtain ⟨t, ht, hw, hf, hc⟩ := adjustNfaQi_spec hleft.le
          ((exists_congr_world hqw).mpr (hexist _ (List.getLast_mem hne)))
        refine ⟨t, bind_ok.mpr ⟨⟨⟩, q, hq, ?_⟩, hw.trans hqw, hf.trans hqf, hc.trans hqc⟩
        rw [if_pos hleft, hg]
        exact ht
      · refine ⟨q, bind_ok.mpr ⟨⟨⟩, q, hq, ?_⟩, hqw, hqf, hqc⟩
        rw [if_neg hleft]
        rfl
    obtain ⟨t, ht, htw, htf, htc⟩ := hlast
    exact ⟨_, bind_ok.mpr ⟨⟨⟩, t, ht, bind_ok.mpr ⟨⟨⟩, _,
      modifyIn_ok.mpr ⟨f, htf ▸ hf, rfl⟩, rfl⟩⟩, htw, htc⟩

end Pay

section Stop

variable {hash : ℕ → ℕ} {s r : State} {cult seed : ℕ} {c : Cultivation} {f : RewardFund}

/-- What the database holds for a cultivation: its NFAs and a fund that can pay its shares. -/
structure Backed (s : State) (c : Cultivation) (f : RewardFund) : Prop where
  participants : Participants s c
  beneficiaries : ∀ b ∈ c.beneficiaryMap.toList, Exists s b.1
  nonempty : c.beneficiaryMap.toList ≠ []
  fund : s.funds[cultivationFund]? = some f
  fits : ∀ b ∈ c.beneficiaryMap.toList, f.rewardQiBalance * b.2 < 2 ^ 63

theorem toInt64_of_lt {x : ℤ} (h : 0 ≤ x) (hx : x < 2 ^ 63) : toInt64 x = x := by
  apply Int.bmod_eq_of_le <;> omega

theorem payout_eq {rv : ℤ} {share : ℕ} (h : 0 ≤ rv) (hs : rv * share < 2 ^ 63) :
    payout rv share = rv * share / taiyi100Percent := by
  have hp : 0 ≤ rv * share := Int.mul_nonneg h (Int.natCast_nonneg _)
  rw [payout, toInt64_of_lt hp hs, Int.tdiv_eq_ediv_of_nonneg hp]

theorem payout_nonneg {rv : ℤ} {share : ℕ} (h : 0 ≤ rv) (hs : rv * share < 2 ^ 63) :
    0 ≤ payout rv share := by
  rw [payout_eq h hs]
  exact Int.ediv_nonneg (Int.mul_nonneg h (Int.natCast_nonneg _)) (by decide)

theorem world_updateCultivation {u : Unit}
    (h : (updateCultivation hash cult seed).run s = .ok u r) :
    world r = world s ∧ r.funds = s.funds := by
  obtain ⟨c, _, rfl | ⟨rv, _, rfl⟩⟩ := updateCultivation_ok h
  · exact ⟨rfl, rfl⟩
  · exact ⟨rfl, rfl⟩

/-- An update leaves the shares alone and takes nothing away. -/
theorem cultivation_after_update {u : Unit}
    (h : (updateCultivation hash cult seed).run s = .ok u r)
    (hs : s.cultivations[cult]? = some c) :
    ∃ c', r.cultivations[cult]? = some c' ∧ c'.beneficiaryMap = c.beneficiaryMap ∧
      c'.participants = c.participants ∧ c'.dissolved = c.dissolved ∧
      c.qiAccumulated ≤ c'.qiAccumulated ∧
      r.cultivations.insert cult c'.dissolved = s.cultivations.insert cult c.dissolved := by
  obtain ⟨c', hc', rfl | ⟨rv, hpos, rfl⟩⟩ := updateCultivation_ok h
  · exact ⟨c, hs, rfl, rfl, rfl, le_rfl, rfl⟩
  · cases hs.symm.trans hc'
    refine ⟨_, (getElem?_insert _ _ _ _).trans (if_pos rfl), rfl, rfl, rfl,
      le_add_of_nonneg_right hpos.le, ?_⟩
    apply Std.ExtTreeMap.ext_getElem?
    intro b
    simp only [getElem?_insert]
    split <;> rfl

/-- Once its update succeeds, a cultivation with all its NFAs is stopped and dissolved. -/
theorem stopCultivation_spec (hu : (updateCultivation hash cult seed).run s = .ok ⟨⟩ r)
    (hc : s.cultivations[cult]? = some c) (hb : Backed s c f) :
    ∃ t, (stopCultivation hash cult seed).run s = .ok ⟨⟩ t ∧ world t = world s ∧
      t.cultivations = s.cultivations.insert cult c.dissolved := by
  obtain ⟨hw, hfunds⟩ := world_updateCultivation hu
  obtain ⟨c', hc', hm, hp, hd, -, hins⟩ := cultivation_after_update hu hc
  have hf : r.funds[cultivationFund]? = some f := hfunds ▸ hb.fund
  let rv := if f.rewardQiBalance < c'.qiAccumulated then f.rewardQiBalance else c'.qiAccumulated
  have hle : rv ≤ f.rewardQiBalance := by
    dsimp only [rv]
    split <;> omega
  obtain ⟨q, hq, hqw, hqc⟩ := @payReward_spec r rv c'.beneficiaryMap.toList f hf
    (fun b hbm ↦ (exists_congr_world hw).mpr (hb.beneficiaries b (hm ▸ hbm)))
    (hm ▸ hb.nonempty)
    (fun hrv b hbm ↦ payout_nonneg hrv.le
      ((Int.mul_le_mul_of_nonneg_right hle (Int.natCast_nonneg _)).trans_lt
        (hb.fits b (hm ▸ hbm))))
  have hc'' : q.cultivations[cult]? = some c' := hqc ▸ hc'
  obtain ⟨t, ht, htw, -, htc⟩ := dissolveCultivation_spec hc''
    (fun p hpm ↦ (exists_congr_world (hqw.trans hw)).mpr (hb.participants p (hp ▸ hpm)))
  refine ⟨t, bind_ok.mpr ⟨⟨⟩, r, hu, bind_ok.mpr ⟨c', r, getCultivation_ok.mpr ⟨hc', rfl⟩,
    bind_ok.mpr ⟨r, r, rfl, bind_ok.mpr ⟨f, r, lookup_ok.mpr ⟨hf, rfl⟩,
      bind_ok.mpr ⟨⟨⟩, q, hq, ht⟩⟩⟩⟩⟩, htw.trans (hqw.trans hw), ?_⟩
  rw [htc, hqc, hins]

end Stop

end Taiyi.Ledger
