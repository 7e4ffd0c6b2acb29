import Taiyi.Ledger.Frames
import Taiyi.Library.Deposits
import Taiyi.Library.IdMap

set_option autoImplicit false

namespace Taiyi.Ledger

open Library.IdMap Library.Outcome Library.Frame Library.Deposits

/-- The value that an NFA has in a cultivation. -/
def putIn (s : State) (p : ℕ) : ℕ := ((s.nfas[p]?).map Nfa.cultivationValue).getD 0

def Member (s : State) (cult p : ℕ) : Prop :=
  ∃ c, s.cultivations[cult]? = some c ∧ p ∈ c.participants

/-- The two sides of the membership agree: who is in a cultivation has a value in it and is in no
other, and who has a value in one is in one. -/
structure Enrolled (s : State) : Prop where
  valued : ∀ cult p, Member s cult p → 0 < putIn s p
  alone : ∀ b d p, Member s b p → Member s d p → b = d
  joined : ∀ p, 0 < putIn s p → ∃ cult, Member s cult p

/-- Who is in which cultivation, with which value. -/
def roll (s : State) : (ℕ → ℕ) × (ℕ → ℕ → Prop) := (putIn s, Member s)

def Nfa.repaid (n : Nfa) : Nfa :=
  { n with assets := n.assets.add n.cultivationValue .qi, cultivationValue := 0 }

/-- The step in which an NFA puts a part of its QI into a cultivation. -/
def Joined (s t : State) (cult p value : ℕ) : Prop :=
  ∃ c n, s.cultivations[cult]? = some c ∧ s.nfas[p]? = some n ∧ n.cultivationValue = 0 ∧
    0 < value ∧
    t.nfas = s.nfas.insert p
      { n with cultivationValue := value, assets := n.assets.add (-value) .qi } ∧
    t.cultivations = s.cultivations.insert cult { c with participants := c.participants.insert p }

/-- The step in which the participants of a cultivation, and only they, are repaid. -/
def Dissolved (s t : State) (cult : ℕ) (c : Cultivation) : Prop :=
  s.cultivations[cult]? = some c ∧
    (∀ p, t.nfas[p]? = if p ∈ c.participants then (s.nfas[p]?).map Nfa.repaid else s.nfas[p]?) ∧
    t.cultivations = s.cultivations.insert cult c.dissolved

/-- What can happen to the members of the cultivations, with what one NFA books of it. -/
inductive Turn (p : ℕ) : State → List (Entry ℕ) → State → Prop
  | rest {s t : State} : roll t = roll s → Turn p s [] t
  | join {s t : State} {cult q value : ℕ} :
      Joined s t cult q value → Turn p s (if q = p then [.put cult value] else []) t
  | dissolve {s t : State} {cult : ℕ} {c : Cultivation} :
      Dissolved s t cult c →
      Turn p s (if p ∈ c.participants then [.back cult (putIn s p)] else []) t

/-- One turn after the other, with the book of one NFA. -/
inductive Turns (p : ℕ) (s : State) : List (Entry ℕ) → State → Prop
  | start : Turns p s [] s
  | step {t u : State} {book new : List (Entry ℕ)} :
      Turns p s book t → Turn p t new u → Turns p s (book ++ new) u

/-- What an NFA has in a cultivation. -/
def Holding (s : State) (p : ℕ) : Option (ℕ × ℕ) → Prop
  | none => putIn s p = 0
  | some (cult, value) => Member s cult p ∧ putIn s p = value

section Rows

variable {s t : State} {p q cult b : ℕ} {m : Nfa} {c d : Cultivation}

theorem putIn_insert (h : t.nfas = s.nfas.insert q m) :
    putIn t p = if q = p then m.cultivationValue else putIn s p := by
  unfold putIn
  rw [h, getElem?_insert]
  split <;> rfl

theorem putIn_congr (h : t.nfas = s.nfas) : putIn t p = putIn s p := by
  unfold putIn
  rw [h]

theorem member_insert (h : t.cultivations = s.cultivations.insert cult d) :
    Member t b p ↔ if cult = b then p ∈ d.participants else Member s b p := by
  unfold Member
  rw [h, getElem?_insert]
  split
  · exact ⟨fun ⟨_, hd, hp⟩ ↦ Option.some.inj hd ▸ hp, fun hp ↦ ⟨d, rfl, hp⟩⟩
  · rfl

theorem member_congr (h : t.cultivations = s.cultivations) : Member t b p ↔ Member s b p := by
  unfold Member
  rw [h]

/-- A cultivation that is there has the members it lists. -/
theorem member_iff (hc : s.cultivations[cult]? = some c) :
    Member s cult p ↔ p ∈ c.participants :=
  ⟨fun ⟨_, hd, hp⟩ ↦ Option.some.inj (hc.symm.trans hd) ▸ hp, fun hp ↦ ⟨c, hc, hp⟩⟩

theorem roll_eq (hn : ∀ p, putIn t p = putIn s p) (hm : ∀ b p, Member t b p ↔ Member s b p) :
    roll t = roll s :=
  Prod.ext (funext hn) (funext fun b ↦ funext fun p ↦ propext (hm b p))

theorem putIn_of_roll (h : roll t = roll s) : putIn t p = putIn s p :=
  congrFun (congrArg Prod.fst h) p

theorem member_of_roll (h : roll t = roll s) : Member t b p ↔ Member s b p :=
  iff_of_eq (congrFun (congrFun (congrArg Prod.snd h) b) p)

/-- A write of an NFA that leaves its value in a cultivation alone. -/
theorem roll_insert_nfa (h : t.nfas = s.nfas.insert q m) (hm : m.cultivationValue = putIn s q)
    (hc : t.cultivations = s.cultivations) : roll t = roll s := by
  refine roll_eq (fun p ↦ ?_) fun _ _ ↦ member_congr hc
  rw [putIn_insert h]
  split
  · next hq => rw [hm, hq]
  · rfl

/-- A write of a cultivation that leaves its participants alone. -/
theorem roll_insert_cultivation (h : t.cultivations = s.cultivations.insert cult d)
    (hd : ∀ p, p ∈ d.participants ↔ Member s cult p) (hn : t.nfas = s.nfas) : roll t = roll s := by
  refine roll_eq (fun _ ↦ putIn_congr hn) fun b p ↦ ?_
  rw [member_insert h]
  split
  · next hb => rw [hd, hb]
  · rfl

theorem putIn_of_some (h : s.nfas[q]? = some m) : putIn s q = m.cultivationValue := by
  unfold putIn
  rw [h]
  rfl

end Rows

section Turns

variable {s t u : State} {p q cult value b : ℕ} {c : Cultivation}

namespace Joined

variable (h : Joined s t cult q value)

include h

theorem putIn_eq : putIn t p = if q = p then value else putIn s p := by
  obtain ⟨c, n, -, -, -, -, hnfas, -⟩ := h
  exact putIn_insert hnfas

theorem putIn_before : putIn s q = 0 := by
  obtain ⟨c, n, -, hn, hzero, -⟩ := h
  exact (putIn_of_some hn).trans hzero

theorem member_joined : Member t b p ↔ Member s b p ∨ cult = b ∧ q = p := by
  obtain ⟨c, n, hc, -, -, -, -, hcults⟩ := h
  rw [member_insert hcults]
  split
  · next hb =>
    subst hb
    rw [member_iff hc]
    simp [or_comm]
  · next hb => simp [hb]

theorem enrolled (hs : Enrolled s) : Enrolled t := by
  have hpos : 0 < value := by
    obtain ⟨c, n, -, -, -, hpos, -⟩ := h
    exact hpos
  -- the NFA that joins has no value anywhere yet
  have hout : ∀ b, ¬Member s b q := fun b hb ↦ (hs.valued b q hb).ne' h.putIn_before
  refine ⟨fun b p hm ↦ ?_, fun b d p hb hd ↦ ?_, fun p hp ↦ ?_⟩
  · rw [h.putIn_eq]
    split
    · exact hpos
    · next hq => exact hs.valued b p ((h.member_joined.mp hm).resolve_right fun h ↦ hq h.2)
  · rcases h.member_joined.mp hb with hb | ⟨rfl, rfl⟩ <;>
      rcases h.member_joined.mp hd with hd | ⟨rfl, hq⟩
    · exact hs.alone b d p hb hd
    · exact absurd (hq ▸ hb) (hout b)
    · exact absurd hd (hout d)
    · rfl
  · rw [h.putIn_eq] at hp
    split at hp
    · next hq => exact ⟨cult, h.member_joined.mpr (.inr ⟨rfl, hq⟩)⟩
    · obtain ⟨b, hb⟩ := hs.joined p hp
      exact ⟨b, h.member_joined.mpr (.inl hb)⟩

end Joined

namespace Dissolved

variable (h : Dissolved s t cult c)

include h

theorem putIn_eq : putIn t p = if p ∈ c.participants then 0 else putIn s p := by
  unfold putIn
  rw [h.2.1]
  split
  · cases s.nfas[p]? <;> rfl
  · rfl

theorem member_dissolved : Member t b p ↔ Member s b p ∧ cult ≠ b := by
  rw [member_insert h.2.2]
  split
  · next hb => simp [hb, Cultivation.dissolved]
  · next hb => simp [hb]

theorem enrolled (hs : Enrolled s) : Enrolled t := by
  have hone : ∀ b p, Member t b p → p ∉ c.participants := fun b p hm hp ↦ by
    obtain ⟨hm, hb⟩ := h.member_dissolved.mp hm
    exact hb (hs.alone cult b p ((member_iff h.1).mpr hp) hm)
  refine ⟨fun b p hm ↦ ?_, fun b d p hb hd ↦ ?_, fun p hp ↦ ?_⟩
  · rw [h.putIn_eq, if_neg (hone b p hm)]
    exact hs.valued b p (h.member_dissolved.mp hm).1
  · exact hs.alone b d p (h.member_dissolved.mp hb).1 (h.member_dissolved.mp hd).1
  · rw [h.putIn_eq] at hp
    split at hp
    · cases hp
    · next hnot =>
      obtain ⟨b, hb⟩ := hs.joined p hp
      exact ⟨b, h.member_dissolved.mpr ⟨hb, fun he ↦ hnot ((member_iff h.1).mp (he ▸ hb))⟩⟩

end Dissolved

theorem Enrolled.of_roll (hs : Enrolled s) (h : roll t = roll s) : Enrolled t where
  valued b p hm := (putIn_of_roll h).symm ▸ hs.valued b p ((member_of_roll h).mp hm)
  alone b d p hb hd := hs.alone b d p ((member_of_roll h).mp hb) ((member_of_roll h).mp hd)
  joined p hp := by
    obtain ⟨b, hb⟩ := hs.joined p (putIn_of_roll h ▸ hp)
    exact ⟨b, (member_of_roll h).mpr hb⟩

theorem Turn.enrolled {new : List (Entry ℕ)} (h : Turn p s new t) (hs : Enrolled s) :
    Enrolled t := by
  cases h with
  | rest h => exact hs.of_roll h
  | join h => exact h.enrolled hs
  | dissolve h => exact h.enrolled hs

theorem Turns.trans {book new : List (Entry ℕ)} (h : Turns p s book t) (h' : Turns p t new u) :
    Turns p s (book ++ new) u := by
  induction h' with
  | start => rwa [List.append_nil]
  | step _ hturn ih =>
    rw [← List.append_assoc]
    exact ih.step hturn

theorem Turn.turns {new : List (Entry ℕ)} (h : Turn p s new t) : Turns p s new t :=
  Turns.start.step h

/-- A turn books what an NFA puts in, and books as coming back what it held. -/
theorem Turn.paired {book new : List (Entry ℕ)} {held : Option (ℕ × ℕ)} (h : Turn p s new t)
    (hs : Enrolled s) (hbook : Paired book held) (hheld : Holding s p held) :
    ∃ held', Paired (book ++ new) held' ∧ Holding t p held' := by
  -- an NFA that the turn is not about holds what it held
  have hstay : putIn t p = putIn s p → (∀ b, Member s b p → Member t b p) → Holding t p held :=
    fun hp hm ↦ by
      match held, hheld with
      | none, hheld => exact hp.trans hheld
      | some (b, v), hheld => exact ⟨hm b hheld.1, hp.trans hheld.2⟩
  cases h with
  | rest h =>
    rw [List.append_nil]
    exact ⟨held, hbook, hstay (putIn_of_roll h) fun b ↦ (member_of_roll h).mpr⟩
  | @join _ cult q value h =>
    split
    · next hq =>
      subst hq
      obtain rfl : held = none := by
        match held, hheld with
        | none, _ => rfl
        | some (b, v), hheld => exact absurd h.putIn_before (hs.valued b q hheld.1).ne'
      exact ⟨some (cult, value), hbook.put, h.member_joined.mpr (.inr ⟨rfl, rfl⟩),
        h.putIn_eq.trans (if_pos rfl)⟩
    · next hq =>
      rw [List.append_nil]
      exact ⟨held, hbook, hstay (h.putIn_eq.trans (if_neg hq)) fun b hb ↦
        h.member_joined.mpr (.inl hb)⟩
  | @dissolve _ cult c h =>
    split
    · next hp =>
      have hm := (member_iff h.1).mpr hp
      obtain rfl : held = some (cult, putIn s p) := by
        match held, hheld with
        | none, hheld => exact absurd hheld (hs.valued cult p hm).ne'
        | some (b, v), hheld => rw [hs.alone b cult p hheld.1 hm, hheld.2]
      exact ⟨none, hbook.back, h.putIn_eq.trans (if_pos hp)⟩
    · next hp =>
      rw [List.append_nil]
      exact ⟨held, hbook, hstay (h.putIn_eq.trans (if_neg hp)) fun b hb ↦
        h.member_dissolved.mpr ⟨hb, fun he ↦ hp ((member_iff h.1).mp (he ▸ hb))⟩⟩

theorem Turns.paired {book : List (Entry ℕ)} (h : Turns p s book t) (hs : Enrolled s)
    (hp : putIn s p = 0) :
    Enrolled t ∧ ∃ held, Paired book held ∧ Holding t p held := by
  induction h with
  | start => exact ⟨hs, none, .empty, hp⟩
  | step _ hturn ih =>
    obtain ⟨ht, held, hbook, hheld⟩ := ih
    exact ⟨hturn.enrolled ht, hturn.paired ht hbook hheld⟩

/-- Enrolled states lead to enrolled states by turns. -/
def Booked (s t : State) : Prop := Enrolled s → Enrolled t ∧ ∀ p, ∃ book, Turns p s book t

instance : IsPreorder State Booked where
  refl s hs := ⟨hs, fun _ ↦ ⟨[], .start⟩⟩
  trans s t u h h' hs := by
    obtain ⟨ht, hst⟩ := h hs
    obtain ⟨hu, htu⟩ := h' ht
    refine ⟨hu, fun p ↦ ?_⟩
    obtain ⟨book, hbook⟩ := hst p
    obtain ⟨new, hnew⟩ := htu p
    exact ⟨book ++ new, hbook.trans hnew⟩

theorem booked_of_turn (h : Enrolled s → ∀ p, ∃ new, Turn p s new t) : Booked s t := fun hs ↦ by
  refine ⟨?_, fun p ↦ ?_⟩
  · obtain ⟨new, hnew⟩ := h hs 0
    exact hnew.enrolled hs
  · obtain ⟨new, hnew⟩ := h hs p
    exact ⟨new, hnew.turns⟩

end Turns

end Taiyi.Ledger
