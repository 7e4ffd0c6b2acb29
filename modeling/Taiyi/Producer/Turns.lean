import Mathlib.Data.List.Infix
import Taiyi.Producer.Assemble

set_option autoImplicit false

namespace Taiyi.Producer

open Transactions

variable {Op Sig TrxId Result World Global Plugin Key Digest : Type} [DecidableEq TrxId]
  [TransactionId Op TrxId] [DecidableEq Key] [DecidableEq Digest]
  [Engine Op Sig Result World Global Plugin Key Digest]

namespace Assembly

section Turns

variable (skip : SkipFlags) (maximumBlockSize timestamp : ℕ)

/-- What one transaction does to the assembly, also after the loop has stopped. -/
def turn (a : Assembly Op Sig TrxId Result World Global Plugin) (t : SignedTransaction Op Sig) :
    Assembly Op Sig TrxId Result World Global Plugin :=
  if taiyiBlockGenerationPostponedTxLimit < a.postponed then a
  else a.round skip maximumBlockSize timestamp t

/-- Every transaction with the assembly in which it has its turn. -/
def turns : List (SignedTransaction Op Sig) → Assembly Op Sig TrxId Result World Global Plugin →
    List (Assembly Op Sig TrxId Result World Global Plugin × SignedTransaction Op Sig)
  | [], _ => []
  | t :: ts, a => (a, t) :: turns ts (a.turn skip maximumBlockSize timestamp t)

end Turns

variable {skip : SkipFlags} {maximumBlockSize timestamp : ℕ}
  {a : Assembly Op Sig TrxId Result World Global Plugin} {t : SignedTransaction Op Sig}
  {ts : List (SignedTransaction Op Sig)}

theorem turn_of_not_considers (h : ¬ a.Considers maximumBlockSize timestamp t) :
    ∃ k, a.turn skip maximumBlockSize timestamp t = { a with postponed := k } := by
  unfold turn
  split
  · exact ⟨_, rfl⟩
  next hlimit =>
  unfold round
  split
  · exact ⟨_, rfl⟩
  next hexp =>
  dsimp only
  split
  · exact ⟨_, rfl⟩
  · next hsize =>
    exact absurd ⟨Nat.le_of_not_lt hlimit, Nat.le_of_not_lt hexp, Nat.lt_of_not_le hsize⟩ h

theorem turn_of_considers (h : a.Considers maximumBlockSize timestamp t) :
    a.turn skip maximumBlockSize timestamp t =
      a.tryTransaction skip t (a.totalBlockSize + Engine.packSize t) := by
  unfold turn round
  rw [if_neg (Nat.not_lt.mpr h.1), if_neg (Nat.not_lt.mpr h.2.1)]
  exact if_neg (Nat.not_le.mpr h.2.2)

/-- A turn changes nothing but a count, fails, or applies the transaction. -/
theorem turn_cases (skip : SkipFlags) (maximumBlockSize timestamp : ℕ)
    (a : Assembly Op Sig TrxId Result World Global Plugin) (t : SignedTransaction Op Sig) :
    (¬ a.Considers maximumBlockSize timestamp t ∧
        ∃ k, a.turn skip maximumBlockSize timestamp t = { a with postponed := k }) ∨
      a.Considers maximumBlockSize timestamp t ∧
        ((¬ a.Applies skip t ∧ a.turn skip maximumBlockSize timestamp t =
            { a with producing := false
                     process := (applyTransaction true skip t a.session a.process).2 }) ∨
          ∃ s, a.Applies skip t ∧
            (applyTransaction true skip t a.session a.process).1 = .ok s ∧
            a.turn skip maximumBlockSize timestamp t =
              { a with session := s, producing := false
                       process := (applyTransaction true skip t a.session a.process).2
                       totalBlockSize := a.totalBlockSize + Engine.packSize t
                       included := a.included ++ [t] }) := by
  by_cases hc : a.Considers maximumBlockSize timestamp t
  · refine .inr ⟨hc, ?_⟩
    rw [turn_of_considers hc]
    unfold tryTransaction Applies
    dsimp only
    generalize applyTransaction true skip t a.session a.process = x
    obtain ⟨_ | s, p⟩ := x
    · exact .inl ⟨nofun, rfl⟩
    · exact .inr ⟨s, rfl, rfl, rfl⟩
  · exact .inl ⟨hc, turn_of_not_considers hc⟩

theorem applyPending_stopped (h : taiyiBlockGenerationPostponedTxLimit < a.postponed) :
    applyPending skip maximumBlockSize timestamp ts a = a := by
  cases ts with
  | nil => rfl
  | cons t ts => exact if_pos h

/-- The loop takes its turns one after the other. -/
theorem applyPending_eq (ts : List (SignedTransaction Op Sig))
    (a : Assembly Op Sig TrxId Result World Global Plugin) :
    applyPending skip maximumBlockSize timestamp ts a =
      ts.foldl (turn skip maximumBlockSize timestamp) a := by
  induction ts generalizing a with
  | nil => rfl
  | cons t ts ih =>
    rw [applyPending, List.foldl_cons, ← ih]
    unfold turn
    split
    · next h => exact (applyPending_stopped h).symm
    · rfl

/-- The included transactions are those that are considered and apply, in their order. -/
theorem included_applyPending (ts : List (SignedTransaction Op Sig))
    (a : Assembly Op Sig TrxId Result World Global Plugin) :
    (applyPending skip maximumBlockSize timestamp ts a).included =
      a.included ++ ((turns skip maximumBlockSize timestamp ts a).filter fun r ↦
        r.1.Considers maximumBlockSize timestamp r.2 ∧ r.1.Applies skip r.2).map Prod.snd := by
  rw [applyPending_eq]
  induction ts generalizing a with
  | nil => rw [turns, List.filter_nil, List.map_nil, List.append_nil]; rfl
  | cons t ts ih =>
    rw [List.foldl_cons, ih, turns, List.filter_cons]
    rcases turn_cases skip maximumBlockSize timestamp a t with ⟨hc, k, ht⟩ | ⟨hc, ⟨hf, ht⟩ | ⟨s, hf, -, ht⟩⟩
    · rw [if_neg (by simp [hc]), ht]
    · rw [if_neg (by simp [hf]), ht]
    · rw [if_pos (by simp [hc, hf]), ht, List.map_cons, List.append_assoc]
      rfl

/-- What holds before the first turn and is kept by every turn holds at the end. -/
theorem applyPending_invariant {P : Assembly Op Sig TrxId Result World Global Plugin → Prop}
    (ts : List (SignedTransaction Op Sig)) (h : P a)
    (hstep : ∀ r ∈ turns skip maximumBlockSize timestamp ts a, P r.1 →
      P (r.1.turn skip maximumBlockSize timestamp r.2)) :
    P (applyPending skip maximumBlockSize timestamp ts a) := by
  rw [applyPending_eq]
  induction ts generalizing a with
  | nil => exact h
  | cons t ts ih =>
    exact ih (hstep _ List.mem_cons_self h) fun r hr ↦ hstep r (List.mem_cons_of_mem _ hr)

theorem turns_append (ts us : List (SignedTransaction Op Sig))
    (a : Assembly Op Sig TrxId Result World Global Plugin) :
    turns skip maximumBlockSize timestamp (ts ++ us) a =
      turns skip maximumBlockSize timestamp ts a ++
        turns skip maximumBlockSize timestamp us
          (applyPending skip maximumBlockSize timestamp ts a) := by
  rw [applyPending_eq]
  induction ts generalizing a with
  | nil => rfl
  | cons t ts ih => rw [List.cons_append, turns, ih, turns, List.foldl_cons, List.cons_append]

/-- The sizes are counted, and the block stays under its limit once a transaction is in it. -/
theorem totalBlockSize_applyPending (hempty : a.included = []) (ts : List (SignedTransaction Op Sig)) :
    (applyPending skip maximumBlockSize timestamp ts a).totalBlockSize = a.totalBlockSize +
        ((applyPending skip maximumBlockSize timestamp ts a).included.map Engine.packSize).sum ∧
      ((applyPending skip maximumBlockSize timestamp ts a).included = [] ∨
        (applyPending skip maximumBlockSize timestamp ts a).totalBlockSize < maximumBlockSize) := by
  refine applyPending_invariant (a := a) (P := fun x ↦ x.totalBlockSize = a.totalBlockSize +
    (x.included.map Engine.packSize).sum ∧ (x.included = [] ∨ x.totalBlockSize < maximumBlockSize))
    ts ?_ ?_
  · rw [hempty]
    exact ⟨rfl, .inl rfl⟩
  · rintro ⟨x, t⟩ - ⟨hsize, hlt⟩
    rcases turn_cases skip maximumBlockSize timestamp x t with
      ⟨hc, k, ht⟩ | ⟨hc, ⟨hf, ht⟩ | ⟨s, hf, -, ht⟩⟩ <;> rw [ht]
    · exact ⟨hsize, hlt⟩
    · exact ⟨hsize, hlt⟩
    · refine ⟨?_, .inr hc.2.2⟩
      change x.totalBlockSize + _ = _
      rw [hsize, List.map_append, List.sum_append, List.map_singleton, List.sum_singleton,
        Nat.add_assoc]

/-- An overrun stays to the end. -/
theorem process_applyPending (ts : List (SignedTransaction Op Sig)) :
    a.process.Follows (applyPending skip maximumBlockSize timestamp ts a).process := by
  refine applyPending_invariant (a := a) (P := fun x ↦ a.process.Follows x.process) ts (.refl _) ?_
  rintro ⟨x, t⟩ - h
  rcases turn_cases skip maximumBlockSize timestamp x t with
    ⟨hc, k, ht⟩ | ⟨hc, ⟨hf, ht⟩ | ⟨s, hf, -, ht⟩⟩ <;> rw [ht]
  · exact h
  · exact h.trans (applyTransaction_follows _)
  · exact h.trans (applyTransaction_follows _)

/-- The flag is down after the loop when it was down before. -/
theorem producing_applyPending (h : a.producing = false) (ts : List (SignedTransaction Op Sig)) :
    (applyPending skip maximumBlockSize timestamp ts a).producing = false := by
  refine applyPending_invariant (a := a) (P := fun x ↦ x.producing = false) ts h ?_
  rintro ⟨x, t⟩ - hx
  rcases turn_cases skip maximumBlockSize timestamp x t with
    ⟨hc, k, ht⟩ | ⟨hc, ⟨hf, ht⟩ | ⟨s, hf, -, ht⟩⟩ <;> rw [ht]
  exact hx

/-- At its turn no considered transaction overruns the process. -/
def Sound (skip : SkipFlags) (maximumBlockSize timestamp : ℕ)
    (ts : List (SignedTransaction Op Sig))
    (a : Assembly Op Sig TrxId Result World Global Plugin) : Prop :=
  ∀ r ∈ turns skip maximumBlockSize timestamp ts a, r.1.Considers maximumBlockSize timestamp r.2 →
    (applyTransaction true skip r.2 r.1.session r.1.process).2.overrun = false

/-- The included transactions apply from `start` on with the effect that they had in the
assembly, in every process between operations. -/
structure Replays (skip : SkipFlags) (start : State Op Sig TrxId Result (Content World Global Plugin))
    (a : Assembly Op Sig TrxId Result World Global Plugin) : Prop where
  idle : a.process.invokingPath = []
  sound : a.process.overrun = false
  replay : ∀ q : Process, q.invokingPath = [] → q.overrun = false →
    ∃ s p, applyTransactions false skip a.included start q = (.ok s, p) ∧
      Process.Alike a.process p ∧ Same a.session s ∧
      s.world = { start.world with world := a.session.world.world }

variable {start : State Op Sig TrxId Result (Content World Global Plugin)}

theorem Replays.fail {p : Process} {b : Bool} (h : Replays skip start a)
    (hp : a.process.Follows p) (hsound : p.overrun = false) :
    Replays skip start { a with producing := b, process := p } where
  idle := hp.path h.idle
  sound := hsound
  replay q hq hqs := by
    obtain ⟨s, p', hs, halike, hsame, hw⟩ := h.replay q hq hqs
    refine ⟨s, p', hs, ⟨hp.path h.idle, halike.right, ?_⟩, hsame, hw⟩
    rw [← halike.overrun, h.sound]
    exact hsound

theorem applyTransactions_append {ts us : List (SignedTransaction Op Sig)} {producing : Bool}
    {s s₁ : State Op Sig TrxId Result (Content World Global Plugin)} {p p₁ : Process}
    (h : applyTransactions producing skip ts s p = (.ok s₁, p₁)) :
    applyTransactions producing skip (ts ++ us) s p =
      applyTransactions producing skip us s₁ p₁ := by
  induction ts generalizing s p with
  | nil =>
    cases h
    rfl
  | cons t ts ih =>
    obtain ⟨s₂, p₂, ht, hts⟩ := andThen_ok.mp h
    rw [List.cons_append, applyTransactions, ht]
    exact ih hts

theorem Replays.apply {s' : State Op Sig TrxId Result (Content World Global Plugin)}
    {p' : Process} {n : ℕ} (h : Replays skip start a)
    (ht : applyTransaction true skip t a.session a.process = (.ok s', p'))
    (hsound : p'.overrun = false) :
    Replays skip start
      { a with session := s', producing := false, process := p', totalBlockSize := n
               included := a.included ++ [t] } where
  idle := by
    have hp : a.process.Follows (applyTransaction true skip t a.session a.process).2 :=
      applyTransaction_follows a.process
    rw [ht] at hp
    exact hp.path h.idle
  sound := hsound
  replay q hq hqs := by
    obtain ⟨s, p, hs, halike, hsame, hw⟩ := h.replay q hq hqs
    obtain ⟨s₁, q₁, ht₁, halike₁, hsame₁, hw₁⟩ := applyTransaction_of_producing halike hsame ht
    refine ⟨s₁, q₁, ?_, halike₁, hsame₁, ?_⟩
    · rw [applyTransactions_append hs, applyTransactions, ht₁]
      rfl
    · rw [hw₁, hw]

theorem replays_applyPending (ha : a.included = []) (hidle : a.process.invokingPath = [])
    (hover : a.process.overrun = false) (hs : Same a.session start)
    (hsound : Sound skip maximumBlockSize timestamp ts a) :
    Replays skip start (applyPending skip maximumBlockSize timestamp ts a) := by
  refine applyPending_invariant ts ⟨hidle, hover, fun q hq hqs ↦ ?_⟩ ?_
  · refine ⟨start, q, ?_, ⟨hidle, hq, hover.trans hqs.symm⟩, hs, ?_⟩
    · rw [ha]
      rfl
    · rw [← hs.world]
  · rintro ⟨x, t⟩ hx h
    rcases turn_cases skip maximumBlockSize timestamp x t with
      ⟨hc, k, ht⟩ | ⟨hc, ⟨hf, ht⟩ | ⟨s, hf, hok, ht⟩⟩ <;> rw [ht]
    · exact ⟨h.idle, h.sound, h.replay⟩
    · exact h.fail (applyTransaction_follows _) (hsound _ hx hc)
    · exact h.apply (Prod.ext hok rfl) (hsound _ hx hc)

/-- Without an overrun at the end there was none at any turn. -/
theorem sound_of_applyPending
    (h : (applyPending skip maximumBlockSize timestamp ts a).process.overrun = false) :
    Sound skip maximumBlockSize timestamp ts a := by
  induction ts generalizing a with
  | nil => exact fun r hr ↦ absurd hr List.not_mem_nil
  | cons t ts ih =>
    rw [applyPending_eq, List.foldl_cons, ← applyPending_eq] at h
    intro r hr hc
    rcases List.mem_cons.mp hr with rfl | hr
    · rcases turn_cases skip maximumBlockSize timestamp a t with
        ⟨hnot, -, -⟩ | ⟨-, ⟨-, ht⟩ | ⟨s, -, -, ht⟩⟩
      · exact absurd hc hnot
      all_goals
        have hp : (a.turn skip maximumBlockSize timestamp t).process.Follows
          (applyPending skip maximumBlockSize timestamp ts
            (a.turn skip maximumBlockSize timestamp t)).process := process_applyPending ts
        refine Bool.eq_false_iff.mpr fun hover ↦ ?_
        rw [hp.overrun (by rw [ht]; exact hover)] at h
        cases h
    · exact ih h r hr hc

end Assembly

end Taiyi.Producer
