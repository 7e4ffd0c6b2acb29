import Mathlib.Data.List.Basic
import Mathlib.Data.List.Induction
import Mathlib.Tactic.Common

set_option autoImplicit false

/-! The moments of a run: the states that the events up to some point lead to. -/

namespace Taiyi.Library.Timeline

variable {σ ε : Type} (next : σ → ε → σ) (s₀ : σ)

/-- The state after some events. -/
def after (events : List ε) : σ := events.foldl next s₀

/-- Something held at a moment of the run, the present one included. -/
def Once (P : σ → Prop) (events : List ε) : Prop :=
  ∃ before rest, events = before ++ rest ∧ P (after next s₀ before)

/-- An event took place in a state, one after the other in the relation. -/
def Caused (P : σ → ε → Prop) (events : List ε) : Prop :=
  ∃ before e rest, events = before ++ e :: rest ∧ P (after next s₀ before) e

variable {next s₀} {events : List ε} {e : ε}

theorem after_snoc : after next s₀ (events ++ [e]) = next (after next s₀ events) e := by
  rw [after, List.foldl_append]
  rfl

section Moments

variable {P : σ → Prop} {Q : σ → ε → Prop}

theorem Once.now (h : P (after next s₀ events)) : Once next s₀ P events :=
  ⟨events, [], (List.append_nil _).symm, h⟩

theorem Once.snoc (h : Once next s₀ P events) : Once next s₀ P (events ++ [e]) := by
  obtain ⟨before, rest, rfl, hp⟩ := h
  exact ⟨before, rest ++ [e], List.append_assoc .., hp⟩

theorem Caused.now (h : Q (after next s₀ events) e) : Caused next s₀ Q (events ++ [e]) :=
  ⟨events, e, [], rfl, h⟩

theorem Caused.snoc {e' : ε} (h : Caused next s₀ Q events) : Caused next s₀ Q (events ++ [e']) := by
  obtain ⟨before, e, rest, rfl, hq⟩ := h
  exact ⟨before, e, rest ++ [e'], List.append_assoc .., hq⟩

/-- What caused something by now is the last event or had done so before. -/
theorem caused_snoc_iff {e' : ε} :
    Caused next s₀ Q (events ++ [e']) ↔ Q (after next s₀ events) e' ∨ Caused next s₀ Q events := by
  constructor
  · rintro ⟨before, e, rest, heq, hq⟩
    rcases List.eq_nil_or_concat' rest with rfl | ⟨rest', e'', rfl⟩
    · obtain ⟨rfl, hlast⟩ := List.append_inj' heq rfl
      cases hlast
      exact .inl hq
    · rw [← List.cons_append, ← List.append_assoc] at heq
      obtain ⟨rfl, -⟩ := List.append_inj' heq rfl
      exact .inr ⟨before, e, rest', rfl, hq⟩
  · rintro (h | h)
    · exact .now h
    · exact h.snoc

end Moments

/-- What holds at first and is kept by each event holds after every run; the events are at hand. -/
theorem induction {P : List ε → σ → Prop} (hnil : P [] s₀)
    (hstep : ∀ events e, P events (after next s₀ events) →
      P (events ++ [e]) (next (after next s₀ events) e)) (events : List ε) :
    P events (after next s₀ events) := by
  induction events using List.reverseRecOn with
  | nil => exact hnil
  | append_singleton events e ih =>
    rw [after_snoc]
    exact hstep events e ih

end Taiyi.Library.Timeline

namespace Taiyi.Library.History

/-- An entry of a history of cells: a write changes what is in one, a read is answered, and sessions
are started and then squashed into what there was before, or undone. -/
inductive Entry (κ α : Type)
  | write (cell : κ) (f : α → α)
  | read (cell : κ) (answer : α)
  | start
  | squash
  | undo

variable {κ α : Type} [DecidableEq κ] (init : κ → α)

/-- What is in the cells after a history, whose last entry comes first, and what was in them when
the sessions that are open were started. -/
def replay : List (Entry κ α) → (κ → α) × List (κ → α)
  | [] => (init, [])
  | .write cell f :: log =>
    (fun c ↦ if cell = c then f ((replay log).1 c) else (replay log).1 c, (replay log).2)
  | .read .. :: log => replay log
  | .start :: log => ((replay log).1, (replay log).1 :: (replay log).2)
  | .squash :: log => ((replay log).1, (replay log).2.tail)
  | .undo :: log => ((replay log).2.headD (replay log).1, (replay log).2.tail)

def value (log : List (Entry κ α)) (c : κ) : α := (replay init log).1 c

def saved (log : List (Entry κ α)) : List (κ → α) := (replay init log).2

/-- Every read was answered with what the writes before it had left. -/
def Consistent : List (Entry κ α) → Prop
  | [] => True
  | .read cell answer :: log => answer = value init log cell ∧ Consistent log
  | _ :: log => Consistent log

variable {init} {log log' : List (Entry κ α)}

theorem value_write_self (cell : κ) (f : α → α) (log : List (Entry κ α)) :
    value init (.write cell f :: log) cell = f (value init log cell) := if_pos rfl

theorem value_write_other {cell c : κ} (h : cell ≠ c) (f : α → α) (log : List (Entry κ α)) :
    value init (.write cell f :: log) c = value init log c := if_neg h

/-- A session that is undone after others were closed leads back to where it was started. -/
theorem value_undo (h : saved init log' = saved init (.start :: log)) (c : κ) :
    value init (.undo :: log') c = value init log c := by
  have hv : value init (.undo :: log') c = ((saved init log').headD (replay init log').1) c := rfl
  rw [hv, h]
  rfl

theorem saved_squash (h : saved init log' = saved init (.start :: log)) :
    saved init (.squash :: log') = saved init log := congrArg List.tail h

theorem saved_undo (h : saved init log' = saved init (.start :: log)) :
    saved init (.undo :: log') = saved init log := congrArg List.tail h

end Taiyi.Library.History
