import Taiyi.Recovery.Safety

set_option autoImplicit false

namespace Taiyi.Recovery

open Library.RowList Library.SparseRows Library.Timeline Signing

variable {Key : Type} [DecidableEq Key]

/-- An event replaces the owner authority of an account, at a time. -/
def Replaces (a : Name) (x : Authority Key Name) (time : ℕ) (s : State Key) (e : Event Key) : Prop :=
  s.headBlockTime = time ∧ s.owner a = some x ∧ (s.next e).owner a ≠ some x

/-- The same, once the blocks are tracked. -/
def ReplacesTracked (a : Name) (x : Authority Key Name) (time : ℕ) (s : State Key) (e : Event Key) : Prop :=
  taiyiOwnerAuthHistoryTrackingStartBlockNum ≤ s.headBlockNum ∧ Replaces a x time s e

/-- The requests and the history of a run come from its events and moments. -/
structure Traced (s₀ : State Key) (events : List (Event Key)) (s : State Key) : Prop where
  sound : Sound s
  requested : ∀ r ∈ s.requests, Caused State.next s₀ (fun t e ↦ Requests t e r) events
  owned : ∀ h ∈ s.history, Once State.next s₀
    (fun t ↦ t.owner h.account = some h.previousOwnerAuthority ∧ t.headBlockTime = h.lastValidTime) events
  recorded : ∀ a x time, Caused State.next s₀ (ReplacesTracked a x time) events →
    s.headBlockTime ≤ time + taiyiOwnerAuthRecoveryPeriod → ⟨a, x, time⟩ ∈ s.history

section Step

variable {s₀ s t : State Key} {events : List (Event Key)} {e : Event Key}

theorem next_of_ok (h : s.apply e = .ok t) : s.next e = t := by
  rw [State.next, h]

theorem Traced.operation (hs : Traced s₀ events (after State.next s₀ events))
    (hok : (after State.next s₀ events).apply e = .ok t) (hop : Operates (after State.next s₀ events) t)
    (hreq : RequestsFrom (after State.next s₀ events) e t) : Traced s₀ (events ++ [e]) t := by
  have hhistory := hop.history
  refine ⟨hs.sound.operation hop hreq, fun r hr ↦ ?_, fun h hh ↦ ?_, fun a x time hc htime ↦ ?_⟩
  · rcases hreq.origin r hr with hr | hr
    · exact (hs.requested r hr).snoc
    · exact .now hr
  · rcases hhistory with heq | ⟨a, old, hold, heq⟩
    · exact (hs.owned h (heq ▸ hh)).snoc
    · rw [heq, List.mem_append, List.mem_singleton] at hh
      rcases hh with hh | rfl
      · exact (hs.owned h hh).snoc
      · exact (Once.now ⟨hold, rfl⟩).snoc
  · rw [hop.1.headBlockTime] at htime
    rcases caused_snoc_iff.mp hc with ⟨htracked, rfl, howner, hnew⟩ | hc
    · -- the event that replaces the authority writes it to the history
      rw [next_of_ok hok] at hnew
      rcases hop.2 with ⟨-, hkeeps⟩ | ⟨a', old, hold, hhist, hother⟩
      · exact absurd (hkeeps a x howner) hnew
      · by_cases heq : a = a'
        · subst heq
          rw [howner, Option.some.injEq] at hold
          subst hold
          rw [hhist, if_pos (show 1 ≤ (after State.next s₀ events).headBlockNum from htracked)]
          exact List.mem_append_right _ List.mem_cons_self
        · exact absurd (hother a x heq howner) hnew
    · have hmem := hs.recorded a x time hc htime
      rcases hhistory with heq | ⟨a', old, -, heq⟩
      · exact heq ▸ hmem
      · exact heq ▸ List.mem_append_left _ hmem

theorem Traced.block {timestamp : ℕ} (hs : Traced s₀ events (after State.next s₀ events))
    (hok : (after State.next s₀ events).applyBlock timestamp = .ok t) :
    Traced s₀ (events ++ [.block timestamp]) t := by
  obtain ⟨hlt, -, htime, hauth, hreq, hhist⟩ := applyBlock_ok hok
  refine ⟨hs.sound.block hok, fun r hr ↦ ?_, fun h hh ↦ ?_, fun a x time hc hle ↦ ?_⟩
  · exact (hs.requested r ((List.dropWhile_sublist _).subset (hreq ▸ hr))).snoc
  · exact (hs.owned h ((List.dropWhile_sublist _).subset (hhist ▸ hh))).snoc
  · rw [htime] at hle
    rcases caused_snoc_iff.mp hc with ⟨-, -, howner, hnew⟩ | hc
    · have hsame : (State.next (after State.next s₀ events) (.block timestamp)).owner a = some x := by
        rw [next_of_ok (show State.apply _ (.block timestamp) = .ok t from hok), State.owner, hauth]
        exact howner
      exact absurd hsame hnew
    · rw [hhist]
      refine mem_dropWhile (hs.recorded a x time hc (hlt.le.trans hle)) ?_
      rw [decide_eq_false_iff_not]
      exact Nat.not_lt_of_le hle

/-- What throws changes nothing. -/
theorem Traced.error {msg : String} (hs : Traced s₀ events (after State.next s₀ events))
    (herr : (after State.next s₀ events).apply e = .error msg) :
    Traced s₀ (events ++ [e]) (after State.next s₀ events) := by
  refine ⟨hs.sound, fun r hr ↦ (hs.requested r hr).snoc, fun h hh ↦ (hs.owned h hh).snoc,
    fun a x time hc htime ↦ ?_⟩
  rcases caused_snoc_iff.mp hc with ⟨-, -, howner, hnew⟩ | hc
  · rw [State.next, herr] at hnew
    exact absurd howner hnew
  · exact hs.recorded a x time hc htime

theorem traced (initPublicKey : Key) (events : List (Event Key)) :
    Traced (genesis initPublicKey) events (after State.next (genesis initPublicKey) events) := by
  refine Library.Timeline.induction (P := Traced (genesis initPublicKey)) ?_ ?_ events
  · exact ⟨sound_genesis initPublicKey, nofun, nofun, fun a x time hc ↦ by
      obtain ⟨before, e, rest, heq, -⟩ := hc
      cases before <;> cases heq⟩
  · intro events e hs
    cases hok : (after State.next (genesis initPublicKey) events).apply e with
    | error msg =>
      rw [State.next, hok]
      exact hs.error hok
    | ok t =>
      rw [next_of_ok hok]
      by_cases hblock : ∃ timestamp, e = .block timestamp
      · obtain ⟨timestamp, rfl⟩ := hblock
        exact hs.block hok
      · have he : ∀ timestamp, e ≠ .block timestamp := fun timestamp heq ↦ hblock ⟨timestamp, heq⟩
        obtain ⟨hop, hreq⟩ := apply_ok hs.sound.unique hok he
        exact hs.operation hok hop hreq

end Step

end Taiyi.Recovery
