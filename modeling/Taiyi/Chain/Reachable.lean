import Taiyi.Chain.Deliver

set_option autoImplicit false

namespace Taiyi.Chain

open Node

variable {Block Id Rest : Type} [BlockId Id] [BlockHeader Block Id] [DecidableEq Id]
  [Evaluation Block Id Rest] {genesis : ChainState Id Rest} {s s' : Node Block Id Rest}

/-- The states that a node passes through between two changes of its content or its sessions,
those inside a call among them; `fork_db` and the log are free. -/
inductive Reachable (genesis : ChainState Id Rest) : Node Block Id Rest → Prop
  | genesis : Reachable genesis (atGenesis genesis)
  | stores {s : Node Block Id Rest} (fork : ForkDatabase Block) (log : List Block) :
      Reachable genesis s → Reachable genesis { s with fork := fork, log := log }
  | starts {s : Node Block Id Rest} : Reachable genesis s → Reachable genesis s.startUndoSession
  | applies {s : Node Block Id Rest} {b : Block} {c : ChainState Id Rest} :
      s.chain.apply b = some c → Reachable genesis s → Reachable genesis { s with chain := c }
  | undoes {s : Node Block Id Rest} : Reachable genesis s → Reachable genesis s.undone
  | commits {s : Node Block Id Rest} (revision : ℕ) :
      Reachable genesis s → Reachable genesis (s.committed revision)

/-- The node's content and those of its sessions are what chains of blocks from genesis make. -/
structure Rooted (genesis : ChainState Id Rest) (s : Node Block Id Rest) : Prop where
  chain : ∃ bs : List Block, genesis.replay bs = some s.chain
  sessions : ∀ session ∈ s.undo, ∃ bs : List Block, genesis.replay bs = some session.2

theorem Reachable.rooted (h : Reachable genesis s) : Rooted genesis s := by
  induction h with
  | genesis => exact ⟨⟨[], ChainState.replay_nil _⟩, fun session hs ↦ by cases hs⟩
  | stores fork log _ ih => exact ⟨ih.chain, ih.sessions⟩
  | starts _ ih => exact ⟨ih.chain, List.forall_mem_cons.mpr ⟨ih.chain, ih.sessions⟩⟩
  | @applies s b c hc _ ih =>
    obtain ⟨bs, hbs⟩ := ih.chain
    refine ⟨⟨bs ++ [b], ?_⟩, ih.sessions⟩
    rw [ChainState.replay_concat, hbs, Option.bind_some, hc]
  | @undoes s _ ih =>
    obtain ⟨fork, chain, undo, log⟩ := s
    cases undo with
    | nil => exact ih
    | cons session undo =>
      obtain ⟨hs, hu⟩ := List.forall_mem_cons.mp ih.sessions
      exact ⟨hs, hu⟩
  | commits revision _ ih =>
    exact ⟨ih.chain, fun session hs ↦ ih.sessions session
      ((List.rdropWhile_prefix _ _).subset hs)⟩

/-- However a call ends, the node is left in a reachable state. -/
def Leaves {α : Type} (genesis : ChainState Id Rest) :
    EStateM.Result String (Node Block Id Rest) α → Prop
  | .ok _ s' => Reachable genesis s'
  | .error _ s' => Reachable genesis s'

theorem Leaves.ok {α : Type} {r : EStateM.Result String (Node Block Id Rest) α}
    (h : Leaves genesis r) {a : α} (hr : r = .ok a s') : Reachable genesis s' := by
  rw [hr] at h
  exact h

theorem Leaves.error {α : Type} {r : EStateM.Result String (Node Block Id Rest) α}
    (h : Leaves genesis r) {e : String} (hr : r = .error e s') : Reachable genesis s' := by
  rw [hr] at h
  exact h

namespace Reachable

theorem setFork (h : Reachable genesis s) (fork : ForkDatabase Block) :
    Reachable genesis { s with fork := fork } := h.stores fork s.log

theorem migrateIrreversibleState (h : Reachable genesis s) (pinned : List ℕ) :
    Leaves genesis ((Node.migrateIrreversibleState pinned).run s) := by
  simp only [Node.migrateIrreversibleState, EStateM.run]
  split
  · exact h
  · split
    · exact h
    · exact (h.stores _ _).commits _

theorem applyBlock (h : Reachable genesis s) (pinned : List ℕ) (b : Block) :
    Leaves genesis ((Node.applyBlock pinned b).run s) := by
  simp only [Node.applyBlock, EStateM.run]
  split
  · exact h
  · next hc => exact (h.applies hc).migrateIrreversibleState pinned

theorem applyInSession (h : Reachable genesis s) (pinned : List ℕ) (b : Block) :
    Leaves genesis ((Node.applyInSession pinned b).run s) := by
  have ha := h.starts.applyBlock pinned b
  simp only [Node.applyInSession, EStateM.run]
  split
  · next heq => exact ha.ok heq
  · next heq => exact (ha.error heq).undoes

theorem popBlock (h : Reachable genesis s) (pinned : List ℕ) :
    Leaves genesis ((Node.popBlock pinned).run s) := by
  simp only [Node.popBlock, EStateM.run]
  split
  · exact h
  · split
    · exact h
    · exact (h.setFork _).undoes

theorem popUntil (h : Reachable genesis s) (pinned : List ℕ) (target : Id)
    (path : List (Link Block)) : Leaves genesis ((Node.popUntil pinned target path).run s) := by
  induction path generalizing s with
  | nil =>
    simp only [Node.popUntil, EStateM.run]
    split
    · exact h
    · exact h.popBlock pinned
  | cons l path ih =>
    have hp := h.popBlock pinned
    simp only [Node.popUntil, EStateM.run]
    split
    · exact h
    · split
      · next heq => exact hp.error heq
      · next heq => exact ih (hp.ok heq)

theorem popTo (h : Reachable genesis s) (pinned : List ℕ) (target : Id) :
    Leaves genesis ((Node.popTo pinned target).run s) := h.popUntil pinned target _

theorem pushItems (h : Reachable genesis s) (pinned : List ℕ) (items : List (ForkItem Block)) :
    Reachable genesis (Node.pushItems pinned items s).1 := by
  induction items generalizing s with
  | nil => exact h
  | cons it items ih =>
    have ha := (h.setFork (s.fork.setHead it)).applyInSession pinned it.block
    simp only [Node.pushItems, EStateM.run]
    split
    · next heq => exact ih (ha.ok heq)
    · next heq => exact ha.error heq

theorem restoreItems (h : Reachable genesis s) (pinned : List ℕ) (items : List (ForkItem Block)) :
    Leaves genesis ((Node.restoreItems pinned items).run s) := by
  induction items generalizing s with
  | nil => exact h
  | cons it items ih =>
    have ha := (h.setFork (s.fork.setHead it)).applyInSession pinned it.block
    simp only [Node.restoreItems, EStateM.run]
    split
    · next heq => exact ih (ha.ok heq)
    · next heq => exact ha.error heq

theorem switchFork (h : Reachable genesis s) (newHead : ForkItem Block) :
    Leaves genesis ((Node.switchFork newHead).run s) := by
  simp only [Node.switchFork, EStateM.run]
  split
  · exact h
  next first second hf =>
  split
  · exact h
  next last hl =>
  have hp := h.popTo (newHead.ref :: (first ++ second).map ForkItem.ref) (previous last.block)
  split
  · next heq => exact hp.error heq
  next s₁ heq =>
  have hi := (hp.ok heq).pushItems (newHead.ref :: (first ++ second).map ForkItem.ref) first.reverse
  split
  · next heq =>
    rw [heq] at hi
    exact hi
  next s₂ e bad heq₂ =>
  rw [heq₂] at hi
  have hq := (hi.setFork (removeItems s₂.fork bad)).popTo
    (newHead.ref :: (first ++ second).map ForkItem.ref) (previous last.block)
  split
  · next heq => exact hq.error heq
  next s₃ heq₃ =>
  have hr := (hq.ok heq₃).restoreItems (newHead.ref :: (first ++ second).map ForkItem.ref)
    second.reverse
  split
  · next heq => exact hr.error heq
  · next heq => exact hr.ok heq

theorem pushBlock (h : Reachable genesis s) (b : Block) :
    Leaves genesis ((Node.pushBlock b).run s) := by
  simp only [Node.pushBlock, EStateM.run]
  split
  · exact h
  next newHead fork hp =>
  have hs := h.setFork fork
  split
  · split
    · exact hs.switchFork newHead
    · exact hs
  · have ha := hs.applyInSession [newHead.ref] b
    split
    · next heq => exact ha.ok heq
    · next heq => exact (ha.error heq).setFork _

theorem push (h : Reachable genesis s) (b : Block) : Reachable genesis (s.push b) := by
  have hp := h.pushBlock b
  unfold Node.push after
  split
  · next heq => exact hp.ok heq
  · next heq => exact hp.error heq

/-- Every state after a delivery of blocks in any order, fork switches and failures included. -/
theorem deliver (h : Reachable genesis s) (blocks : List Block) :
    Reachable genesis (s.deliver blocks) := by
  induction blocks generalizing s with
  | nil => exact h
  | cons b blocks ih => exact ih (h.push b)

end Reachable

end Taiyi.Chain
