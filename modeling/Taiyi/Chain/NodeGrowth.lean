import Taiyi.Chain.BranchQueries

set_option autoImplicit false

namespace Taiyi.Chain

open ForkDatabase Node

variable {Block Id Rest : Type} [BlockId Id] [BlockHeader Block Id] [DecidableEq Id]

/-- The items that `fetch_branch_from` answers were made. -/
theorem Forest.made_of_fetch {made : List (ForkItem Block)} {db : ForkDatabase Block}
    (ht : Forest made db) {i j : Id} {first second : List (ForkItem Block)}
    (h : db.fetchBranchFrom i j = .ok (first, second)) : ∀ x ∈ first ++ second, x ∈ made := by
  cases hf : db.fetchBlock i with
  | none =>
    simp only [fetchBranchFrom, hf] at h
    cases h
  | some f =>
    cases hs : db.fetchBlock j with
    | none =>
      simp only [fetchBranchFrom, hf, hs] at h
      cases h
    | some s =>
      obtain ⟨hfin, rfl⟩ := Tree.mem_of_fetchBlock hf
      obtain ⟨hsin, rfl⟩ := Tree.mem_of_fetchBlock hs
      obtain ⟨c, hb⟩ := ht.fetchBranchFrom_ok hfin hsin h
      intro x hx
      rcases List.mem_append.mp hx with hx | hx
      · exact ht.mem_of_holds (hb.left.held x hx)
      · exact ht.mem_of_holds (hb.right.held x hx)

/-- However a call ends, the fork database of the node is one that calls lead to, with no item made
but these. -/
def Grows {α : Type} (made : List (ForkItem Block)) :
    EStateM.Result String (Node Block Id Rest) α → Prop
  | .ok _ s' => Grown made s'.fork
  | .error _ s' => Grown made s'.fork

namespace Grows

variable {α : Type} {made : List (ForkItem Block)} {r : EStateM.Result String (Node Block Id Rest) α}
  {s' : Node Block Id Rest}

theorem ok (h : Grows made r) {a : α} (hr : r = .ok a s') : Grown made s'.fork := by
  rw [hr] at h
  exact h

theorem error (h : Grows made r) {e : String} (hr : r = .error e s') : Grown made s'.fork := by
  rw [hr] at h
  exact h

end Grows

theorem undone_fork {Block Id Rest : Type} (s : Node Block Id Rest) : s.undone.fork = s.fork := by
  unfold undone
  split <;> rfl

variable [Evaluation Block Id Rest]

section Calls

variable {made : List (ForkItem Block)} {s : Node Block Id Rest}

theorem grows_applyBlock (h : Grown made s.fork) (pinned : List ℕ) (b : Block) :
    Grows made ((Node.applyBlock pinned b).run s) := by
  simp only [Node.applyBlock, Node.migrateIrreversibleState, EStateM.run]
  split
  · exact h
  · split
    · exact h
    · split
      · exact h
      · exact h.setMaxSize _

theorem grows_applyInSession (h : Grown made s.fork) (pinned : List ℕ) (b : Block) :
    Grows made ((Node.applyInSession pinned b).run s) := by
  have ha := grows_applyBlock (s := s.startUndoSession) h pinned b
  simp only [Node.applyInSession, EStateM.run]
  split
  · next heq => exact ha.ok heq
  · next s' heq =>
    rw [Grows, undone_fork]
    exact ha.error heq

omit [Evaluation Block Id Rest] in
theorem grows_popBlock (h : Grown made s.fork) (pinned : List ℕ) :
    Grows made ((Node.popBlock pinned).run s) := by
  simp only [Node.popBlock, EStateM.run]
  split
  · exact h
  · split
    · exact h
    · next hpop =>
      rw [Grows, undone_fork]
      exact h.popBlock hpop

omit [Evaluation Block Id Rest] in
theorem grows_popUntil (h : Grown made s.fork) (pinned : List ℕ) (target : Id)
    (path : List (Link Block)) : Grows made ((Node.popUntil pinned target path).run s) := by
  induction path generalizing s with
  | nil =>
    simp only [Node.popUntil, EStateM.run]
    split
    · exact h
    · exact grows_popBlock h pinned
  | cons l path ih =>
    have hp := grows_popBlock h pinned
    simp only [Node.popUntil, EStateM.run]
    split
    · exact h
    · split
      · next heq => exact hp.error heq
      · next heq => exact ih (hp.ok heq)

theorem grows_pushItems (h : Grown made s.fork) (pinned : List ℕ) (items : List (ForkItem Block))
    (hmade : ∀ it ∈ items, it ∈ made) : Grown made (Node.pushItems pinned items s).1.fork := by
  induction items generalizing s with
  | nil => exact h
  | cons it items ih =>
    obtain ⟨hit, hmade⟩ := List.forall_mem_cons.mp hmade
    have ha := grows_applyInSession (s := { s with fork := s.fork.setHead it }) (h.setHead hit) pinned
      it.block
    simp only [Node.pushItems, EStateM.run]
    split
    · next heq => exact ih (ha.ok heq) hmade
    · next heq => exact ha.error heq

theorem grows_restoreItems (h : Grown made s.fork) (pinned : List ℕ) (items : List (ForkItem Block))
    (hmade : ∀ it ∈ items, it ∈ made) : Grows made ((Node.restoreItems pinned items).run s) := by
  induction items generalizing s with
  | nil => exact h
  | cons it items ih =>
    obtain ⟨hit, hmade⟩ := List.forall_mem_cons.mp hmade
    have ha := grows_applyInSession (s := { s with fork := s.fork.setHead it }) (h.setHead hit) pinned
      it.block
    simp only [Node.restoreItems, EStateM.run]
    split
    · next heq => exact ih (ha.ok heq) hmade
    · next heq => exact ha.error heq

omit [Evaluation Block Id Rest] in
theorem grown_removeItems {db : ForkDatabase Block} (h : Grown made db) (items : List (ForkItem Block)) :
    Grown made (removeItems db items) := by
  induction items generalizing db with
  | nil => exact h
  | cons it items ih => exact ih (h.remove it.id)

theorem grows_switchFork (h : Grown made s.fork) (newHead : ForkItem Block) :
    Grows made ((Node.switchFork newHead).run s) := by
  simp only [Node.switchFork, EStateM.run]
  split
  · exact h
  next first second hf =>
  have hmade := h.forest.made_of_fetch hf
  split
  · exact h
  next last hl =>
  have hp := grows_popUntil h (newHead.ref :: (first ++ second).map ForkItem.ref) (previous last.block)
    ((s.fork.head.map ForkItem.path).getD [])
  split
  · next heq => exact hp.error heq
  next s₁ heq =>
  have hi := grows_pushItems (hp.ok heq) (newHead.ref :: (first ++ second).map ForkItem.ref) first.reverse
    fun it hit ↦ hmade it (List.mem_append_left _ (List.mem_reverse.mp hit))
  split
  · next heq =>
    rw [heq] at hi
    exact hi
  next s₂ e bad heq₂ =>
  rw [heq₂] at hi
  have hq := grows_popUntil (s := { s₂ with fork := removeItems s₂.fork bad }) (grown_removeItems hi bad)
    (newHead.ref :: (first ++ second).map ForkItem.ref) (previous last.block)
    (((removeItems s₂.fork bad).head.map ForkItem.path).getD [])
  split
  · next heq => exact hq.error heq
  next s₃ heq₃ =>
  have hr := grows_restoreItems (hq.ok heq₃) (newHead.ref :: (first ++ second).map ForkItem.ref)
    second.reverse fun it hit ↦ hmade it (List.mem_append_right _ (List.mem_reverse.mp hit))
  split
  · next heq => exact hr.error heq
  · next heq => exact hr.ok heq

theorem grows_pushBlock (h : Grown made s.fork) (b : Block) :
    ∃ made', Grows made' ((Node.pushBlock b).run s) := by
  simp only [Node.pushBlock, EStateM.run]
  split
  · exact ⟨made, h⟩
  next newHead fork hp =>
  obtain ⟨trail, hlink, -⟩ := pushBlock_ok hp
  have hs : Grown (newItem s.fork b trail :: made) fork := h.pushBlock hlink hp
  refine ⟨newItem s.fork b trail :: made, ?_⟩
  split
  · split
    · exact grows_switchFork (s := { s with fork := fork }) hs newHead
    · exact hs
  · have ha := grows_applyInSession (s := { s with fork := fork }) hs [newHead.ref] b
    split
    · next heq => exact ha.ok heq
    · next heq => exact (ha.error heq).remove _

end Calls

/-- The fork database of a node, after a delivery of blocks in any order. -/
theorem grown_of_deliver {base : ChainState Id Rest} {s : Node Block Id Rest} (hs : Start base s)
    (blocks : List Block) : ∃ made, Grown made (s.deliver blocks).fork := by
  have hstart : ∃ made, Grown made s.fork := by
    cases hs with
    | genesis hi hl => exact ⟨_, .empty 1024⟩
    | opened hi hl hlog => exact ⟨_, .startBlock _ (.empty 1024)⟩
  clear hs
  induction blocks generalizing s with
  | nil => exact hstart
  | cons b blocks ih =>
    obtain ⟨made, h⟩ := hstart
    obtain ⟨made', hp⟩ := grows_pushBlock h b
    refine ih ⟨made', ?_⟩
    unfold Node.push after
    split
    · next heq => exact hp.ok heq
    · next heq => exact hp.error heq

end Taiyi.Chain
