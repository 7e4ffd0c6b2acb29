import Mathlib.Data.List.Chain
import Mathlib.Data.List.Nodup
import Taiyi.Chain.Replay

set_option autoImplicit false

namespace Taiyi.Chain

open ForkDatabase

variable {Block Id Rest : Type} [BlockId Id] [BlockHeader Block Id]

/-- Every item of the path builds on the next one. -/
def Linked (path : List (Link Block)) : Prop :=
  path.IsChain fun l m ↦ previous l.block = id m.block

/-- The id a block on top of the path builds on. -/
def topId : List (Link Block) → Id
  | [] => zero
  | l :: _ => id l.block

theorem linked_cons {l : Link Block} {t : List (Link Block)} :
    Linked (l :: t) ↔ (t = [] ∨ previous l.block = topId t) ∧ Linked t := by
  cases t with
  | nil => simp [Linked]
  | cons m t => simp [Linked, topId]

theorem Linked.suffix {p q : List (Link Block)} (h : Linked p) (hq : q <:+ p) : Linked q :=
  List.IsChain.suffix h hq

theorem num_previous (b : Block) : num (id b) = num (previous b) + 1 := BlockHeader.num_id b

theorem Linked.num_lt {u v : List (Link Block)} {m : Link Block} (h : Linked (u ++ m :: v)) :
    ∀ l ∈ u, num (id m.block) < num (id l.block) := by
  induction u with
  | nil => simp
  | cons a u ih =>
    have ht : Linked (u ++ m :: v) := (linked_cons.mp h).2
    intro l hl
    rcases List.mem_cons.mp hl with rfl | hl
    · have hp := (linked_cons.mp h).1.resolve_left (by simp)
      have hn := num_previous l.block
      rw [hp] at hn
      cases u with
      | nil =>
        change num (id l.block) = num (id m.block) + 1 at hn
        omega
      | cons b u =>
        change num (id l.block) = num (id b.block) + 1 at hn
        have := ih ht b List.mem_cons_self
        omega
    · exact ih ht l hl

theorem Linked.num_le {l m : Link Block} {t v : List (Link Block)} (h : Linked (l :: t))
    (hs : m :: v <:+ l :: t) : num (id m.block) ≤ num (id l.block) := by
  obtain ⟨u, hu⟩ := hs
  cases u with
  | nil =>
    obtain ⟨rfl, rfl⟩ := List.cons.inj hu
    exact Nat.le_refl _
  | cons a u =>
    obtain ⟨rfl, rfl⟩ := List.cons.inj hu
    exact Nat.le_of_lt (Linked.num_lt (u := a :: u) h a List.mem_cons_self)

variable [DecidableEq Id]

theorem fetchBlock_of_nodup {db : ForkDatabase Block} (h : (db.index.map ForkItem.id).Nodup)
    {it : ForkItem Block} (hit : it ∈ db.index) : db.fetchBlock it.id = some it := by
  cases hf : db.fetchBlock it.id with
  | none =>
    have := List.find?_eq_none.mp hf it hit
    simp at this
  | some it' =>
    have hi : it'.id = it.id := by simpa using List.find?_some hf
    rw [List.inj_on_of_nodup_map h (List.mem_of_find?_eq_some hf) hit hi]

variable [Evaluation Block Id Rest]

/-- What the index of the fork database keeps, whatever is pushed, switched to or removed: items
are told apart by their references and by their ids, no path ends above the base except at a
first block, and an object that an item still points to although it left the index was pruned
below the floor or is not valid. -/
structure Tree (base : ChainState Id Rest) (floor : ℕ) (db : ForkDatabase Block) : Prop where
  linked : ∀ it ∈ db.index, Linked it.path
  ids : (db.index.map ForkItem.id).Nodup
  refs : ∀ it ∈ db.index, ∀ l t, l :: t <:+ it.path → ∀ it' ∈ db.index, it'.ref = l.ref →
    it' = ⟨l, t⟩
  fresh : ∀ it ∈ db.index, ∀ l ∈ it.path, l.ref < db.nextRef
  rooted : ∀ it ∈ db.index, ∀ l, [l] <:+ it.path →
    previous l.block = zero ∨ num (id l.block) ≤ base.headNum
  doomed : ∀ it ∈ db.index, ∀ l t, l :: t <:+ it.path → floor ≤ num (id l.block) →
    ⟨l, t⟩ ∉ db.index → ¬ base.Valid l.block

namespace Tree

variable {base : ChainState Id Rest} {floor : ℕ} {db db' : ForkDatabase Block}

theorem mono (h : Tree base floor db) {floor' : ℕ} (hf : floor ≤ floor') :
    Tree base floor' db :=
  { h with doomed := fun it hit l t hs hl ↦ h.doomed it hit l t hs (Nat.le_trans hf hl) }

theorem congr (h : Tree base floor db) (hi : db'.index = db.index)
    (hn : db.nextRef ≤ db'.nextRef) : Tree base floor db' where
  linked := hi ▸ h.linked
  ids := hi ▸ h.ids
  refs := hi ▸ h.refs
  fresh it hit l hl := Nat.lt_of_lt_of_le (h.fresh it (hi ▸ hit) l hl) hn
  rooted := hi ▸ h.rooted
  doomed := hi ▸ h.doomed

/-- Dropping items below the floor or items that are not valid. -/
theorem filter (h : Tree base floor db) {keep : ForkItem Block → Bool}
    (hi : db'.index = db.index.filter keep) (hn : db'.nextRef = db.nextRef)
    (hd : ∀ it ∈ db.index, keep it = false → it.num < floor ∨ ¬ base.Valid it.block) :
    Tree base floor db' where
  linked it hit := h.linked it (List.mem_of_mem_filter (hi ▸ hit))
  ids := by
    rw [hi]
    exact h.ids.sublist (List.filter_sublist.map _)
  refs it hit l t hs it' hit' :=
    h.refs it (List.mem_of_mem_filter (hi ▸ hit)) l t hs it' (List.mem_of_mem_filter (hi ▸ hit'))
  fresh it hit := hn ▸ h.fresh it (List.mem_of_mem_filter (hi ▸ hit))
  rooted it hit := h.rooted it (List.mem_of_mem_filter (hi ▸ hit))
  doomed it hit l t hs hl hout := by
    have hit := List.mem_of_mem_filter (hi ▸ hit)
    by_cases hin : (⟨l, t⟩ : ForkItem Block) ∈ db.index
    · rcases hd _ hin (by
        rw [hi, List.mem_filter, not_and] at hout
        simpa using hout hin) with hlt | hv
      · exact absurd hl (Nat.not_le_of_lt hlt)
      · exact hv
    · exact h.doomed it hit l t hs hl hin

theorem eq_of_id (h : Tree base floor db) {it it' : ForkItem Block} (hit : it ∈ db.index)
    (hit' : it' ∈ db.index) (hi : it.id = it'.id) : it = it' :=
  List.inj_on_of_nodup_map h.ids hit hit' hi

theorem fetchBlock_eq (h : Tree base floor db) {it : ForkItem Block} (hit : it ∈ db.index) :
    db.fetchBlock it.id = some it := fetchBlock_of_nodup h.ids hit

theorem mem_of_fetchBlock {i : Id} {it : ForkItem Block} (hf : db.fetchBlock i = some it) :
    it ∈ db.index ∧ it.id = i :=
  ⟨List.mem_of_find?_eq_some hf, by simpa using List.find?_some hf⟩

theorem fetchBlock_eq_none {i : Id} (hf : db.fetchBlock i = none) :
    ∀ it ∈ db.index, it.id ≠ i := by
  intro it hit
  simpa using List.find?_eq_none.mp hf it hit

/-- A new item whose path below itself is nothing or an item of the index. -/
theorem insert (h : Tree base floor db) {item : ForkItem Block} (hr : item.ref = db.nextRef)
    (hnew : ∀ it ∈ db.index, it.id ≠ item.id)
    (htrail : (item.trail = [] ∧ previous item.block = zero) ∨ ∃ parent ∈ db.index,
      parent.id = previous item.block ∧ item.trail = parent.path)
    (hi : db'.index = db.index ++ [item]) (hn : db'.nextRef = db.nextRef + 1) :
    Tree base floor db' := by
  have hmem : ∀ it, it ∈ db'.index ↔ it ∈ db.index ∨ item = it := by
    intro it
    rw [hi, List.mem_append, List.mem_singleton, @eq_comm _ item]
  have hself : ∀ it ∈ db.index, it.ref < db.nextRef := fun it hit ↦
    h.fresh it hit it.self List.mem_cons_self
  have hsuffix : ∀ l t, l :: t <:+ item.path → item = ⟨l, t⟩ ∨
      ∃ parent ∈ db.index, l :: t <:+ parent.path := by
    intro l t hs
    rcases List.suffix_cons_iff.mp hs with he | hs
    · obtain ⟨rfl, rfl⟩ := List.cons.inj he
      exact .inl rfl
    · rcases htrail with ⟨ht, -⟩ | ⟨parent, hp, -, ht⟩
      · rw [ht] at hs
        simp at hs
      · exact .inr ⟨parent, hp, ht ▸ hs⟩
  refine ⟨?_, ?_, ?_, ?_, ?_, ?_⟩
  · intro it hit
    rcases (hmem it).mp hit with hit | rfl
    · exact h.linked it hit
    · rcases htrail with ⟨ht, -⟩ | ⟨parent, hp, hpi, ht⟩
      · exact linked_cons.mpr ⟨.inl ht, ht ▸ List.isChain_nil⟩
      · exact linked_cons.mpr ⟨.inr (ht ▸ hpi.symm), ht ▸ h.linked parent hp⟩
  · rw [hi, List.map_append, List.nodup_append]
    refine ⟨h.ids, by simp, ?_⟩
    intro i hmi j hj
    obtain ⟨it, hit, rfl⟩ := List.mem_map.mp hmi
    rw [List.map_singleton, List.mem_singleton] at hj
    exact hj ▸ hnew it hit
  · intro it hit l t hs it' hit' hr'
    rcases (hmem it).mp hit with hit | rfl
    · rcases (hmem it').mp hit' with hit' | rfl
      · exact h.refs it hit l t hs it' hit' hr'
      · have := h.fresh it hit l (hs.subset List.mem_cons_self)
        omega
    · rcases hsuffix l t hs with he | ⟨parent, hp, hs⟩
      · rcases (hmem it').mp hit' with hit' | rfl
        · have hlt := hself it' hit'
          have hl : l.ref = item.ref := congrArg ForkItem.ref he.symm
          omega
        · exact he
      · rcases (hmem it').mp hit' with hit' | rfl
        · exact h.refs parent hp l t hs it' hit' hr'
        · have := h.fresh parent hp l (hs.subset List.mem_cons_self)
          omega
  · intro it hit l hl
    rw [hn]
    rcases (hmem it).mp hit with hit | rfl
    · exact Nat.lt_succ_of_lt (h.fresh it hit l hl)
    · rcases List.mem_cons.mp hl with rfl | hl
      · exact hr ▸ Nat.lt_succ_self _
      · rcases htrail with ⟨ht, -⟩ | ⟨parent, hp, -, ht⟩
        · rw [ht] at hl
          cases hl
        · exact Nat.lt_succ_of_lt (h.fresh parent hp l (ht ▸ hl))
  · intro it hit l hs
    rcases (hmem it).mp hit with hit | rfl
    · exact h.rooted it hit l hs
    · rcases hsuffix l [] hs with he | ⟨parent, hp, hs⟩
      · rcases htrail with ⟨-, hz⟩ | ⟨parent, -, -, ht⟩
        · rw [he] at hz
          exact .inl hz
        · rw [he] at ht
          cases ht
      · exact h.rooted parent hp l hs
  · intro it hit l t hs hl hout
    rw [hmem, not_or] at hout
    rcases (hmem it).mp hit with hit | rfl
    · exact h.doomed it hit l t hs hl hout.1
    · rcases hsuffix l t hs with he | ⟨parent, hp, hs⟩
      · exact absurd he hout.2
      · exact h.doomed parent hp l t hs hl hout.1

end Tree

section Push

variable {db db' : ForkDatabase Block} {b : Block} {newHead : ForkItem Block}

theorem linkTo_ok {trail : List (Link Block)} (h : db.linkTo b = .ok trail) :
    (trail = [] ∧ (db.head = none ∨ previous b = zero)) ∨
      ∃ parent ∈ db.index, parent.id = previous b ∧ trail = parent.path := by
  unfold linkTo at h
  split at h
  · split at h
    · cases h
    · next parent hf =>
      cases h
      obtain ⟨hp, hi⟩ := Tree.mem_of_fetchBlock hf
      exact .inr ⟨parent, hp, hi, rfl⟩
  · next hn =>
    cases h
    refine .inl ⟨rfl, ?_⟩
    rw [not_and_or, not_ne_iff] at hn
    simpa using hn

/-- The item that `pushBlock` creates. -/
def newItem (db : ForkDatabase Block) (b : Block) (trail : List (Link Block)) : ForkItem Block :=
  ⟨⟨db.nextRef, b⟩, trail⟩

theorem pushBlock_ok (h : db.pushBlock b = .ok (newHead, db')) :
    ∃ trail, db.linkTo b = .ok trail ∧
      (∀ o ∈ db.head, o.num - db.maxSize < num (id b)) ∧
      db'.index = (if (db.fetchBlock (id b)).isSome then db.index
        else db.index ++ [newItem db b trail]) ∧
      db'.head = some newHead ∧ db'.maxSize = db.maxSize ∧ db'.nextRef = db.nextRef + 1 ∧
      newHead = (match db.head with
        | none => newItem db b trail
        | some o => if o.num < num (id b) then newItem db b trail else o) := by
  unfold ForkDatabase.pushBlock at h
  split at h
  · cases h
  · next hold =>
    split at h
    · cases h
    · next trail ht =>
      simp only [Except.ok.injEq, Prod.mk.injEq] at h
      obtain ⟨rfl, rfl⟩ := h
      refine ⟨trail, ht, ?_, rfl, rfl, rfl, rfl, rfl⟩
      simpa using hold

theorem mem_pushBlock (hp : db.pushBlock b = .ok (newHead, db')) :
    (∀ it ∈ db.index, it ∈ db'.index) ∧
      ∀ it ∈ db'.index, it ∈ db.index ∨ it.block = b := by
  obtain ⟨trail, -, -, hi, -⟩ := pushBlock_ok hp
  rw [hi]
  split
  · exact ⟨fun it hit ↦ hit, fun it hit ↦ .inl hit⟩
  · refine ⟨fun it hit ↦ List.mem_append_left _ hit, fun it hit ↦ ?_⟩
    rcases List.mem_append.mp hit with hit | hit
    · exact .inl hit
    · rw [List.mem_singleton.mp hit]
      exact .inr rfl

variable {base : ChainState Id Rest} {floor : ℕ}

theorem Tree.push (ht : Tree base floor db) (hz : db.head = none → previous b = zero)
    (h : db.pushBlock b = .ok (newHead, db')) :
    Tree base floor db' := by
  obtain ⟨trail, hl, -, hi, -, -, hn, -⟩ := pushBlock_ok h
  split at hi
  · exact ht.congr hi (by omega)
  · next hf =>
    rw [Bool.not_eq_true, Option.isSome_eq_false_iff, Option.isNone_iff_eq_none] at hf
    have hnew : ∀ it ∈ db.index, it.id ≠ (newItem db b trail).id := Tree.fetchBlock_eq_none hf
    refine ht.insert rfl hnew ?_ hi hn
    rcases linkTo_ok hl with ⟨ht, hn | hp⟩ | hp
    · exact .inl ⟨ht, hz hn⟩
    · exact .inl ⟨ht, hp⟩
    · exact .inr hp

end Push

end Taiyi.Chain
