import Taiyi.Chain.PopBlock

set_option autoImplicit false

namespace Taiyi.Chain

open ForkDatabase

variable {Block Id : Type} [BlockId Id] [BlockHeader Block Id]

namespace ForkDatabase

def reset (db : ForkDatabase Block) : ForkDatabase Block := { db with index := [], head := none }

/-- The index or the head points to the item. -/
def Holds (db : ForkDatabase Block) (it : ForkItem Block) : Prop := it ∈ db.index ∨ db.head = some it

end ForkDatabase

/-- The items that were made are told apart by their references, and point to items that were made;
the database has some of them. -/
structure Forest (made : List (ForkItem Block)) (db : ForkDatabase Block) : Prop where
  linked : ∀ it ∈ made, Linked it.path
  closed : ∀ it ∈ made, ∀ l t, it.trail = l :: t → ⟨l, t⟩ ∈ made
  refs : ∀ it ∈ made, ∀ it' ∈ made, it.ref = it'.ref → it = it'
  fresh : ∀ it ∈ made, it.ref < db.nextRef
  index : ∀ it ∈ db.index, it ∈ made
  head : ∀ it ∈ db.head, it ∈ made
  ids : (db.index.map ForkItem.id).Nodup

namespace Forest

variable {made : List (ForkItem Block)} {db db' : ForkDatabase Block}

/-- Nothing is made; the index loses items and the head moves. -/
theorem keep (h : Forest made db) (hi : db'.index.Sublist db.index) (hh : ∀ it ∈ db'.head, it ∈ made)
    (hn : db'.nextRef = db.nextRef) : Forest made db' where
  linked := h.linked
  closed := h.closed
  refs := h.refs
  fresh := hn ▸ h.fresh
  index it hit := h.index it (hi.subset hit)
  head := hh
  ids := h.ids.sublist (hi.map _)

/-- Everything below an item was made. -/
theorem mem_of_suffix (h : Forest made db) {l : Link Block} {t path : List (Link Block)}
    (hs : l :: t <:+ path) : ∀ it ∈ made, it.path = path → ⟨l, t⟩ ∈ made := by
  induction path with
  | nil => exact absurd (List.suffix_nil.mp hs) (List.cons_ne_nil l t)
  | cons m path ih =>
    intro it hit hpath
    rcases List.suffix_cons_iff.mp hs with heq | hs
    · exact ForkItem.path_injective (show it.path = (⟨l, t⟩ : ForkItem Block).path from
        hpath.trans heq.symm) ▸ hit
    · cases path with
      | nil => exact absurd (List.suffix_nil.mp hs) (List.cons_ne_nil l t)
      | cons m' path =>
        exact ih hs ⟨m', path⟩ (h.closed it hit m' path (List.cons.inj hpath).2) rfl

theorem holds_of_alive (h : Forest made db) {it : ForkItem Block} (hit : it ∈ made)
    (hlive : db.alive [] it.ref = true) : db.Holds it := by
  rw [alive, decide_eq_true_eq] at hlive
  rcases hlive with hnil | hhead | hindex
  · cases hnil
  · obtain ⟨it', hit', heq⟩ := List.mem_map.mp hhead
    rw [Option.mem_toList] at hit'
    exact .inr (h.refs it' (h.head it' hit') it hit heq ▸ hit')
  · obtain ⟨it', hit', heq⟩ := List.mem_map.mp hindex
    exact .inl (h.refs it' (h.index it' hit') it hit heq ▸ hit')

theorem mem_of_holds (h : Forest made db) {it : ForkItem Block} (hit : db.Holds it) : it ∈ made := by
  rcases hit with hit | hit
  · exact h.index it hit
  · exact h.head it hit

end Forest

theorem ForkDatabase.Holds.alive {db : ForkDatabase Block} {it : ForkItem Block} (h : db.Holds it)
    (pinned : List ℕ) : db.alive pinned it.ref = true := by
  rcases h with hit | hhead
  · exact alive_of_mem hit
  · rw [ForkDatabase.alive, decide_eq_true_eq, hhead]
    exact .inr (.inl List.mem_cons_self)

variable [DecidableEq Id]

/-- The databases that calls lead to from an empty one, with all items made on the way. A caller may
keep every item that was ever made, to set it as the head or while the head is popped. -/
inductive Grown : List (ForkItem Block) → ForkDatabase Block → Prop
  | empty (maxSize : ℕ) : Grown [] ⟨[], none, maxSize, 0⟩
  | reset {made : List (ForkItem Block)} {db : ForkDatabase Block} :
      Grown made db → Grown made db.reset
  | startBlock {made : List (ForkItem Block)} {db : ForkDatabase Block} (b : Block) :
      Grown made db → Grown (newItem db b [] :: made) (db.startBlock b)
  | pushBlock {made : List (ForkItem Block)} {db db' : ForkDatabase Block} {b : Block}
      {trail : List (Link Block)} {newHead : ForkItem Block} : db.linkTo b = .ok trail →
      db.pushBlock b = .ok (newHead, db') → Grown made db → Grown (newItem db b trail :: made) db'
  | popBlock {made : List (ForkItem Block)} {db db' : ForkDatabase Block} {pinned : List ℕ} :
      db.popBlock pinned = .ok db' → Grown made db → Grown made db'
  | setMaxSize {made : List (ForkItem Block)} {db : ForkDatabase Block} (n : ℕ) :
      Grown made db → Grown made (db.setMaxSize n)
  | setHead {made : List (ForkItem Block)} {db : ForkDatabase Block} {it : ForkItem Block} :
      it ∈ made → Grown made db → Grown made (db.setHead it)
  | remove {made : List (ForkItem Block)} {db : ForkDatabase Block} (i : Id) :
      Grown made db → Grown made (db.remove i)

theorem Forest.make {made : List (ForkItem Block)} {db db' : ForkDatabase Block} (h : Forest made db) {b : Block} {trail : List (Link Block)}
    (ht : trail = [] ∨ ∃ parent ∈ db.index, parent.id = previous b ∧ trail = parent.path)
    (hi : db'.index = if (db.fetchBlock (id b)).isSome then db.index else db.index ++ [newItem db b trail])
    (hh : ∀ it ∈ db'.head, it = newItem db b trail ∨ it ∈ made) (hn : db'.nextRef = db.nextRef + 1) :
    Forest (newItem db b trail :: made) db' where
  linked it hit := by
    rcases List.mem_cons.mp hit with rfl | hit
    · rcases ht with rfl | ⟨parent, hp, hid, rfl⟩
      · exact linked_cons.mpr ⟨.inl rfl, List.isChain_nil⟩
      · exact linked_cons.mpr ⟨.inr hid.symm, h.linked parent (h.index parent hp)⟩
    · exact h.linked it hit
  closed it hit l t heq := by
    rcases List.mem_cons.mp hit with rfl | hit
    · rcases ht with rfl | ⟨parent, hp, -, rfl⟩
      · cases heq
      · rw [ForkItem.path_injective (show parent.path = (⟨l, t⟩ : ForkItem Block).path from heq)] at hp
        exact List.mem_cons_of_mem _ (h.index _ hp)
    · exact List.mem_cons_of_mem _ (h.closed it hit l t heq)
  refs it hit it' hit' heq := by
    rcases List.mem_cons.mp hit with rfl | hit <;> rcases List.mem_cons.mp hit' with rfl | hit'
    · rfl
    · exact absurd (h.fresh it' hit') (heq ▸ Nat.lt_irrefl db.nextRef)
    · exact absurd (h.fresh it hit) (heq ▸ Nat.lt_irrefl db.nextRef)
    · exact h.refs it hit it' hit' heq
  fresh it hit := by
    rw [hn]
    rcases List.mem_cons.mp hit with rfl | hit
    · exact Nat.lt_succ_self _
    · exact Nat.lt_succ_of_lt (h.fresh it hit)
  index it hit := by
    rw [hi] at hit
    split at hit
    · exact List.mem_cons_of_mem _ (h.index it hit)
    · rcases List.mem_append.mp hit with hit | hit
      · exact List.mem_cons_of_mem _ (h.index it hit)
      · exact List.mem_singleton.mp hit ▸ List.mem_cons_self
  head it hit := List.mem_cons.mpr (hh it hit)
  ids := by
    rw [hi]
    split
    · exact h.ids
    · next hnone =>
      rw [Bool.not_eq_true, Option.isSome_eq_false_iff, Option.isNone_iff_eq_none] at hnone
      rw [List.map_append, List.map_singleton]
      refine h.ids.append (List.nodup_singleton _) (List.disjoint_singleton.mpr fun hmem ↦ ?_)
      obtain ⟨it, hit, hid⟩ := List.mem_map.mp hmem
      exact Tree.fetchBlock_eq_none hnone it hit hid

theorem Grown.forest {made : List (ForkItem Block)} {db : ForkDatabase Block} (hg : Grown made db) :
    Forest made db := by
  induction hg with
  | empty maxSize => exact ⟨nofun, nofun, nofun, nofun, nofun, nofun, List.nodup_nil⟩
  | reset _ ih => exact ih.keep (List.nil_sublist _) nofun rfl
  | startBlock b _ ih =>
    exact ih.make (.inl rfl) rfl (fun it hit ↦ .inl (Option.mem_some_iff.mp hit).symm) rfl
  | @pushBlock made db db' b trail newHead hlink hpush _ ih =>
    obtain ⟨trail', hlink', -, hi, hh, -, hn, hnew⟩ := pushBlock_ok hpush
    obtain rfl : trail = trail' := Except.ok.inj (hlink.symm.trans hlink')
    refine ih.make ?_ hi (fun it hit ↦ ?_) hn
    · exact (linkTo_ok hlink).imp And.left fun h ↦ h
    · rw [hh, Option.mem_some_iff] at hit
      subst hit
      cases hhead : db.head with
      | none =>
        rw [hhead] at hnew
        exact .inl hnew
      | some o =>
        rw [hhead] at hnew
        simp only at hnew
        split at hnew
        · exact .inl hnew
        · exact .inr (hnew ▸ ih.head o hhead)
  | @popBlock made db db' pinned hpop _ ih =>
    rw [ForkDatabase.popBlock] at hpop
    split at hpop
    · cases hpop
    · next h hhead =>
      split at hpop
      · cases hpop
      · next l t htrail =>
        split at hpop
        · cases hpop
          refine ih.keep (List.Sublist.refl _) (fun it hit ↦ ?_) rfl
          exact Option.mem_some_iff.mp hit ▸ ih.closed h (ih.head h hhead) l t htrail
        · cases hpop
  | @setMaxSize made db n _ ih =>
    unfold ForkDatabase.setMaxSize
    split
    · exact ih.keep (List.Sublist.refl _) ih.head rfl
    · exact ih.keep List.filter_sublist ih.head rfl
  | setHead hit _ ih =>
    exact ih.keep (List.Sublist.refl _) (fun it hit' ↦ Option.mem_some_iff.mp hit' ▸ hit) rfl
  | remove i _ ih => exact ih.keep List.filter_sublist ih.head rfl

end Taiyi.Chain
