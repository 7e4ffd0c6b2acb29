import Taiyi.Plugins.AccountHistory

set_option autoImplicit false

namespace Taiyi.Plugins

open Chain

section Heard

variable {Op : Type}

theorem foldl_importOperation (ops : List (Operation Op)) (store : Store Op) :
    (ops.foldl Store.importOperation store).imported = store.imported ++ ops ∧
      ((ops.foldl Store.importOperation store).lib = store.lib ∨
        (ops.foldl Store.importOperation store).lib ∈ store.buffered) ∧
      (∀ n ∈ (ops.foldl Store.importOperation store).buffered, n ∈ store.buffered) ∧
      (ops = [] → ops.foldl Store.importOperation store = store) := by
  induction ops generalizing store with
  | nil => simp
  | cons o ops ih =>
    obtain ⟨hi, hl, hb, -⟩ := ih (store.importOperation o)
    rw [List.foldl_cons]
    refine ⟨?_, ?_, fun n hn ↦ absurd (hb n hn) (by simp [Store.importOperation]), by simp⟩
    · rw [hi, Store.importOperation, List.append_assoc, List.singleton_append]
    · rcases hl with hl | hl
      · rw [hl]
        cases hbuf : store.buffered <;> simp [Store.importOperation, hbuf]
      · simp [Store.importOperation] at hl

/-- The operations are in the order of their blocks, above the stored last irreversible block and
not below the buffered one. -/
structure Unread (volatile : List (Operation Op)) (store : Store Op) : Prop where
  sorted : volatile.Pairwise (·.block ≤ ·.block)
  lib : ∀ o ∈ volatile, store.lib < o.block
  buffered : ∀ n ∈ store.buffered, ∀ o ∈ volatile, n ≤ o.block

/-- What notices up to block `n` do: they import the operations up to that block. -/
structure Heard (volatile : List (Operation Op)) (store : Store Op) (n : ℕ)
    (r : List (Operation Op) × Store Op) (taken : List (Operation Op)) : Prop where
  imported : r.2.imported = store.imported ++ taken
  split : volatile = taken ++ r.1
  taken_le : ∀ o ∈ taken, o.block ≤ n
  above : ∀ o ∈ r.1, n < o.block
  unread : Unread r.1 r.2
  lib_le : ∀ m, store.lib ≤ m → (∀ k ∈ store.buffered, k ≤ m) → n ≤ m + 1 → r.2.lib ≤ m
  buffered : ∀ k ∈ r.2.buffered, k ∈ store.buffered ∨ k ≤ n
  quiet : taken = [] → r.2.lib = store.lib

theorem lt_of_mem_dropWhile {volatile : List (Operation Op)} {n : ℕ}
    (hs : volatile.Pairwise (·.block ≤ ·.block)) :
    ∀ o ∈ volatile.dropWhile (·.block ≤ n), n < o.block := by
  induction volatile with
  | nil => simp
  | cons a volatile ih =>
    obtain ⟨ha, hs⟩ := List.pairwise_cons.mp hs
    by_cases hn : a.block ≤ n
    · rw [List.dropWhile_cons_of_pos (by simpa using hn)]
      exact ih hs
    · rw [List.dropWhile_cons_of_neg (by simpa using hn)]
      intro o ho
      rcases List.mem_cons.mp ho with rfl | ho
      · exact Nat.lt_of_not_le hn
      · exact Nat.lt_of_lt_of_le (Nat.lt_of_not_le hn) (ha o ho)

theorem heard_one {volatile : List (Operation Op)} {store : Store Op} (hu : Unread volatile store)
    (n : ℕ) : ∃ taken, Heard volatile store n (onIrreversibleBlock (volatile, store) n) taken := by
  unfold onIrreversibleBlock
  split
  · next hn =>
    -- the operations up to the block were imported before
    have hn : n ≤ store.lib := hn
    exact ⟨[], (List.append_nil _).symm, rfl, by simp, fun o ho ↦ Nat.lt_of_le_of_lt hn (hu.lib o ho),
      hu, fun m hl _ _ ↦ hl, fun k hk ↦ .inl hk, fun _ ↦ rfl⟩
  · obtain ⟨hi, hl, hb, hq⟩ := foldl_importOperation (volatile.takeWhile (·.block ≤ n)) store
    have habove := lt_of_mem_dropWhile (n := n) hu.sorted
    have hsplit := (List.takeWhile_append_dropWhile (p := (·.block ≤ n)) (l := volatile)).symm
    have hsub : ∀ o ∈ volatile.dropWhile (·.block ≤ n), o ∈ volatile := fun o ho ↦
      (List.dropWhile_suffix _).mem ho
    have htake : ∀ o ∈ volatile.takeWhile (·.block ≤ n), o.block ≤ n := fun o ho ↦ by
      simpa using List.mem_takeWhile_imp ho
    refine ⟨volatile.takeWhile (·.block ≤ n), hi, hsplit, htake, habove,
      ⟨hu.sorted.sublist (List.dropWhile_sublist _), fun o ho ↦ ?_, fun k hk o ho ↦ ?_⟩,
      fun m hm hbm _ ↦ ?_, fun k hk ↦ ?_, fun h ↦ by simp only [Store.updateLib, hq h]⟩
    · rcases hl with hl | hl
      · exact hl ▸ hu.lib o (hsub o ho)
      · -- the buffer was written out with an operation up to the block
        cases ht : volatile.takeWhile (·.block ≤ n) with
        | nil =>
          simp only [Store.updateLib, List.foldl_nil]
          exact hu.lib o (hsub o ho)
        | cons a ops =>
          have ha : a ∈ volatile.takeWhile (·.block ≤ n) := ht ▸ List.mem_cons_self
          have hle := hu.buffered _ hl a ((List.takeWhile_sublist _).mem ha)
          have := htake a ha
          have := habove o ho
          simp only [Store.updateLib, ← ht]
          omega
    · obtain rfl : n = k := by simpa [Store.updateLib] using hk
      exact Nat.le_of_lt (habove o ho)
    · rcases hl with hl | hl
      · exact hl ▸ hm
      · exact hbm _ hl
    · obtain rfl : n = k := by simpa [Store.updateLib] using hk
      exact .inr (Nat.le_refl _)

theorem Heard.trans {volatile taken taken' : List (Operation Op)} {store : Store Op} {n : ℕ}
    {r r' : List (Operation Op) × Store Op} (h : Heard volatile store n r taken)
    (h' : Heard r.1 r.2 (n + 1) r' taken') : Heard volatile store (n + 1) r' (taken ++ taken') where
  imported := by rw [h'.imported, h.imported, List.append_assoc]
  split := by rw [h.split, h'.split, List.append_assoc]
  taken_le o ho := by
    rcases List.mem_append.mp ho with ho | ho
    · exact Nat.le_succ_of_le (h.taken_le o ho)
    · exact h'.taken_le o ho
  above := h'.above
  unread := h'.unread
  lib_le m hl hb hn := by
    refine h'.lib_le m (h.lib_le m hl hb (by omega)) (fun k hk ↦ ?_) hn
    rcases h.buffered k hk with hk | hk
    · exact hb k hk
    · omega
  buffered k hk := by
    rcases h'.buffered k hk with hk | hk
    · exact (h.buffered k hk).imp_right Nat.le_succ_of_le
    · exact .inr hk
  quiet ht := by
    obtain ⟨ht, ht'⟩ := List.append_eq_nil_iff.mp ht
    rw [h'.quiet ht', h.quiet ht]

/-- After the notices of a block that names `new`. -/
theorem heard {volatile : List (Operation Op)} {store : Store Op} (hu : Unread volatile store)
    {old new : ℕ} (hle : old ≤ new) :
    ∃ taken, Heard volatile store new (onNotices volatile store (notices old new)) taken := by
  obtain ⟨k, rfl⟩ := Nat.exists_eq_add_of_le hle
  have hk : ∀ k, ∃ taken, Heard volatile store (old + k)
      (onNotices volatile store (List.range' old (k + 1))) taken := by
    intro k
    induction k with
    | zero => exact heard_one hu old
    | succ k ih =>
      obtain ⟨taken, h⟩ := ih
      obtain ⟨taken', h'⟩ := heard_one h.unread (old + (k + 1))
      refine ⟨taken ++ taken', ?_⟩
      rw [onNotices, List.range'_concat, List.foldl_append]
      simpa [onNotices, Nat.add_assoc] using h.trans h'
  have hn : old + k + 1 - old = k + 1 := by omega
  rw [notices, hn]
  exact hk k

end Heard

section Run

variable {Block Id Name Other Op : Type} [BlockId Id] [BlockHeader Block Id] [DecidableEq Id]
  [DecidableEq Name] [Processing Block Id Name Other] [Operations Block Id Name Other Op]
  [Filter Op]

/-- A content whose volatile operations the store has not imported. -/
structure Fits (c : Content Id Name Other Op) (store : Store Op) : Prop where
  paced : Paced c.chain
  unread : Unread c.volatile store
  le_head : ∀ o ∈ c.volatile, o.block ≤ c.chain.headNum
  pending : ∀ o ∈ c.volatile, c.chain.lib < o.block ∨ o.block = c.chain.headNum
  lib_le : store.lib ≤ c.chain.headNum
  buffered_le : ∀ k ∈ store.buffered, k ≤ c.chain.headNum

/-- The sessions above the first one whose block imported operations: undoing them brings back
what the store has not imported. -/
def Poppable (store : Store Op) :
    Content Id Name Other Op → List (Frame Id Name Other Op) → Prop
  | _, [] => True
  | c, f :: undo => f.removed = [] →
      (∃ ops, c.recorded = f.recorded ++ ops ∧ c.volatile = f.volatile ++ ops) ∧
        f.chain.lib ≤ c.chain.lib ∧ Fits f.toContent store ∧ Poppable store f.toContent undo

structure Intact (s : Tracking Id Name Other Op) : Prop where
  split : s.recorded = s.store.imported ++ s.volatile
  fits : Fits s.toContent s.store
  poppable : Poppable s.store s.toContent s.undo
  committed : ∀ f ∈ s.undo, s.chain.lib ≤ f.chain.headNum

omit [DecidableEq Id] [DecidableEq Name] [Processing Block Id Name Other]
  [Operations Block Id Name Other Op] [Filter Op] [BlockHeader Block Id] in
/-- A store that took in no operation, and at most a number that all volatile operations and
all kept sessions are above. -/
theorem Fits.later {c : Content Id Name Other Op} {store store' : Store Op} (h : Fits c store)
    {n : ℕ} (hl : store'.lib = store.lib) (hb : ∀ k ∈ store'.buffered, k ∈ store.buffered ∨ k ≤ n)
    (hv : ∀ o ∈ c.volatile, n < o.block) (hn : n ≤ c.chain.headNum) : Fits c store' where
  paced := h.paced
  unread := by
    refine ⟨h.unread.sorted, hl ▸ h.unread.lib, fun k hk o ho ↦ ?_⟩
    rcases hb k hk with hk | hk
    · exact h.unread.buffered k hk o ho
    · exact hk.trans (Nat.le_of_lt (hv o ho))
  le_head := h.le_head
  pending := h.pending
  lib_le := hl ▸ h.lib_le
  buffered_le k hk := by
    rcases hb k hk with hk | hk
    · exact h.buffered_le k hk
    · exact hk.trans hn

omit [DecidableEq Id] [DecidableEq Name] [Processing Block Id Name Other]
  [Operations Block Id Name Other Op] [Filter Op] [BlockHeader Block Id] in
theorem Poppable.later {c : Content Id Name Other Op} {undo : List (Frame Id Name Other Op)}
    {store store' : Store Op} (h : Poppable store c undo) {n : ℕ} (hl : store'.lib = store.lib)
    (hb : ∀ k ∈ store'.buffered, k ∈ store.buffered ∨ k ≤ n) (hv : ∀ o ∈ c.volatile, n < o.block) :
    Poppable store' c (undo.takeWhile fun f ↦ n ≤ f.chain.headNum) := by
  induction undo generalizing c with
  | nil => trivial
  | cons f undo ih =>
    by_cases hn : n ≤ f.chain.headNum
    · rw [List.takeWhile_cons_of_pos (by simpa using hn)]
      intro hr
      obtain ⟨⟨ops, hrec, hvol⟩, hlib, hf, hp⟩ := h hr
      have hv' : ∀ o ∈ f.volatile, n < o.block := fun o ho ↦
        hv o (hvol ▸ List.mem_append_left _ ho)
      exact ⟨⟨ops, hrec, hvol⟩, hlib, hf.later hl hb hv' hn, ih hp hv'⟩
    · rw [List.takeWhile_cons_of_neg (by simpa using hn)]
      trivial

omit [DecidableEq Id] [DecidableEq Name] [Processing Block Id Name Other]
  [Operations Block Id Name Other Op] [Filter Op] [BlockHeader Block Id] in
theorem Poppable.push {c : Content Id Name Other Op} {f : Frame Id Name Other Op}
    {undo : List (Frame Id Name Other Op)} {store : Store Op} (p : Frame Id Name Other Op → Bool)
    (h : p f = true → f.removed = [] →
      (∃ ops, c.recorded = f.recorded ++ ops ∧ c.volatile = f.volatile ++ ops) ∧
        f.chain.lib ≤ c.chain.lib ∧ Fits f.toContent store ∧
        Poppable store f.toContent (undo.takeWhile p)) :
    Poppable store c ((f :: undo).takeWhile p) := by
  rw [List.takeWhile_cons]
  split
  · next hp => exact h hp
  · trivial

namespace Intact

variable {s t : Tracking Id Name Other Op} {b : Block}

omit [DecidableEq Id] [DecidableEq Name] [Processing Block Id Name Other]
  [Operations Block Id Name Other Op] [Filter Op] [BlockHeader Block Id] in
theorem imported (h : Intact s) : s.Imported := ⟨s.volatile, h.split, h.fits.pending⟩

omit [DecidableEq Id] [DecidableEq Name] [Processing Block Id Name Other]
  [Operations Block Id Name Other Op] [Filter Op] [BlockHeader Block Id] in
theorem pop (h : Intact s) (hc : ∀ f ∈ s.undo.head?, f.removed = []) (hs : s.pop = some t) :
    Intact t := by
  unfold Tracking.pop at hs
  split at hs
  · cases hs
  · next f undo hu =>
    cases hs
    have hp := h.poppable
    rw [hu] at hp
    obtain ⟨⟨ops, hrec, hvol⟩, hlib, hf, hp⟩ := hp (hc f (by rw [hu]; rfl))
    have hsplit := h.split
    rw [hrec, hvol, ← List.append_assoc] at hsplit
    refine ⟨List.append_cancel_right hsplit, hf, hp, fun g hg ↦ ?_⟩
    exact hlib.trans (h.committed g (hu ▸ List.mem_cons_of_mem _ hg))

omit [Operations Block Id Name Other Op] [BlockId Id] [BlockHeader Block Id] [DecidableEq Id]
  [DecidableEq Name] [Processing Block Id Name Other] in
theorem block_of_mem_recordsOf {n : ℕ} {ops : List Op} :
    ∀ o ∈ recordsOf n ops, o.block = n := by
  intro o ho
  obtain ⟨op, -, rfl⟩ := List.mem_map.mp ho
  rfl

omit [DecidableEq Id] [DecidableEq Name] [Processing Block Id Name Other] in
/-- The operations of the block come after those of the blocks below it. -/
theorem unread_early (h : Intact s) (hn : num (BlockHeader.id b) = s.chain.headNum + 1) :
    Unread (s.volatile ++ s.early b) s.store := by
  have hb : ∀ o ∈ s.early b, o.block = s.chain.headNum + 1 := fun o ho ↦
    hn ▸ block_of_mem_recordsOf o ho
  have hf := h.fits
  refine ⟨List.pairwise_append.mpr ⟨hf.unread.sorted, ?_, fun o ho o' ho' ↦ ?_⟩, fun o ho ↦ ?_,
    fun k hk o ho ↦ ?_⟩
  · exact List.pairwise_of_forall_mem_list fun o ho o' ho' ↦ by rw [hb o ho, hb o' ho']
  · rw [hb o' ho']
    exact Nat.le_succ_of_le (hf.le_head o ho)
  · rcases List.mem_append.mp ho with ho | ho
    · exact hf.unread.lib o ho
    · rw [hb o ho]
      exact Nat.lt_succ_of_le hf.lib_le
  · rcases List.mem_append.mp ho with ho | ho
    · exact hf.unread.buffered k hk o ho
    · rw [hb o ho]
      exact Nat.le_succ_of_le (hf.buffered_le k hk)

/-- The content after a block and its notices. -/
theorem fits_apply (h : Intact s) {c : ChainState Id (Confirmations Name Other)}
    (hc : s.chain.apply b = some c) {r : List (Operation Op) × Store Op}
    {taken recorded : List (Operation Op)}
    (hh : Heard (s.volatile ++ s.early b) s.store c.lib r taken) :
    Fits ⟨c, r.1 ++ s.later b, recorded⟩ r.2 := by
  have hn := ChainState.headNum_apply hc
  have hnum : num (BlockHeader.id b) = c.headNum := by
    rw [ChainState.headNum, (ChainState.apply_eq_some hc).2]
  have hp := h.fits.paced.step hc
  have hearly : ∀ o ∈ s.early b, o.block = c.headNum := fun o ho ↦
    hnum ▸ block_of_mem_recordsOf o ho
  have hlater : ∀ o ∈ s.later b, o.block = c.headNum := fun o ho ↦
    hnum ▸ block_of_mem_recordsOf o ho
  have hold : ∀ o ∈ r.1, o.block ≤ c.headNum := by
    intro o ho
    have hmem : o ∈ s.volatile ++ s.early b := hh.split ▸ List.mem_append_right _ ho
    rcases List.mem_append.mp hmem with hmem | hmem
    · have := h.fits.le_head o hmem
      omega
    · exact Nat.le_of_eq (hearly o hmem)
  have hlib : r.2.lib ≤ s.chain.headNum :=
    hh.lib_le _ h.fits.lib_le h.fits.buffered_le (hn ▸ hp.lib_le)
  have hbuf : ∀ k ∈ r.2.buffered, k ≤ c.headNum := by
    intro k hk
    rcases hh.buffered k hk with hk | hk
    · have := h.fits.buffered_le k hk
      omega
    · exact hk.trans hp.lib_le
  refine ⟨hp, ⟨List.pairwise_append.mpr ⟨hh.unread.sorted, ?_, fun o ho o' ho' ↦ ?_⟩,
    fun o ho ↦ ?_, fun k hk o ho ↦ ?_⟩, fun o ho ↦ ?_, fun o ho ↦ ?_, ?_, hbuf⟩
  · exact List.pairwise_of_forall_mem_list fun o ho o' ho' ↦ by rw [hlater o ho, hlater o' ho']
  · rw [hlater o' ho']
    exact hold o ho
  · rcases List.mem_append.mp ho with ho | ho
    · exact hh.unread.lib o ho
    · rw [hlater o ho]
      omega
  · rcases List.mem_append.mp ho with ho | ho
    · exact hh.unread.buffered k hk o ho
    · rw [hlater o ho]
      exact hbuf k hk
  · rcases List.mem_append.mp ho with ho | ho
    · exact hold o ho
    · exact Nat.le_of_eq (hlater o ho)
  · rcases List.mem_append.mp ho with ho | ho
    · exact .inl (hh.above o ho)
    · exact .inr (hlater o ho)
  · change r.2.lib ≤ c.headNum
    omega

theorem apply (h : Intact s) (hs : s.apply b = some t) : Intact t := by
  obtain ⟨c, hc, rfl⟩ := Option.map_eq_some_iff.mp hs
  have hn := ChainState.headNum_apply hc
  have hnum : num (BlockHeader.id b) = s.chain.headNum + 1 := by
    rw [← hn, ChainState.headNum, (ChainState.apply_eq_some hc).2]
  have hmono := h.fits.paced.lib_mono hc
  obtain ⟨taken, hh⟩ := heard (h.unread_early hnum) hmono
  have hsplit : s.volatile ++ s.early b = taken ++ (s.notified b c.lib).1 := hh.split
  have himp : (s.notified b c.lib).2.imported = s.store.imported ++ taken := hh.imported
  refine ⟨?_, h.fits_apply hc hh, ?_, fun f hf ↦ ?_⟩
  · calc s.recorded ++ (s.early b ++ s.later b)
        = s.store.imported ++ (s.volatile ++ s.early b) ++ s.later b := by
          rw [h.split]
          simp only [List.append_assoc]
      _ = (s.notified b c.lib).2.imported ++ ((s.notified b c.lib).1 ++ s.later b) := by
          rw [hsplit, himp]
          simp only [List.append_assoc]
  · refine Poppable.push (fun f : Frame Id Name Other Op ↦ decide (c.lib ≤ f.chain.headNum))
      fun hle hr ↦ ?_
    have hle : c.lib ≤ s.chain.headNum := of_decide_eq_true hle
    have ht : taken = [] := by
      change (s.notified b c.lib).2.imported.drop s.store.imported.length = [] at hr
      rwa [himp, List.drop_left] at hr
    rw [ht, List.nil_append] at hsplit
    have hv : ∀ o ∈ s.volatile, c.lib < o.block := fun o ho ↦
      hh.above o (hsplit ▸ List.mem_append_left _ ho)
    refine ⟨⟨s.early b ++ s.later b, rfl, ?_⟩, hmono, h.fits.later (hh.quiet ht) hh.buffered hv hle,
      h.poppable.later (hh.quiet ht) hh.buffered hv⟩
    change (s.notified b c.lib).1 ++ s.later b = s.volatile ++ (s.early b ++ s.later b)
    rw [← hsplit, List.append_assoc]
  · simpa using List.mem_takeWhile_imp hf

/-- A block that fails without having raised the last irreversible block or removed a volatile
operation. -/
theorem fail (h : Intact s) (hc : ∀ lib ∈ named s.chain b,
      lib = s.chain.lib ∧ ∀ o ∈ s.volatile ++ s.early b, lib < o.block) (hs : s.fail b = some t) :
    Intact t := by
  obtain ⟨lib, hl, rfl⟩ := Option.map_eq_some_iff.mp hs
  obtain ⟨rfl, hv⟩ := hc lib hl
  have hnum : num (BlockHeader.id b) = s.chain.headNum + 1 := by
    unfold named at hl
    split at hl
    · next hp => rw [BlockHeader.num_id, hp.1]; rfl
    · cases hl
  obtain ⟨taken, hh⟩ := heard (h.unread_early hnum) (Nat.le_refl s.chain.lib)
  have ht : taken = [] := by
    cases taken with
    | nil => rfl
    | cons o taken =>
      have hlt := hv o (hh.split ▸ List.mem_append_left _ List.mem_cons_self)
      have := hh.taken_le o List.mem_cons_self
      omega
  have hvol : ∀ o ∈ s.volatile, s.chain.lib < o.block := fun o ho ↦
    hv o (List.mem_append_left _ ho)
  have hundo : s.undo.takeWhile (fun f ↦ s.chain.lib ≤ f.chain.headNum) = s.undo :=
    List.takeWhile_eq_self_iff.mpr fun f hf ↦ decide_eq_true (h.committed f hf)
  have hp := h.poppable.later (hh.quiet ht) hh.buffered hvol
  rw [hundo] at hp
  refine ⟨?_, h.fits.later (hh.quiet ht) hh.buffered hvol h.fits.paced.lib_le, hp, h.committed⟩
  have himp := hh.imported
  rw [ht, List.append_nil] at himp
  change s.recorded = (s.notified b s.chain.lib).2.imported ++ s.volatile
  rw [h.split, Tracking.notified, himp]

omit [DecidableEq Id] [DecidableEq Name] [Filter Op] in
theorem start {base : ChainState Id (Confirmations Name Other)} (hp : Paced base) :
    Intact (.start base : Tracking Id Name Other Op) := by
  refine ⟨rfl, ⟨hp, ⟨.nil, ?_, ?_⟩, ?_, ?_, Nat.zero_le _, ?_⟩, trivial, ?_⟩ <;>
    simp [Tracking.start]

theorem step (h : Intact s) {e : Step Block} (hc : s.Clean e) (hs : s.step e = some t) :
    Intact t := by
  cases e with
  | apply b => exact h.apply hs
  | fail b => exact h.fail hc hs
  | pop => exact h.pop hc hs

theorem run {base : ChainState Id (Confirmations Name Other)} (hp : Paced base)
    (h : Reaches (fun t (e : Step Block) ↦ t.Clean e) (.start base) s) : Intact s := by
  induction h with
  | start => exact start hp
  | step _ hc hs ih => exact ih.step hc hs

end Intact

/-- With volatile import off and no reindex, in every run from genesis that undoes no block that
imported operations. -/
theorem imported_of_clean {base : ChainState Id (Confirmations Name Other)}
    {s : Tracking Id Name Other Op} (hi : base.headId = zero) (hl : base.lib = 0)
    (hn : base.rest.headBlockNumber = 0)
    (h : Reaches (fun t (e : Step Block) ↦ t.Clean e) (.start base) s) : s.Imported :=
  (Intact.run (.genesis hi hl hn) h).imported

end Run

section Branches

/-- The first block has one operation, which is tracked. -/
instance : Operations BranchBlock BranchId Unit Unit Unit where
  early _ b := if b.below = 0 then [()] else []
  later _ _ := []

instance : Filter Unit := ⟨fun _ ↦ true⟩

theorem Reaches.steps {P : Tracking BranchId Unit Unit Unit → Step BranchBlock → Prop}
    {s t u : Tracking BranchId Unit Unit Unit} (h : Reaches P s t)
    {es : List (Step BranchBlock)} (hp : ∀ e ∈ es, ∀ v, P v e) (hs : es.foldlM Tracking.step t = some u) :
    Reaches P s u := by
  induction es generalizing t with
  | nil =>
    cases hs
    exact h
  | cons e es ih =>
    obtain ⟨v, hv, hs⟩ := Option.bind_eq_some_iff.mp hs
    exact ih (h.step (hp e List.mem_cons_self t) hv)
      (fun e he ↦ hp e (List.mem_cons_of_mem _ he)) hs

/-- The switch to a side branch as the node makes it: the blocks above the common one are
popped and those of the branch are applied. -/
def switchToSide : List (Step BranchBlock) :=
  (mainBlocks 22).map .apply ++ List.replicate 21 .pop ++
    ((List.range 22).map fun k ↦ .apply ⟨true, k + 1⟩)

/-- The operation of block 1 is imported with block 22 of the one branch and again with block 22
of the other. -/
theorem imported_twice : ∃ s : Tracking BranchId Unit Unit Unit,
    Reaches (fun _ (_ : Step BranchBlock) ↦ True) (.start branchGenesis) s ∧
      s.recorded = [⟨1, ()⟩] ∧ s.store.imported = [⟨1, ()⟩, ⟨1, ()⟩] ∧ ¬ s.Imported := by
  have hrun : (switchToSide.foldlM Tracking.step
      (.start branchGenesis : Tracking BranchId Unit Unit Unit)).map
        (fun s ↦ (s.recorded, s.store.imported)) = some ([⟨1, ()⟩], [⟨1, ()⟩, ⟨1, ()⟩]) := by
    decide +kernel
  obtain ⟨s, hs, he⟩ := Option.map_eq_some_iff.mp hrun
  obtain ⟨hr, hi⟩ := Prod.mk.inj he
  refine ⟨s, Reaches.start.steps (fun _ _ _ ↦ trivial) hs, hr, hi, ?_⟩
  rintro ⟨rest, hrest, -⟩
  rw [hr, hi] at hrest
  cases hrest

theorem imported_first : ∃ s : Tracking BranchId Unit Unit Unit,
    Reaches (fun t (e : Step BranchBlock) ↦ t.Clean e) (.start branchGenesis) s ∧
      s.store.imported = [⟨1, ()⟩] ∧ s.Imported := by
  have hrun : (((mainBlocks 22).map .apply).foldlM Tracking.step
      (.start branchGenesis : Tracking BranchId Unit Unit Unit)).map
        (fun s ↦ s.store.imported) = some [⟨1, ()⟩] := by decide +kernel
  obtain ⟨s, hs, hi⟩ := Option.map_eq_some_iff.mp hrun
  have hclean : ∀ e ∈ (mainBlocks 22).map Step.apply, ∀ v : Tracking BranchId Unit Unit Unit,
      v.Clean e := by
    intro e he v
    obtain ⟨b, -, rfl⟩ := List.mem_map.mp he
    trivial
  have hr := Reaches.start.steps hclean hs
  exact ⟨s, hr, hi, imported_of_clean rfl rfl rfl hr⟩

end Branches

end Taiyi.Plugins
