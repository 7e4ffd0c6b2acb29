import Taiyi.Chain.AllOrNothing
import Taiyi.Chain.Climbs

set_option autoImplicit false

namespace Taiyi.Chain

open ForkDatabase Library.Lineage

variable {Block Id : Type} [BlockId Id] [BlockHeader Block Id] [DecidableEq Id]

/-- The loops of `fetch_branch_from`, the last one from where the others end. -/
structure Climbs (db : ForkDatabase Block) (f s : ForkItem Block) where
  above : List (ForkItem Block)
  above' : List (ForkItem Block)
  f' : ForkItem Block
  s' : ForkItem Block
  both : List (ForkItem Block)
  both' : List (ForkItem Block)
  down : climbTo (db.alive []) s.num f.self f.trail = .ok (above, f')
  down' : climbTo (db.alive []) f'.num s.self s.trail = .ok (above', s')
  together : climbBoth (db.alive []) f'.self f'.trail s'.self s'.trail = .ok (both, both')

namespace Climbs

variable {db : ForkDatabase Block} {f s : ForkItem Block}

def first (k : Climbs db f s) : List (ForkItem Block) := k.above ++ k.both

def second (k : Climbs db f s) : List (ForkItem Block) := k.above' ++ k.both'

end Climbs

section Branches

variable {made : List (ForkItem Block)} {db : ForkDatabase Block} {f f' s : ForkItem Block}
  {above both first second : List (ForkItem Block)} {n : ℕ} {c : Id}

theorem climbs_of_fetch (hf : db.fetchBlock f.id = some f) (hs : db.fetchBlock s.id = some s)
    (h : db.fetchBranchFrom f.id s.id = .ok (first, second)) :
    ∃ k : Climbs db f s, first = k.first ∧ second = k.second := by
  simp only [fetchBranchFrom, hf, hs] at h
  split at h
  · cases h
  · next above f' hdown =>
    split at h
    · cases h
    · next above' s' hdown' =>
      split at h
      · cases h
      · next both both' htogether =>
        cases h
        exact ⟨⟨above, above', f', s', both, both', hdown, hdown', htogether⟩, rfl, rfl⟩

theorem fetch_of_climbs (hf : db.fetchBlock f.id = some f) (hs : db.fetchBlock s.id = some s)
    (k : Climbs db f s) : db.fetchBranchFrom f.id s.id = .ok (k.first, k.second) := by
  simp only [fetchBranchFrom, hf, hs, k.down, k.down', k.together, Climbs.first, Climbs.second]

/-- One of the two branches, from the loops that make it. -/
theorem Forest.above_of_climbs (ht : Forest made db) (hf : f ∈ db.index) {m : Link Block} {t : List (Link Block)}
    {other : List (ForkItem Block)} (h : climbTo (db.alive []) n f.self f.trail = .ok (above, f'))
    (h' : climbBoth (db.alive []) f'.self f'.trail m t = .ok (both, other)) (hc : EndsAbove both c) :
    Above db f (above ++ both) c := by
  obtain ⟨hup, -, -, hlive⟩ := climbTo_ok h
  obtain ⟨-, -, -, -, q, -, -, -, -, hspine, -, -, hlive'⟩ := climbBoth_ok h'
  have hchain : Spine (above ++ both) f.path q := hup.append hspine
  refine ⟨⟨q, hchain⟩, hc.append above, fun x hx ↦ ?_⟩
  have halive : ∀ y ∈ above ++ [f'], db.alive [] y.ref = true := fun y hy ↦
    (hlive y hy).elim (fun heq ↦ heq ▸ (show db.alive [] f.ref = true from alive_of_mem hf)) fun hy ↦ hy
  have hmade : x ∈ made := ht.mem_of_suffix (hchain.suffix hx) f (ht.index f hf) rfl
  refine ht.holds_of_alive hmade ?_
  rcases List.mem_append.mp hx with hx | hx
  · exact halive x (List.mem_append_left _ hx)
  · rcases hlive' x hx with rfl | hx
    · exact halive f' (List.mem_append_right _ List.mem_cons_self)
    · exact hx

namespace Climbs

/-- Where neither block is below the other, the loops never meet. -/
theorem ne (k : Climbs db f s) (hl : Linked f.path) (hl' : Linked s.path)
    (hfs : ¬ Ancestor (BuildsOn Block) f.id s.id) (hsf : ¬ Ancestor (BuildsOn Block) s.id f.id) :
    k.f'.id ≠ k.s'.id := by
  intro heq
  rcases Nat.le_total s.num f.num with hle | hle
  · obtain ⟨-, -, hs'⟩ := climbs_of_le k.down k.down' hl hle
    exact hfs (hs' ▸ heq ▸ ancestor_of_suffix hl (suffix_of_climbTo k.down))
  · obtain ⟨-, hf', -⟩ := climbs_of_ge k.down k.down' hl' hle
    exact hsf (hf' ▸ heq.symm ▸ ancestor_of_suffix hl' (suffix_of_climbTo k.down'))

theorem of_ancestor (k : Climbs db f s) (hl : Linked f.path) (h : Ancestor (BuildsOn Block) f.id s.id) :
    k.second = [s] ∧ ∃ x ∈ k.first, x.id = s.id := by
  obtain ⟨hnum, habove', hs'⟩ := climbs_of_le k.down k.down' hl (graded.depth_le h)
  have hid : k.f'.id = s.id :=
    graded.eq_of_depth_eq (ancestor_of_suffix hl (suffix_of_climbTo k.down)) h hnum
  have htogether := k.together
  rw [hs', climbBoth_same hid, Except.ok.injEq, Prod.mk.injEq] at htogether
  obtain ⟨hboth, hboth'⟩ := htogether
  refine ⟨by rw [Climbs.second, habove', ← hboth']; rfl, k.f', ?_, hid⟩
  rw [Climbs.first, ← hboth]
  exact List.mem_append_right _ List.mem_cons_self

theorem of_ancestor' (k : Climbs db f s) (hl' : Linked s.path) (h : Ancestor (BuildsOn Block) s.id f.id) :
    k.first = [f] ∧ ∃ y ∈ k.second, y.id = f.id := by
  obtain ⟨habove, hf', hnum⟩ := climbs_of_ge k.down k.down' hl' (graded.depth_le h)
  have hid : k.s'.id = f.id :=
    graded.eq_of_depth_eq (ancestor_of_suffix hl' (suffix_of_climbTo k.down')) h hnum
  have htogether := k.together
  rw [hf', climbBoth_same hid.symm, Except.ok.injEq, Prod.mk.injEq] at htogether
  obtain ⟨hboth, hboth'⟩ := htogether
  refine ⟨by rw [Climbs.first, habove, ← hboth]; rfl, k.s', ?_, hid⟩
  rw [Climbs.second, ← hboth']
  exact List.mem_append_right _ List.mem_cons_self

end Climbs

/-- What the branches are, for any two blocks of the index. -/
structure Branching (db : ForkDatabase Block) (f s : ForkItem Block) (first second : List (ForkItem Block))
    (c : Id) : Prop where
  left : Above db f first c
  right : Above db s second c
  nearest : ¬ Ancestor (BuildsOn Block) f.id s.id → ¬ Ancestor (BuildsOn Block) s.id f.id →
    NearestCommon (BuildsOn Block) f.id s.id c ∧ ∀ x ∈ first, ∀ y ∈ second, x.id ≠ y.id
  below_left : Ancestor (BuildsOn Block) f.id s.id → second = [s] ∧ ∃ x ∈ first, x.id = s.id
  below_right : Ancestor (BuildsOn Block) s.id f.id → first = [f] ∧ ∃ y ∈ second, y.id = f.id

theorem Forest.fetchBlock_eq (ht : Forest made db) (hf : f ∈ db.index) : db.fetchBlock f.id = some f :=
  fetchBlock_of_nodup ht.ids hf

theorem Forest.fetchBranchFrom_ok (ht : Forest made db) (hf : f ∈ db.index) (hs : s ∈ db.index)
    (h : db.fetchBranchFrom f.id s.id = .ok (first, second)) : ∃ c, Branching db f s first second c := by
  obtain ⟨k, rfl, rfl⟩ := climbs_of_fetch (ht.fetchBlock_eq hf) (ht.fetchBlock_eq hs) h
  have hl := ht.linked f (ht.index f hf)
  have hl' := ht.linked s (ht.index s hs)
  obtain ⟨c, hc, hc'⟩ := climbBoth_ends k.together
  have hleft : Above db f k.first c := ht.above_of_climbs hf k.down k.together hc
  have hright : Above db s k.second c :=
    ht.above_of_climbs hs k.down' (climbBoth_swap k.together) hc'
  refine ⟨c, hleft, hright, fun hfs hsf ↦ ?_, k.of_ancestor hl, k.of_ancestor' hl'⟩
  obtain ⟨x, hx, hxc, hxlast⟩ := hleft.exists_last
  obtain ⟨y, hy, hyc, hylast⟩ := hright.exists_last
  have hne : x.id ≠ y.id := by
    have hlf' := hl.suffix (suffix_of_climbTo k.down)
    have hls' := hl'.suffix (suffix_of_climbTo k.down')
    have hlast := climbBoth_ne hlf' hls' (k.ne hl hl' hfs hsf) k.together
    obtain ⟨x', hx', -⟩ := Option.map_eq_some_iff.mp hc
    obtain ⟨y', hy', -⟩ := Option.map_eq_some_iff.mp hc'
    rw [Climbs.first, List.getLast?_append, hx', Option.some_or] at hxlast
    rw [Climbs.second, List.getLast?_append, hy', Option.some_or] at hylast
    rw [hx', hy', hxlast, hylast] at hlast
    exact fun heq ↦ hlast (congrArg some heq)
  have hnearest := graded.nearestCommon_of_ne (hleft.ancestor hl x hx) (hright.ancestor hl' y hy)
    ⟨x.block, rfl, hxc⟩ ⟨y.block, rfl, hyc⟩ hne
  refine ⟨hnearest, fun z hz w hw heq ↦ ?_⟩
  -- a block in both branches is a common ancestor, yet higher than the nearest
  have hcz := hnearest.nearest z.id (hleft.ancestor hl z hz) (heq ▸ hright.ancestor hl' w hw)
  have hlow : z.num ≤ num c := graded.depth_le hcz
  have hhigh := hleft.num_lt hl z hz
  omega

/-- The branches are found if the database holds them. -/
theorem Forest.fetchBranchFrom_returns (ht : Forest made db) (hf : f ∈ db.index) (hs : s ∈ db.index)
    (h : Above db f first c) (h' : Above db s second c) :
    ∃ branches, db.fetchBranchFrom f.id s.id = .ok branches := by
  have hl := ht.linked f (ht.index f hf)
  have hl' := ht.linked s (ht.index s hs)
  obtain ⟨q, hchain⟩ := h.chain
  obtain ⟨q', hchain'⟩ := h'.chain
  have hlive : ∀ x ∈ first, db.alive [] x.ref = true := fun x hx ↦ (h.held x hx).alive []
  have hlive' : ∀ x ∈ second, db.alive [] x.ref = true := fun x hx ↦ (h'.held x hx).alive []
  have hlow : ∀ {it : ForkItem Block} {items : List (ForkItem Block)} {n : ℕ}, Above db it items c →
      num c < n → ∃ x ∈ items, x.num ≤ n := fun ha hn ↦ by
    obtain ⟨x, hx, rfl, -⟩ := ha.exists_last
    exact ⟨x, hx, (num_previous x.block).trans_le hn⟩
  have hsn : num c < s.num := by
    obtain ⟨y, hy, -⟩ := h'.exists_last
    exact (h'.num_lt hl' y hy).trans_le (graded.depth_le (h'.ancestor hl' y hy))
  obtain ⟨above, f', rest, hdown, rfl, hne, hrest⟩ := climbTo_returns hchain hlive (hlow h hsn)
  have hlf' := hl.suffix (suffix_of_climbTo hdown)
  have hends := h.ends.of_append hne
  have hf'n : num c < f'.num := by
    have := hrest.num_eq hlf' hends
    have := List.length_pos_of_ne_nil hne
    omega
  obtain ⟨above', s', rest', hdown', rfl, hne', hrest'⟩ := climbTo_returns hchain' hlive' (hlow h' hf'n)
  have hnum : f'.num = s'.num := by
    rcases Nat.le_total s.num f.num with hle | hle
    · obtain ⟨hnum, -, rfl⟩ := climbs_of_le hdown hdown' hl hle
      exact hnum
    · obtain ⟨-, rfl, hnum⟩ := climbs_of_ge hdown hdown' hl' hle
      exact hnum.symm
  obtain ⟨⟨both, both'⟩, htogether⟩ := climbBoth_returns hlf' (hl'.suffix (suffix_of_climbTo hdown')) hnum
    hrest hrest' hends (h'.ends.of_append hne') (fun x hx ↦ hlive x (List.mem_append_right _ hx))
    (fun y hy ↦ hlive' y (List.mem_append_right _ hy))
  exact ⟨_, fetch_of_climbs (ht.fetchBlock_eq hf) (ht.fetchBlock_eq hs)
    ⟨above, above', f', s', both, both', hdown, hdown', htogether⟩⟩

end Branches

section MainBranch

variable {made : List (ForkItem Block)} {db : ForkDatabase Block} {h it : ForkItem Block} {n : ℕ}
  {pinned : List ℕ}

omit [DecidableEq Id] in
/-- What is answered has the number, and is on the branch of the head unless it is the only block
known with that number. -/
theorem Forest.fetchOnMain_ok (ht : Forest made db)
    (hf : db.fetchBlockOnMainBranchByNumber pinned n = some it) :
    it.num = n ∧ (db.fetchBlockByNumber n ≠ [it] →
      ∃ h, db.head = some h ∧ Ancestor (BuildsOn Block) h.id it.id) := by
  unfold fetchBlockOnMainBranchByNumber at hf
  split at hf
  · cases hf
  · next it' hone =>
    cases hf
    have hmem : it ∈ db.fetchBlockByNumber n := hone ▸ List.mem_cons_self
    exact ⟨(mem_fetchBlockByNumber.mp hmem).2, fun hne ↦ absurd hone hne⟩
  · unfold walkMainBranchToNum at hf
    split at hf
    · cases hf
    · next h hhead =>
      split at hf
      · cases hf
      · next hle =>
        have hl := ht.linked h (ht.head h hhead)
        obtain ⟨hnum, hs⟩ := walkFrom_ok hl (Nat.not_lt.mp hle) hf
        exact ⟨hnum, fun _ ↦ ⟨h, hhead, ancestor_of_suffix hl hs⟩⟩

omit [DecidableEq Id] in
/-- The block of the head's branch is found as long as the branch is held down to it. -/
theorem Forest.fetchOnMain_eq (ht : Forest made db) (hhead : db.head = some h)
    {between : List (ForkItem Block)} (hs : Spine between h.path it.path)
    (hheld : ∀ x ∈ between, db.Holds x) (hit : it ∈ db.index) :
    db.fetchBlockOnMainBranchByNumber pinned it.num = some it := by
  have hl := ht.linked h (ht.head h hhead)
  have hsuffix : it.path <:+ h.path := ⟨between.map ForkItem.self, hs.eq_append.symm⟩
  have hmem : it ∈ db.fetchBlockByNumber it.num := mem_fetchBlockByNumber.mpr ⟨hit, rfl⟩
  unfold fetchBlockOnMainBranchByNumber
  split
  · next hnone =>
    rw [hnone] at hmem
    cases hmem
  · next it' hone =>
    rw [hone] at hmem
    rw [List.mem_singleton.mp hmem]
  · have hle : it.num ≤ h.num := Linked.num_le hl hsuffix
    simp only [walkMainBranchToNum, hhead, if_neg (Nat.not_lt.mpr hle)]
    refine walkFrom_eq hl hsuffix rfl fun k hk hnum ↦ ?_
    have hk : k ∈ between.map ForkItem.self ++ it.path := hs.eq_append ▸ List.mem_cons_of_mem _ hk
    rcases List.mem_append.mp hk with hk | hk
    · obtain ⟨x, hx, rfl⟩ := List.mem_map.mp hk
      exact (hheld x hx).alive pinned
    · rcases List.mem_cons.mp hk with rfl | hk
      · exact alive_of_mem hit
      · -- what is below the item has a smaller number
        obtain ⟨u, v, huv⟩ := List.append_of_mem hk
        have hbelow : Linked (it.self :: u ++ k :: v) := by
          have hpath := hl.suffix hsuffix
          rwa [ForkItem.path, huv] at hpath
        have hlow := hbelow.num_lt it.self List.mem_cons_self
        exact absurd hnum (Nat.not_le_of_lt hlow)

end MainBranch

/-- In every fork tree: the branches of two of its blocks are found exactly when they are held, and
are what they should be, ending with the lower block where that is an ancestor of the other; the
block of the head's branch with a number is found while the branch is held down to it, and nothing
else is unless it is the only block known with the number. -/
theorem branchQueries_of_grown {made : List (ForkItem Block)} {db : ForkDatabase Block}
    (hg : Grown made db) :
    (∀ f ∈ db.index, ∀ s ∈ db.index,
      ((∃ branches, db.fetchBranchFrom f.id s.id = .ok branches) ↔
        ∃ first second c, Above db f first c ∧ Above db s second c) ∧
      ∀ first second, db.fetchBranchFrom f.id s.id = .ok (first, second) →
        ∃ c, Branching db f s first second c) ∧
    (∀ h it between pinned, db.head = some h → Spine between h.path it.path →
      (∀ x ∈ between, db.Holds x) → it ∈ db.index →
      db.fetchBlockOnMainBranchByNumber pinned it.num = some it) ∧
    ∀ pinned n it, db.fetchBlockOnMainBranchByNumber pinned n = some it →
      it.num = n ∧ (db.fetchBlockByNumber n ≠ [it] →
        ∃ h, db.head = some h ∧ Ancestor (BuildsOn Block) h.id it.id) := by
  have ht := hg.forest
  refine ⟨fun f hf s hs ↦ ⟨⟨?_, ?_⟩, fun first second hok ↦ ht.fetchBranchFrom_ok hf hs hok⟩,
    fun h it between pinned hhead hspine hheld hit ↦ ht.fetchOnMain_eq hhead hspine hheld hit,
    fun pinned n it hok ↦ ht.fetchOnMain_ok hok⟩
  · rintro ⟨⟨first, second⟩, hok⟩
    obtain ⟨c, hb⟩ := ht.fetchBranchFrom_ok hf hs hok
    exact ⟨first, second, c, hb.left, hb.right⟩
  · rintro ⟨first, second, c, hleft, hright⟩
    exact ht.fetchBranchFrom_returns hf hs hleft hright

section Parted

def rootItem : ForkItem TaggedBlock := ⟨⟨0, tagged 1 []⟩, []⟩

def leftItem : ForkItem TaggedBlock := ⟨⟨1, tagged 1 [1]⟩, rootItem.path⟩

def rightItem : ForkItem TaggedBlock := ⟨⟨2, tagged 2 [1]⟩, rootItem.path⟩

/-- A first block with two blocks on it. -/
def parted : ForkDatabase TaggedBlock := ⟨[rootItem, leftItem, rightItem], some leftItem, 4, 3⟩

theorem grown_parted : Grown [rightItem, leftItem, rootItem] parted := by
  have hroot := Grown.startBlock (tagged 1 []) (Grown.empty 4)
  have hleft := Grown.pushBlock (b := tagged 1 [1]) rfl rfl hroot
  exact Grown.pushBlock (b := tagged 2 [1]) rfl rfl hleft

theorem branching_parted : (∃ c, Branching parted leftItem rightItem [leftItem] [rightItem] c) ∧
    parted.fetchBlockOnMainBranchByNumber [] 1 = some rootItem := by
  obtain ⟨hbranches, hmain, -⟩ := branchQueries_of_grown grown_parted
  refine ⟨(hbranches leftItem (.tail _ (.head _)) rightItem (.tail _ (.tail _ (.head _)))).2 _ _ rfl,
    hmain leftItem rootItem [leftItem] [] rfl ⟨rfl, rfl⟩ (fun x hx ↦ ?_) (.head _)⟩
  exact .inr (congrArg some (List.mem_singleton.mp hx).symm)

/-- The branches of a block and the one below it both end with the lower one. -/
theorem not_disjoint_parted : ¬ ∀ (made : List (ForkItem TaggedBlock)) (db : ForkDatabase TaggedBlock),
    Grown made db → ∀ f ∈ db.index, ∀ s ∈ db.index, ∃ first second,
      db.fetchBranchFrom f.id s.id = .ok (first, second) ∧ ∀ x ∈ first, x ∉ second := by
  intro h
  obtain ⟨first, second, hok, hdisjoint⟩ :=
    h _ _ grown_parted leftItem (.tail _ (.head _)) rootItem (.head _)
  have hboth : parted.fetchBranchFrom leftItem.id rootItem.id =
    .ok ([leftItem, rootItem], [rootItem]) := rfl
  cases hboth.symm.trans hok
  exact hdisjoint rootItem (.tail _ (.head _)) (.head _)

end Parted

end Taiyi.Chain
