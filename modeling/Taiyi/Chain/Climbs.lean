import Taiyi.Chain.Ahead
import Taiyi.Chain.Growth
import Taiyi.Library.Lineage

set_option autoImplicit false

namespace Taiyi.Chain

open ForkDatabase Library.Lineage

/-- The block with the one id builds on the one with the other. -/
def BuildsOn (Block : Type) {Id : Type} [BlockId Id] [BlockHeader Block Id] (i j : Id) : Prop :=
  ∃ b : Block, id b = i ∧ previous b = j

variable {Block Id : Type} [BlockId Id] [BlockHeader Block Id]

theorem graded : Graded (BuildsOn Block) (num : Id → ℕ) where
  unique := by
    rintro i j k ⟨b, rfl, rfl⟩ ⟨b', hid, rfl⟩
    rw [BlockHeader.id_injective hid]
  deeper := by
    rintro i j ⟨b, rfl, rfl⟩
    exact num_previous b

theorem ancestor_of_suffix {l : Link Block} {t : List (Link Block)} {it : ForkItem Block}
    (hl : Linked (l :: t)) (hs : it.path <:+ l :: t) : Ancestor (BuildsOn Block) (id l.block) it.id := by
  induction t generalizing l with
  | nil =>
    rcases List.suffix_cons_iff.mp hs with heq | hs
    · cases ForkItem.path_injective (show it.path = (⟨l, []⟩ : ForkItem Block).path from heq)
      exact .refl
    · exact absurd (List.suffix_nil.mp hs) (List.cons_ne_nil _ _)
  | cons m t ih =>
    rcases List.suffix_cons_iff.mp hs with heq | hs
    · cases ForkItem.path_injective (show it.path = (⟨l, m :: t⟩ : ForkItem Block).path from heq)
      exact .refl
    · obtain ⟨hprev, hl⟩ := linked_cons.mp hl
      have hparent : BuildsOn Block (id l.block) (id m.block) :=
        ⟨l.block, rfl, hprev.resolve_left (List.cons_ne_nil m t)⟩
      exact (Ancestor.of_parent hparent).trans (ih hl hs)

theorem num_of_trail {x y : ForkItem Block} (hl : Linked x.path) (ht : x.trail = y.path) :
    x.num = y.num + 1 := by
  rw [ForkItem.path, ht] at hl
  have hprev : previous x.block = y.id := (linked_cons.mp hl).1.resolve_left (List.cons_ne_nil _ _)
  exact (num_previous x.block).trans (congrArg (num · + 1) hprev)

/-- The last of the items builds on the block with the id. -/
def EndsAbove (items : List (ForkItem Block)) (c : Id) : Prop :=
  items.getLast?.map (fun it ↦ previous it.block) = some c

namespace Spine

variable {items items' : List (ForkItem Block)} {p q r : List (Link Block)} {c : Id}

omit [BlockId Id] [BlockHeader Block Id] in
theorem append (h : Spine items p q) (h' : Spine items' q r) : Spine (items ++ items') p r := by
  induction items generalizing p with
  | nil => exact h ▸ h'
  | cons it items ih => exact ⟨h.1, ih h.2⟩

omit [BlockId Id] [BlockHeader Block Id] in
theorem of_append {it : ForkItem Block} (h : Spine (items ++ it :: items') p q) :
    Spine (it :: items') it.path q := by
  induction items generalizing p with
  | nil => exact ⟨rfl, h.2⟩
  | cons x items ih => exact ih h.2

/-- Each item has one number less than the one before. -/
theorem num_eq {it : ForkItem Block} (hl : Linked it.path) (h : Spine items it.path q)
    (hc : EndsAbove items c) : it.num = num c + items.length := by
  induction items generalizing it with
  | nil => cases hc
  | cons x items ih =>
    obtain rfl := h.head_eq
    cases items with
    | nil =>
      cases hc
      exact num_previous x.block
    | cons y items =>
      have htrail : x.trail = y.path := h.2.1
      have hy := ih (htrail ▸ hl.suffix (List.suffix_cons _ _)) ⟨rfl, h.2.2⟩
        (by rwa [EndsAbove, List.getLast?_cons_cons] at hc)
      rw [num_of_trail hl htrail, hy, List.length_cons (a := x), Nat.add_assoc]

end Spine

section Climbing

variable {live : ℕ → Bool} {n : ℕ} {l m : Link Block} {t t' : List (Link Block)} {it : ForkItem Block}
  {branch items items' : List (ForkItem Block)} {q q' : List (Link Block)} {c : Id}

theorem climbTo_ok (h : climbTo live n l t = .ok (branch, it)) :
    Spine branch (l :: t) it.path ∧ (∀ x ∈ branch, n < x.num) ∧ it.num ≤ n ∧
      ∀ x ∈ branch ++ [it], x = ⟨l, t⟩ ∨ live x.ref = true := by
  induction t generalizing l branch with
  | nil =>
    rw [climbTo] at h
    split at h
    · cases h
    · next hle =>
      cases h
      exact ⟨rfl, List.forall_mem_nil _, Nat.not_lt.mp hle, fun x hx ↦ .inl (List.mem_singleton.mp hx)⟩
  | cons l' t ih =>
    rw [climbTo] at h
    split at h
    · next hlt =>
      split at h
      · next hlive =>
        split at h
        · cases h
        · next above it' hr =>
          cases h
          obtain ⟨hspine, habove, hle, hlives⟩ := ih hr
          refine ⟨⟨rfl, hspine⟩, List.forall_mem_cons.mpr ⟨hlt, habove⟩, hle, fun x hx ↦ ?_⟩
          rcases List.mem_cons.mp hx with rfl | hx
          · exact .inl rfl
          · rcases hlives x hx with rfl | hx
            · exact .inr hlive
            · exact .inr hx
      · cases h
    · next hle =>
      cases h
      exact ⟨rfl, List.forall_mem_nil _, Nat.not_lt.mp hle, fun x hx ↦ .inl (List.mem_singleton.mp hx)⟩

/-- Climbing down from above ends at the height itself. -/
theorem climbTo_num (hl : Linked (l :: t)) (h : climbTo live n l t = .ok (branch, it))
    (hn : n ≤ num (id l.block)) : it.num = n := by
  obtain ⟨hspine, habove, hle, -⟩ := climbTo_ok h
  refine Nat.le_antisymm hle ?_
  rcases List.eq_nil_or_concat' branch with rfl | ⟨above, x, rfl⟩
  · cases ForkItem.path_injective (show (⟨l, t⟩ : ForkItem Block).path = it.path from hspine)
    exact hn
  · have hx := habove x (List.mem_append_right _ List.mem_cons_self)
    obtain ⟨-, htrail⟩ := Spine.concat.mp hspine
    have hlx := hl.suffix (hspine.suffix (List.mem_append_right _ List.mem_cons_self))
    have hnum := num_of_trail hlx htrail
    omega

theorem suffix_of_climbTo (h : climbTo live n l t = .ok (branch, it)) : it.path <:+ l :: t :=
  ⟨branch.map ForkItem.self, (climbTo_ok h).1.eq_append.symm⟩

theorem climbTo_returns (hs : Spine items (l :: t) q) (hlive : ∀ x ∈ items, live x.ref = true)
    (hn : ∃ x ∈ items, x.num ≤ n) : ∃ branch it rest, climbTo live n l t = .ok (branch, it) ∧
      items = branch ++ rest ∧ rest ≠ [] ∧ Spine rest it.path q := by
  induction items generalizing l t with
  | nil =>
    obtain ⟨x, hx, -⟩ := hn
    cases hx
  | cons x items ih =>
    obtain rfl := Spine.head_eq (show Spine (x :: items) (⟨l, t⟩ : ForkItem Block).path q from hs)
    by_cases hle : num (id l.block) ≤ n
    · have hstop : climbTo live n l t = .ok ([], ⟨l, t⟩) :=
        climbTo_stop (show (⟨l, t⟩ : ForkItem Block).num ≤ n from hle)
      exact ⟨[], ⟨l, t⟩, _, hstop, rfl, List.cons_ne_nil _ _, hs⟩
    · obtain ⟨y, hy, hyn⟩ := hn
      have hbelow : y ∈ items := (List.mem_cons.mp hy).resolve_left (by
        rintro rfl
        exact hle hyn)
      cases items with
      | nil => cases hbelow
      | cons z items =>
        obtain rfl : t = z.self :: z.trail := hs.2.1
        obtain ⟨branch, it, rest, hclimb, hrest, hne, hspine⟩ := ih hs.2
          (fun x hx ↦ hlive x (List.mem_cons_of_mem _ hx)) ⟨y, hbelow, hyn⟩
        have hz : live z.self.ref = true := hlive z (List.mem_cons_of_mem _ List.mem_cons_self)
        refine ⟨⟨l, z.path⟩ :: branch, it, rest, ?_, by rw [hrest]; rfl, hne, hspine⟩
        simp only [climbTo, if_pos (Nat.lt_of_not_le hle), if_pos hz, hclimb]
        rfl

theorem walkFrom_ok (hl : Linked (l :: t))
    (hn : n ≤ num (id l.block)) (hw : walkFrom live n l t = some it) : it.num = n ∧ it.path <:+ l :: t := by
  induction t generalizing l with
  | nil =>
    rw [walkFrom] at hw
    split at hw
    · cases hw
    · next hle =>
      cases hw
      exact ⟨Nat.le_antisymm (Nat.not_lt.mp hle) hn, List.suffix_refl _⟩
  | cons m t ih =>
    rw [walkFrom] at hw
    split at hw
    · next hlt =>
      split at hw
      · have hnum := num_of_trail (y := ⟨m, t⟩) (show Linked (⟨l, m :: t⟩ : ForkItem Block).path from hl) rfl
        change num (id l.block) = num (id m.block) + 1 at hnum
        obtain ⟨heq, hs⟩ := ih (linked_cons.mp hl).2 (by omega) hw
        exact ⟨heq, hs.trans (List.suffix_cons _ _)⟩
      · cases hw
    · next hle =>
      cases hw
      exact ⟨Nat.le_antisymm (Nat.not_lt.mp hle) hn, List.suffix_refl _⟩

theorem mem_fetchBlockByNumber {db : ForkDatabase Block} : it ∈ db.fetchBlockByNumber n ↔ it ∈ db.index ∧ it.num = n := by
  rw [fetchBlockByNumber, List.mem_filter, decide_eq_true_eq]

variable [DecidableEq Id] {first second : List (ForkItem Block)}

theorem climbBoth_same (h : id l.block = id m.block) :
    climbBoth live l t m t' = .ok ([⟨l, t⟩], [⟨m, t'⟩]) := by
  have hprev : previous l.block = previous m.block := congrArg previous (BlockHeader.id_injective h)
  unfold climbBoth
  rw [if_pos hprev]

/-- Branches that differ at their tops differ in all items. -/
theorem climbBoth_ne (hl : Linked (l :: t)) (hm : Linked (m :: t')) (hne : id l.block ≠ id m.block)
    (h : climbBoth live l t m t' = .ok (first, second)) :
    first.getLast?.map ForkItem.id ≠ second.getLast?.map ForkItem.id := by
  induction t generalizing l m t' first second with
  | nil =>
    unfold climbBoth at h
    split at h
    · cases h
      exact fun heq ↦ hne (Option.some.inj heq)
    · cases t' <;> cases h
  | cons l' t ih =>
    unfold climbBoth at h
    split at h
    · cases h
      exact fun heq ↦ hne (Option.some.inj heq)
    · next hprev =>
      cases t' with
      | nil => cases h
      | cons m' t' =>
        simp only at h
        split at h
        · split at h
          · split at h
            · cases h
            · next first' second' hr =>
              cases h
              obtain ⟨hl', hl⟩ := linked_cons.mp hl
              obtain ⟨hm', hm⟩ := linked_cons.mp hm
              have hne' : id l'.block ≠ id m'.block := fun heq ↦ hprev
                ((hl'.resolve_left (List.cons_ne_nil _ _)).trans
                  (heq.trans (hm'.resolve_left (List.cons_ne_nil _ _)).symm))
              obtain ⟨f, s, fl, sl, -, -, rfl, rfl, -⟩ := climbBoth_ok hr
              have hlast := ih hl hm hne' hr
              simpa [List.getLast?_cons] using hlast
          · cases h
        · cases h

theorem climbBoth_returns (hl : Linked (l :: t)) (hm : Linked (m :: t'))
    (hnum : num (id l.block) = num (id m.block)) (hs : Spine items (l :: t) q)
    (hs' : Spine items' (m :: t') q') (hc : EndsAbove items c) (hc' : EndsAbove items' c)
    (hlive : ∀ x ∈ items, live x.ref = true) (hlive' : ∀ x ∈ items', live x.ref = true) :
    ∃ branches, climbBoth live l t m t' = .ok branches := by
  induction items generalizing l t m t' items' with
  | nil => cases hc
  | cons x items ih =>
    cases items' with
    | nil => cases hc'
    | cons y items' =>
      by_cases hprev : previous l.block = previous m.block
      · unfold climbBoth
        exact ⟨_, if_pos hprev⟩
      · have hx := Spine.num_eq (show Linked (⟨l, t⟩ : ForkItem Block).path from hl) hs hc
        have hy := Spine.num_eq (show Linked (⟨m, t'⟩ : ForkItem Block).path from hm) hs' hc'
        have hlen : items.length = items'.length := by
          rw [List.length_cons] at hx hy
          change num (id l.block) = _ at hx
          change num (id m.block) = _ at hy
          omega
        obtain rfl := Spine.head_eq (show Spine (x :: items) (⟨l, t⟩ : ForkItem Block).path q from hs)
        obtain rfl := Spine.head_eq (show Spine (y :: items') (⟨m, t'⟩ : ForkItem Block).path q' from hs')
        cases items with
        | nil =>
          obtain rfl := List.length_eq_zero_iff.mp hlen.symm
          exact absurd ((Option.some.inj hc).trans (Option.some.inj hc').symm) hprev
        | cons x items =>
          cases items' with
          | nil => cases hlen
          | cons y items' =>
            obtain rfl : t = x.self :: x.trail := hs.2.1
            obtain rfl : t' = y.self :: y.trail := hs'.2.1
            have hlt := num_of_trail (y := x) (show Linked (⟨l, x.path⟩ : ForkItem Block).path from hl) rfl
            have hmt := num_of_trail (y := y) (show Linked (⟨m, y.path⟩ : ForkItem Block).path from hm) rfl
            have hxlive : live x.self.ref = true := hlive x (List.mem_cons_of_mem _ List.mem_cons_self)
            have hylive : live y.self.ref = true := hlive' y (List.mem_cons_of_mem _ List.mem_cons_self)
            have hxy : num (id x.self.block) = num (id y.self.block) := by
              change num (id l.block) = num (id x.self.block) + 1 at hlt
              change num (id m.block) = num (id y.self.block) + 1 at hmt
              omega
            obtain ⟨branches, hr⟩ := ih (linked_cons.mp hl).2 (linked_cons.mp hm).2 hxy hs.2 hs'.2
              (by rwa [EndsAbove, List.getLast?_cons_cons] at hc)
              (by rwa [EndsAbove, List.getLast?_cons_cons] at hc')
              (fun x hx ↦ hlive x (List.mem_cons_of_mem _ hx))
              (fun y hy ↦ hlive' y (List.mem_cons_of_mem _ hy))
            unfold climbBoth
            simp only [if_neg hprev, if_pos hxlive, if_pos hylive, hr]
            exact ⟨_, rfl⟩

theorem climbBoth_swap
    (h : climbBoth live l t m t' = .ok (first, second)) : climbBoth live m t' l t = .ok (second, first) := by
  induction t generalizing l m t' first second with
  | nil =>
    unfold climbBoth at h ⊢
    split at h
    · next heq =>
      cases h
      rw [if_pos heq.symm]
    · cases t' <;> cases h
  | cons l' t ih =>
    unfold climbBoth at h ⊢
    split at h
    · next heq =>
      cases h
      rw [if_pos heq.symm]
    · next hne =>
      cases t' with
      | nil => cases h
      | cons m' t' =>
        simp only at h ⊢
        rw [if_neg fun heq ↦ hne heq.symm]
        split at h
        · next hl =>
          split at h
          · next hm =>
            split at h
            · cases h
            · next first' second' hr =>
              cases h
              rw [if_pos hm, if_pos hl, ih hr]
          · cases h
        · cases h

theorem climbBoth_ends (h : climbBoth live l t m t' = .ok (first, second)) :
    ∃ c : Id, EndsAbove first c ∧ EndsAbove second c := by
  obtain ⟨f, s, fl, sl, -, -, rfl, rfl, -, -, -, hprev, -⟩ := climbBoth_ok h
  refine ⟨previous fl.block, ?_, ?_⟩
  · rw [EndsAbove, List.getLast?_concat, Option.map_some]
  · rw [EndsAbove, List.getLast?_concat, Option.map_some, hprev]

end Climbing

section Branches

variable {live : ℕ → Bool} {f f' s s' : ForkItem Block} {above above' : List (ForkItem Block)}

/-- Of the first two loops only the one on the higher block takes a step. -/
theorem climbs_of_le (h : climbTo live s.num f.self f.trail = .ok (above, f'))
    (h' : climbTo live f'.num s.self s.trail = .ok (above', s')) (hl : Linked f.path)
    (hle : s.num ≤ f.num) : f'.num = s.num ∧ above' = [] ∧ s' = s := by
  have hnum : f'.num = s.num := climbTo_num hl h hle
  have hstop := h'.symm.trans (climbTo_stop (Nat.le_of_eq hnum.symm))
  cases hstop
  exact ⟨hnum, rfl, rfl⟩

theorem climbs_of_ge (h : climbTo live s.num f.self f.trail = .ok (above, f'))
    (h' : climbTo live f'.num s.self s.trail = .ok (above', s')) (hl : Linked s.path)
    (hle : f.num ≤ s.num) : above = [] ∧ f' = f ∧ s'.num = f.num := by
  have hstop := h.symm.trans (climbTo_stop hle)
  cases hstop
  exact ⟨rfl, rfl, climbTo_num hl h' hle⟩

theorem EndsAbove.append {items : List (ForkItem Block)} {c : Id} (h : EndsAbove items c)
    (above : List (ForkItem Block)) : EndsAbove (above ++ items) c := by
  obtain ⟨x, hx, -⟩ := Option.map_eq_some_iff.mp h
  rw [EndsAbove, List.getLast?_append, hx, Option.some_or, ← hx]
  exact h

theorem EndsAbove.of_append {items : List (ForkItem Block)} {c : Id} (h : EndsAbove (above ++ items) c)
    (hne : items ≠ []) : EndsAbove items c := by
  rwa [EndsAbove, List.getLast?_append_of_ne_nil _ hne] at h

/-- The items of a branch down to right above an id: each is what the one before points to, and the
database holds all of them. -/
structure Above (db : ForkDatabase Block) (it : ForkItem Block) (items : List (ForkItem Block))
    (c : Id) : Prop where
  chain : ∃ q, Spine items it.path q
  ends : EndsAbove items c
  held : ∀ x ∈ items, db.Holds x

namespace Above

variable {db : ForkDatabase Block} {it : ForkItem Block} {items : List (ForkItem Block)} {c : Id}

theorem num_eq (h : Above db it items c) (hl : Linked it.path) : it.num = num c + items.length :=
  h.chain.elim fun _ hq ↦ hq.num_eq hl h.ends

theorem exists_last (h : Above db it items c) : ∃ x ∈ items, previous x.block = c ∧
    items.getLast? = some x := by
  obtain ⟨x, hx, hprev⟩ := Option.map_eq_some_iff.mp h.ends
  exact ⟨x, List.mem_of_getLast? hx, hprev, hx⟩

theorem ancestor (h : Above db it items c) (hl : Linked it.path) :
    ∀ x ∈ items, Ancestor (BuildsOn Block) it.id x.id := by
  obtain ⟨q, hq⟩ := h.chain
  exact fun x hx ↦ ancestor_of_suffix hl (hq.suffix hx)

/-- All items are higher than what the last one builds on. -/
theorem num_lt (h : Above db it items c) (hl : Linked it.path) : ∀ x ∈ items, num c < x.num := by
  intro x hx
  obtain ⟨q, hq⟩ := h.chain
  obtain ⟨pre, post, rfl⟩ := List.append_of_mem hx
  have hxq : Spine (x :: post) x.path q := hq.of_append
  have hnum := hxq.num_eq (hl.suffix (hq.suffix hx)) (h.ends.of_append (List.cons_ne_nil _ _))
  rw [List.length_cons] at hnum
  omega

end Above

end Branches

end Taiyi.Chain
