import Mathlib.Algebra.GroupWithZero.Nat
import Mathlib.Algebra.Order.BigOperators.Group.List
import Mathlib.Data.Nat.Find
import Mathlib.Order.Basic

set_option autoImplicit false

namespace Taiyi.Library.Threshold

variable {α β : Type}

/-- Nodes that must reach a threshold with weights of their own and weighted links to names, each
of which stands for a node. -/
structure Graph (α β : Type) where
  threshold : α → ℕ
  own : α → ℕ
  links : α → List (β × ℕ)
  node : β → α

/-- The weight of the links to names with `P`. -/
def linked (P : β → Bool) (links : List (β × ℕ)) : ℕ := ((links.filter (P ·.1)).map Prod.snd).sum

section Linked

variable {P Q : β → Bool} {links : List (β × ℕ)} {link : β × ℕ}

@[simp] theorem linked_nil : linked P [] = 0 := rfl

theorem linked_cons :
    linked P (link :: links) = (if P link.1 then link.2 else 0) + linked P links := by
  unfold linked
  rw [List.filter_cons]
  split <;> simp

theorem linked_mono (h : ∀ link ∈ links, P link.1 = true → Q link.1 = true) :
    linked P links ≤ linked Q links := by
  induction links with
  | nil => exact le_rfl
  | cons link links ih =>
    rw [linked_cons, linked_cons]
    refine Nat.add_le_add ?_ (ih fun l hl ↦ h l (List.mem_cons_of_mem _ hl))
    by_cases hP : P link.1 = true
    · rw [if_pos hP, if_pos (h link List.mem_cons_self hP)]
    · rw [if_neg hP]
      exact Nat.zero_le _

end Linked

namespace Graph

variable (G : Graph α β) (ok : α → Bool) (given : β → Bool)

/-- The threshold of `x` can be reached with derivations of its links that are less than `n` deep
and have nodes with `ok` alone. -/
def derives : ℕ → α → Bool
  | 0, x => ok x && G.threshold x ≤ G.own x + linked given (G.links x)
  | n + 1, x => ok x &&
      G.threshold x ≤ G.own x + linked (fun b ↦ given b || derives n (G.node b)) (G.links x)

/-- A derivation in which no name of `path` is met again. The names of `support` are given or
derived, each without itself. -/
inductive Acyclic : List β → α → Prop
  | intro {path : List β} {x : α} (support : β → Bool)
      (fresh : ∀ b, support b = true → given b = false → b ∉ path)
      (derived : ∀ b, support b = true → given b = false → Acyclic (b :: path) (G.node b))
      (reached : G.threshold x ≤ G.own x + linked support (G.links x)) : Acyclic path x

variable {G ok given} {x : α} {b : β} {n m : ℕ}

theorem derives_iff_zero :
    G.derives ok given 0 x = true ↔
      ok x = true ∧ G.threshold x ≤ G.own x + linked given (G.links x) := by
  rw [derives, Bool.and_eq_true, decide_eq_true_iff]

theorem derives_iff_succ :
    G.derives ok given (n + 1) x = true ↔ ok x = true ∧ G.threshold x ≤
      G.own x + linked (fun b ↦ given b || G.derives ok given n (G.node b)) (G.links x) := by
  rw [derives, Bool.and_eq_true, decide_eq_true_iff]

theorem derives_succ (h : G.derives ok given n x = true) :
    G.derives ok given (n + 1) x = true := by
  induction n generalizing x with
  | zero =>
    obtain ⟨hok, hle⟩ := derives_iff_zero.mp h
    refine derives_iff_succ.mpr ⟨hok, hle.trans (Nat.add_le_add_left (linked_mono ?_) _)⟩
    intro link _ hg
    rw [hg, Bool.true_or]
  | succ n ih =>
    obtain ⟨hok, hle⟩ := derives_iff_succ.mp h
    refine derives_iff_succ.mpr ⟨hok, hle.trans (Nat.add_le_add_left (linked_mono ?_) _)⟩
    intro link _ hg
    rcases Bool.or_eq_true_iff.mp hg with hg | hg
    · rw [hg, Bool.true_or]
    · rw [ih hg, Bool.or_true]

theorem derives_mono (h : G.derives ok given n x = true) (hnm : n ≤ m) :
    G.derives ok given m x = true := by
  induction hnm with
  | refl => exact h
  | step _ ih => exact derives_succ ih

/-- A finite derivation from names that are derivable themselves has some finite depth. -/
theorem derives_of_linked {P : β → Bool}
    (hP : ∀ link ∈ G.links x, P link.1 = true →
      given link.1 = true ∨ ∃ n, G.derives (fun _ ↦ true) given n (G.node link.1) = true)
    (hle : G.threshold x ≤ G.own x + linked P (G.links x)) :
    ∃ n, G.derives (fun _ ↦ true) given n x = true := by
  -- one depth that is enough for every link
  have hdepth (links : List (β × ℕ)) (hlinks : ∀ link ∈ links, P link.1 = true →
      given link.1 = true ∨ ∃ n, G.derives (fun _ ↦ true) given n (G.node link.1) = true) :
      ∃ n, ∀ link ∈ links, P link.1 = true →
        given link.1 = true ∨ G.derives (fun _ ↦ true) given n (G.node link.1) = true := by
    induction links with
    | nil => exact ⟨0, nofun⟩
    | cons link links ih =>
      obtain ⟨n, hn⟩ := ih fun l hl ↦ hlinks l (List.mem_cons_of_mem _ hl)
      have hlink : ∃ k, P link.1 = true →
          given link.1 = true ∨ G.derives (fun _ ↦ true) given k (G.node link.1) = true := by
        by_cases hp : P link.1 = true
        · obtain hg | ⟨k, hk⟩ := hlinks link List.mem_cons_self hp
          · exact ⟨0, fun _ ↦ .inl hg⟩
          · exact ⟨k, fun _ ↦ .inr hk⟩
        · exact ⟨0, fun h ↦ absurd h hp⟩
      obtain ⟨k, hk⟩ := hlink
      refine ⟨max n k, fun l hl hp ↦ ?_⟩
      rcases List.mem_cons.mp hl with rfl | hl
      · exact (hk hp).imp_right fun h ↦ derives_mono h (le_max_right _ _)
      · exact (hn l hl hp).imp_right fun h ↦ derives_mono h (le_max_left _ _)
  obtain ⟨n, hn⟩ := hdepth (G.links x) hP
  refine ⟨n + 1, derives_iff_succ.mpr ⟨rfl, hle.trans (Nat.add_le_add_left (linked_mono ?_) _)⟩⟩
  intro link hlink hp
  exact Bool.or_eq_true_iff.mpr (hn link hlink hp)

/-- A name has a least depth of derivation. -/
theorem exists_least (h : ∃ n, G.derives ok given n x = true) :
    ∃ n, G.derives ok given n x = true ∧ ∀ k < n, ¬G.derives ok given k x = true :=
  ⟨Nat.find h, Nat.find_spec h, fun _ hk ↦ Nat.find_min h hk⟩

/-- Names derived at their least depths do not meet themselves: depths fall along a path, whose
names are not derivable at the depth reached. -/
theorem acyclic_of_derives {path : List β} (h : G.derives (fun _ ↦ true) given n x = true)
    (hpath : ∀ b ∈ path, ∀ k < n, ¬G.derives (fun _ ↦ true) given k (G.node b) = true) :
    G.Acyclic given path x := by
  induction n using Nat.strong_induction_on generalizing x path with
  | h n ih =>
    cases n with
    | zero =>
      exact .intro given (fun b hb hg ↦ by simp [hb] at hg) (fun b hb hg ↦ by simp [hb] at hg)
        (derives_iff_zero.mp h).2
    | succ n =>
      refine .intro (fun b ↦ given b || G.derives (fun _ ↦ true) given n (G.node b)) ?_ ?_
        (derives_iff_succ.mp h).2
      · intro b hb hg hmem
        rw [hg, Bool.false_or] at hb
        exact hpath b hmem n n.lt_succ_self hb
      · intro b hb hg
        rw [hg, Bool.false_or] at hb
        obtain ⟨m, hm, hleast⟩ := exists_least ⟨n, hb⟩
        have hmn : m ≤ n := Nat.le_of_not_lt fun hlt ↦ hleast n hlt hb
        refine ih m (Nat.lt_succ_of_le hmn) hm fun c hc k hk ↦ ?_
        rcases List.mem_cons.mp hc with rfl | hc
        · exact hleast k hk
        · exact hpath c hc k (hk.trans_le (hmn.trans n.le_succ))

theorem acyclic_nil (h : ∃ n, G.derives (fun _ ↦ true) given n x = true) :
    G.Acyclic given [] x :=
  acyclic_of_derives h.choose_spec nofun

theorem acyclic_self (h : ∃ n, G.derives (fun _ ↦ true) given n (G.node b) = true) :
    G.Acyclic given [b] (G.node b) := by
  obtain ⟨n, hn, hleast⟩ := exists_least h
  refine acyclic_of_derives hn fun c hc k hk ↦ ?_
  rw [List.mem_singleton.mp hc]
  exact hleast k hk

end Graph

end Taiyi.Library.Threshold
