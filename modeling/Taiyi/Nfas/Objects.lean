import Mathlib.Algebra.Group.Int.Defs
import Mathlib.Algebra.Group.Nat.Defs
import Taiyi.Library.Descend

set_option autoImplicit false

namespace Taiyi.Nfas

/-- `TAIYI_NULL_ACCOUNT`, `TAIYI_DAO_ACCOUNT`, `TAIYI_DANUO_ACCOUNT` and the first siming have the
ids of their accounts in the genesis. -/
def nullAccount : ℕ := 0

def daoAccount : ℕ := 1

def danuoAccount : ℕ := 2

def initSiming : ℕ := 4

/-- The id of the symbol "nfa.xinsu.mark", the first that the genesis creates. -/
def xinsuMark : ℕ := 0

structure NfaSymbol where
  symbol : String
  authorityAccount : ℕ
  authorityNfaSymbol : Option ℕ := none
  count : ℕ := 0
  maxCount : ℕ
  isSbt : Bool
  deriving DecidableEq

structure Nfa where
  ownerAccount : ℕ
  activeAccount : ℕ
  symbolId : ℕ
  parent : Option ℕ := none
  isActor : Bool := false
  deriving DecidableEq

/-- What is still to be done with a new NFA when its init function returns. -/
inductive Target
  | actor (nfa : ℕ)
  | account (account : ℕ)
  | mark (receiver : ℕ)
  | newActor
  | newZone
  deriving DecidableEq

/-- NFAs and symbols by their ids, which count up from 0, and the creations whose init functions
are running, the innermost first. -/
structure State where
  symbols : List NfaSymbol
  nfas : List Nfa
  creations : List (ℕ × Target) := []
  xinsuCount : ℕ
  deriving DecidableEq

def genesis : State where
  symbols :=
    [{ symbol := "nfa.xinsu.mark", authorityAccount := danuoAccount, count := 1, maxCount := 10000,
        isSbt := true },
      { symbol := "nfa.actor.default", authorityAccount := danuoAccount, maxCount := 1000000000,
        isSbt := false },
      { symbol := "nfa.zone.default", authorityAccount := danuoAccount, maxCount := 1000000000,
        isSbt := false }]
  nfas := [{ ownerAccount := initSiming, activeAccount := danuoAccount, symbolId := xinsuMark }]
  xinsuCount := 1

namespace State

variable (s : State)

def symbolNamed (name : String) : Option ℕ := s.symbols.findIdx? (·.symbol = name)

def hasNfaWithSymbol (account : ℕ) (symbol : Option ℕ) : Bool :=
  s.nfas.any fun n ↦ n.ownerAccount = account ∧ symbol = some n.symbolId

def isXinsu (account : ℕ) : Bool := s.hasNfaWithSymbol account (some xinsuMark)

def modifyNfa (id : ℕ) (f : Nfa → Nfa) : State := { s with nfas := s.nfas.modify id f }

def modifySymbol (id : ℕ) (f : NfaSymbol → NfaSymbol) : State :=
  { s with symbols := s.symbols.modify id f }

/-- The parent of an NFA, if it has one. -/
def parentOf (id : ℕ) : Option ℕ := s.nfas[id]?.bind Nfa.parent

def ownerOf (id : ℕ) : Option ℕ := s.nfas[id]?.map Nfa.ownerAccount

/-- The NFAs of the index `by_parent` under an NFA. -/
def children (id : ℕ) : List ℕ := (List.range s.nfas.length).filter fun i ↦ s.parentOf i = some id

/-- The NFAs of an account, in the order of `by_owner`. -/
def ownedBy (account : ℕ) : List ℕ :=
  (List.range s.nfas.length).filter fun i ↦ s.ownerOf i = some account

end State

def Nfa.setOwner (owner : ℕ) (n : Nfa) : Nfa := { n with ownerAccount := owner }

section Lookup

variable {s : State} {i id account owner : ℕ} {f : Nfa → Nfa}

@[simp] theorem nfas_modifyNfa : (s.modifyNfa id f).nfas[i]? =
    if id = i then s.nfas[i]?.map f else s.nfas[i]? := by
  rw [State.modifyNfa, List.getElem?_modify]
  split <;> cases s.nfas[i]? <;> rfl

@[simp] theorem length_modifyNfa : (s.modifyNfa id f).nfas.length = s.nfas.length :=
  List.length_modify ..

theorem mem_children : i ∈ s.children id ↔ s.parentOf i = some id := by
  rw [State.children, List.mem_filter, List.mem_range, decide_eq_true_iff, and_iff_right_iff_imp]
  intro h
  by_contra hge
  rw [State.parentOf, List.getElem?_eq_none (Nat.le_of_not_lt hge)] at h
  cases h

theorem mem_ownedBy : i ∈ s.ownedBy account ↔ s.ownerOf i = some account := by
  rw [State.ownedBy, List.mem_filter, List.mem_range, decide_eq_true_iff, and_iff_right_iff_imp]
  intro h
  by_contra hge
  rw [State.ownerOf, List.getElem?_eq_none (Nat.le_of_not_lt hge)] at h
  cases h

theorem parentOf_modifyNfa (h : ∀ n, (f n).parent = n.parent) :
    (s.modifyNfa id f).parentOf i = s.parentOf i := by
  rw [State.parentOf, nfas_modifyNfa, State.parentOf]
  split
  · cases s.nfas[i]? with
    | none => rfl
    | some n => exact h n
  · rfl

theorem ownerOf_modifyNfa (h : ∀ n, (f n).ownerAccount = n.ownerAccount) :
    (s.modifyNfa id f).ownerOf i = s.ownerOf i := by
  rw [State.ownerOf, nfas_modifyNfa, State.ownerOf]
  split
  · cases s.nfas[i]? with
    | none => rfl
    | some n => exact congrArg some (h n)
  · rfl

theorem parentOf_modifyNfa_ne (h : i ≠ id) : (s.modifyNfa id f).parentOf i = s.parentOf i := by
  rw [State.parentOf, nfas_modifyNfa, if_neg h.symm, State.parentOf]

theorem ownerOf_modifyNfa_ne (h : i ≠ id) : (s.modifyNfa id f).ownerOf i = s.ownerOf i := by
  rw [State.ownerOf, nfas_modifyNfa, if_neg h.symm, State.ownerOf]

theorem ownerOf_modifyNfa_self (h : ∀ n, (f n).ownerAccount = owner) :
    (s.modifyNfa id f).ownerOf id = (s.ownerOf id).map fun _ ↦ owner := by
  rw [State.ownerOf, nfas_modifyNfa, if_pos rfl, State.ownerOf]
  cases s.nfas[id]? with
  | none => rfl
  | some n => exact congrArg some (h n)

theorem parentOf_modifyNfa_self {n : Nfa} (hn : s.nfas[id]? = some n) :
    (s.modifyNfa id f).parentOf id = (f n).parent := by
  rw [State.parentOf, nfas_modifyNfa, if_pos rfl, hn]
  rfl

theorem parentOf_append {t : State} {n : Nfa} (hn : n.parent = none) (ht : t.nfas = s.nfas ++ [n]) :
    t.parentOf i = s.parentOf i := by
  rw [State.parentOf, State.parentOf, ht]
  rcases Nat.lt_trichotomy i s.nfas.length with hlt | rfl | hgt
  · rw [List.getElem?_append_left hlt]
  · rw [List.getElem?_concat_length, List.getElem?_eq_none (Nat.le_refl _)]
    exact hn
  · rw [List.getElem?_eq_none (by rw [List.length_append, List.length_singleton]; omega),
      List.getElem?_eq_none (by omega)]

theorem ownerOf_append {t : State} {n : Nfa} (ht : t.nfas = s.nfas ++ [n]) {o : ℕ} (h : s.ownerOf i = some o) :
    t.ownerOf i = some o := by
  obtain ⟨m, hm, rfl⟩ := Option.map_eq_some_iff.mp h
  rw [State.ownerOf, ht, List.getElem?_append_left (List.getElem?_eq_some_iff.mp hm).1, hm]
  rfl

theorem parentOf_eq_none (h : ∀ n ∈ s.nfas, n.parent = none) (i : ℕ) : s.parentOf i = none := by
  rw [State.parentOf]
  cases hn : s.nfas[i]? with
  | none => rfl
  | some n => exact h n (List.mem_of_getElem? hn)

theorem hasNfaWithSymbol_iff {symbol : ℕ} : s.hasNfaWithSymbol account (some symbol) = true ↔
    ∃ n ∈ s.nfas, n.ownerAccount = account ∧ n.symbolId = symbol := by
  rw [State.hasNfaWithSymbol, List.any_eq_true]
  refine exists_congr fun n ↦ and_congr_right fun _ ↦ ?_
  rw [decide_eq_true_iff, Option.some_inj, eq_comm (a := symbol)]

end Lookup

end Taiyi.Nfas
