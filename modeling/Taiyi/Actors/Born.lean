import Mathlib.Algebra.Order.BigOperators.Group.List
import Taiyi.Library.Attempt
import Taiyi.Library.IdMap
import Taiyi.Library.Words
import Taiyi.Lua.Types

set_option autoImplicit false

namespace Taiyi.Actors

open Library Library.Attempt Library.IdMap Library.Words Lua

/-- The attributes of `actor_core_attributes_object`, in the order of their initial values. -/
inductive CoreAttribute
  | strength | physique | agility | vitality | comprehension | willpower | charm | mood
  deriving DecidableEq

/-- A value and its maximum, both `int16_t`. -/
structure Attribute where
  value : ℤ
  max : ℤ
  deriving DecidableEq

/-- An `actor_core_attributes_object`. -/
abbrev CoreAttributes := CoreAttribute → Attribute

namespace CoreAttribute

/-- All attributes, in the order of their initial values. -/
def all : List CoreAttribute := [strength, physique, agility, vitality, comprehension, willpower, charm, mood]

theorem mem_all (a : CoreAttribute) : a ∈ all := by cases a <;> decide

/-- The place of an attribute among the initial values. -/
def index : CoreAttribute → ℕ
  | strength => 0
  | physique => 1
  | agility => 2
  | vitality => 3
  | comprehension => 4
  | willpower => 5
  | charm => 6
  | mood => 7

theorem map_index_all : all.map index = List.range 8 := by decide

end CoreAttribute

variable {Number Userdata : Type} [LinearOrder Number]

structure Actor where
  name : String
  nfaId : ℕ
  initAttributeAmountMax : ℕ
  amountMax_lt : initAttributeAmountMax < 2 ^ 16
  born : Bool := false
  gender : ℤ := 0
  sexuality : ℤ := 0
  location : Option ℕ := none
  base : Option ℕ := none

/-- Who may act for an NFA. -/
structure Rights where
  ownerAccount : ℕ
  activeAccount : ℕ

structure State where
  actors : Table Actor
  nfas : Table Rights
  zones : Table String
  coreAttributes : Table CoreAttributes
  /-- The gender drawn for an actor for which the call names none. -/
  drawnGender : ℕ → ℤ

namespace State

variable (s : State)

def actorNamed (name : String) : Option (ℕ × Actor) := s.actors.toList.find? fun r ↦ r.2.name = name

def zoneNamed (name : String) : Option (ℕ × String) := s.zones.toList.find? fun r ↦ r.2 = name

def operates (caller nfa : ℕ) : Option Bool :=
  (s.nfas[nfa]?).map fun n ↦ n.ownerAccount = caller ∨ n.activeAccount = caller

def initializeActorAttributes (act : ℕ) (initAttrs : List ℤ) : State :=
  -- the maximum is assigned first, and the value is the maximum
  { s with coreAttributes := s.coreAttributes.insert act fun a ↦
      let max := toSigned 15 (initAttrs.getD a.index 0)
      ⟨max, max⟩ }

/-- `database::born_actor` and the base that the handler sets after it. -/
def bear (act : ℕ) (actor : Actor) (gender sexuality : ℤ) (zone : ℕ) : State :=
  let gender := if gender = 0 then s.drawnGender act else gender
  { s with actors := s.actors.insert act { actor with
      location := some zone, base := some zone, born := true, gender := gender, sexuality := sexuality } }

end State

/-- The initial value at an index, as the code reads it from the table into a `uint16_t`. -/
def initValue (initAttrs : LuaMap Number Userdata) (i : ℕ) : Except String ℤ :=
  match initAttrs.find (.int i) with
  | none => .error "born_actor input invalid init attributes"
  | some (.int v) => .ok (toUnsigned 16 v)
  | some _ => .error "bad type"

/-- `amount += i` in a `uint16_t`. -/
def amountOf (valueList : List ℤ) : ℤ := valueList.foldl (fun amount i ↦ toUnsigned 16 (amount + i)) 0

def State.bornActor (s : State) (caller : ℕ) (name : String) (gender sexuality : ℤ)
    (initAttrs : LuaMap Number Userdata) (zoneName : String) : Except String State :=
  match s.actorNamed name with
  | none => .error "the actor does not exist"
  | some (act, actor) =>
    if actor.born then .error "the actor is already born"
    else
      match s.operates caller actor.nfaId with
      | none => .error "unknown nfa"
      | some false => .error "no right to operate the actor"
      | some true =>
        match s.zoneNamed zoneName with
        | none => .error "the zone does not exist"
        | some (zone, _) =>
          if initAttrs.length ≠ 8 then .error "the number of actor init attributes is not 8"
          else do
            let valueList ← (List.range 8).mapM fun i ↦ initValue initAttrs (i + 1)
            if act ∈ s.coreAttributes then .error "Core attributes should not exist before actor born"
            else if amountOf valueList > actor.initAttributeAmountMax then
              .error "Amount of init attribute values is too large"
            else .ok ((s.initializeActorAttributes act valueList).bear act actor gender sexuality zone)

section Values

variable {initAttrs : LuaMap Number Userdata} {values : CoreAttribute → ℤ}

/-- The table has an integer at the place of every attribute. -/
def Lists (initAttrs : LuaMap Number Userdata) (values : CoreAttribute → ℤ) : Prop :=
  ∀ a, initAttrs.find (.int (a.index + 1)) = some (.int (values a))

/-- The sum of the values, over the integers. -/
def total (values : CoreAttribute → ℤ) : ℤ := (CoreAttribute.all.map values).sum

theorem Lists.unique {values' : CoreAttribute → ℤ} (h : Lists initAttrs values)
    (h' : Lists initAttrs values') : values = values' := by
  funext a
  have ha := (h a).symm.trans (h' a)
  injection ha with ha
  injection ha

/-- The value at every index is read and loses all but 16 bits. -/
theorem Lists.mapM (h : Lists initAttrs values) :
    (List.range 8).mapM (fun i ↦ initValue initAttrs (i + 1)) =
      .ok (CoreAttribute.all.map fun a ↦ toUnsigned 16 (values a)) := by
  rw [← CoreAttribute.map_index_all, List.mapM_map]
  refine mapM_ok fun a _ ↦ ?_
  have ha := h a
  push_cast [Function.comp] 
  rw [initValue, Nat.cast_add, Nat.cast_one, ha]

/-- What the loop accepts is a table of integers. -/
theorem lists_of_mapM {r : List ℤ}
    (h : (List.range 8).mapM (fun i ↦ initValue initAttrs (i + 1)) = .ok r) :
    ∃ values, Lists initAttrs values := by
  have hread (a : CoreAttribute) : ∃ v, initAttrs.find (.int (a.index + 1)) = some (.int v) := by
    have hmem : a.index ∈ List.range 8 := by cases a <;> decide
    obtain ⟨b, hb⟩ := mapM_ok_mem h hmem
    unfold initValue at hb
    push_cast at hb
    split at hb
    · cases hb
    · next v hv => exact ⟨v, hv⟩
    · cases hb
  exact ⟨fun a ↦ (hread a).choose, fun a ↦ (hread a).choose_spec⟩

/-- The amount is the sum, of which 16 bits are left. -/
theorem amountOf_values : amountOf (CoreAttribute.all.map fun a ↦ toUnsigned 16 (values a)) =
    toUnsigned 16 (total values) := by
  have h := foldl_toUnsigned (n := 16) (f := values) (g := fun a ↦ toUnsigned 16 (values a))
    (fun a ↦ Int.emod_emod_of_dvd _ (dvd_refl _)) CoreAttribute.all 0
  rw [zero_add] at h
  rw [amountOf, List.foldl_map]
  exact h

/-- Each attribute gets what a signed and an unsigned field of 16 bits leave of its value. -/
theorem initialize_values (s : State) (act : ℕ) (values : CoreAttribute → ℤ) (a : CoreAttribute) :
    ((s.initializeActorAttributes act (CoreAttribute.all.map fun a ↦ toUnsigned 16 (values a))).coreAttributes[act]?).map
        (· a) =
      some ⟨toSigned 15 (toUnsigned 16 (values a)), toSigned 15 (toUnsigned 16 (values a))⟩ := by
  rw [State.initializeActorAttributes, getElem?_insert, if_pos rfl]
  cases a <;> rfl

end Values

section Budget

variable {s : State} {caller act zone : ℕ} {name zoneName : String} {gender sexuality : ℤ}
  {initAttrs : LuaMap Number Userdata} {actor : Actor} {values : CoreAttribute → ℤ}

/-- The values are eight numbers that fit a field and together stay within the budget, and they are
what the actor is born with. -/
structure Budgeted (s t : State) (name : String) (initAttrs : LuaMap Number Userdata)
    (values : CoreAttribute → ℤ) (act : ℕ) (actor : Actor) : Prop where
  actorNamed : s.actorNamed name = some (act, actor)
  length : initAttrs.length = 8
  lists : Lists initAttrs values
  fits : ∀ a, 0 ≤ values a ∧ values a < 2 ^ 15
  total_le : total values ≤ actor.initAttributeAmountMax
  stored : t.coreAttributes[act]? = some fun a ↦ ⟨values a, values a⟩

/-- A birth that succeeds respects the budget. -/
def State.RespectsBudget (s : State) (caller : ℕ) (name : String) (gender sexuality : ℤ)
    (initAttrs : LuaMap Number Userdata) (zoneName : String) : Prop :=
  ∀ t, s.bornActor caller name gender sexuality initAttrs zoneName = .ok t →
    ∃ values act actor, Budgeted s t name initAttrs values act actor

/-- The checks before a birth, the budget apart. -/
structure State.Passes (s : State) (caller : ℕ) (name : String) (initAttrs : LuaMap Number Userdata)
    (zoneName : String) (act : ℕ) (actor : Actor) (values : CoreAttribute → ℤ) : Prop where
  actorNamed : s.actorNamed name = some (act, actor)
  unborn : actor.born = false
  operates : s.operates caller actor.nfaId = some true
  zoneNamed : (s.zoneNamed zoneName).isSome
  length : initAttrs.length = 8
  lists : Lists initAttrs values
  fresh : act ∉ s.coreAttributes

/-- With the other checks passed, only the amount is compared with the budget. -/
theorem State.Passes.bornActor (h : s.Passes caller name initAttrs zoneName act actor values)
    (gender sexuality : ℤ) :
    ∃ zone, s.bornActor caller name gender sexuality initAttrs zoneName =
      if (actor.initAttributeAmountMax : ℤ) < toUnsigned 16 (total values) then
        .error "Amount of init attribute values is too large"
      else .ok ((s.initializeActorAttributes act
        (CoreAttribute.all.map fun a ↦ toUnsigned 16 (values a))).bear act actor gender sexuality zone) := by
  obtain ⟨⟨zone, zname⟩, hzone⟩ := Option.isSome_iff_exists.mp h.zoneNamed
  refine ⟨zone, ?_⟩
  have hborn : ¬actor.born = true := by simp [h.unborn]
  simp only [State.bornActor, h.actorNamed, if_neg hborn, h.operates, hzone]
  rw [if_neg (not_not.mpr h.length), h.lists.mapM]
  simp only [bind, Except.bind, if_neg h.fresh, amountOf_values, gt_iff_lt]

theorem passes_of_bornActor {t : State}
    (h : s.bornActor caller name gender sexuality initAttrs zoneName = .ok t) :
    ∃ act actor values, s.Passes caller name initAttrs zoneName act actor values := by
  unfold State.bornActor at h
  split at h
  · cases h
  next act actor hactor =>
  split at h
  · cases h
  next hborn =>
  split at h
  · cases h
  · cases h
  next hoperates =>
  split at h
  · cases h
  next zone zname hzone =>
  split at h
  · cases h
  next hlength =>
  cases hread : (List.range 8).mapM fun i ↦ initValue initAttrs (i + 1) with
  | error e => rw [hread] at h; cases h
  | ok r =>
    simp only [hread, bind, Except.bind] at h
    split at h
    · cases h
    next hfresh =>
    obtain ⟨values, hlists⟩ := lists_of_mapM hread
    exact ⟨act, actor, values,
      { actorNamed := hactor
        unborn := by simpa using hborn
        operates := hoperates
        zoneNamed := by rw [hzone]; rfl
        length := not_not.mp hlength
        lists := hlists
        fresh := hfresh }⟩

/-- A birth respects the budget exactly when the sum fails it even in 16 bits, or when the values fit
the fields and their sum fits 16 bits. -/
theorem bornActor_respectsBudget_iff (s : State) (caller : ℕ) (name : String) (gender sexuality : ℤ)
    (initAttrs : LuaMap Number Userdata) (zoneName : String) :
    s.RespectsBudget caller name gender sexuality initAttrs zoneName ↔
      ∀ act actor values, s.Passes caller name initAttrs zoneName act actor values →
        actor.initAttributeAmountMax < toUnsigned 16 (total values) ∨
          (∀ a, 0 ≤ values a ∧ values a < 2 ^ 15) ∧ total values < 2 ^ 16 := by
  constructor
  · intro h act actor values hp
    obtain ⟨zone, hrun⟩ := hp.bornActor gender sexuality
    by_cases hmax : (actor.initAttributeAmountMax : ℤ) < toUnsigned 16 (total values)
    · exact .inl hmax
    rw [if_neg hmax] at hrun
    obtain ⟨values', act', actor', hb⟩ := h _ hrun
    have hactor := hp.actorNamed.symm.trans hb.actorNamed
    simp only [Option.some.injEq, Prod.mk.injEq] at hactor
    obtain ⟨rfl, rfl⟩ := hactor
    obtain rfl := hp.lists.unique hb.lists
    have hlt := actor.amountMax_lt
    have hle := hb.total_le
    exact .inr ⟨hb.fits, by omega⟩
  · intro h t hrun
    obtain ⟨act, actor, values, hp⟩ := passes_of_bornActor hrun
    obtain ⟨zone, hrun'⟩ := hp.bornActor gender sexuality
    rw [hrun] at hrun'
    split at hrun'
    · cases hrun'
    next hmax =>
    cases hrun'
    obtain hover | ⟨hfits, hlt⟩ := h act actor values hp
    · exact absurd hover hmax
    have hnonneg : 0 ≤ total values := List.sum_nonneg (by simpa using fun a _ ↦ (hfits a).1)
    rw [toUnsigned_of_lt hnonneg hlt] at hmax
    refine ⟨values, act, actor, hp.actorNamed, hp.length, hp.lists, hfits, not_lt.mp hmax, ?_⟩
    obtain ⟨attrs, hattrs⟩ : ∃ attrs, (s.initializeActorAttributes act (CoreAttribute.all.map fun a ↦
        toUnsigned 16 (values a))).coreAttributes[act]? = some attrs := by
      rw [State.initializeActorAttributes, getElem?_insert, if_pos rfl]
      exact ⟨_, rfl⟩
    refine hattrs.trans (congrArg some (funext fun a ↦ ?_))
    have hstored := initialize_values s act values a
    rw [hattrs, Option.map_some, Option.some.injEq] at hstored
    obtain ⟨h0, h15⟩ := hfits a
    rw [hstored, toUnsigned_of_lt h0 (by omega), toSigned_of_isSigned ⟨by omega, h15⟩]

/-- An actor of account 5 that is to be born in zone 1 and may have no points at all. -/
def unbornState : State where
  actors := (∅ : Table Actor).insert 3 ⟨"actor", 7, 0, by decide, false, 0, 0, none, none⟩
  nfas := (∅ : Table Rights).insert 7 ⟨5, 5⟩
  zones := (∅ : Table String).insert 1 "zone"
  coreAttributes := ∅
  drawnGender := fun _ ↦ 0

/-- Nothing for any attribute but -1 and 1 for the first two. -/
def opposed : LuaMap ℕ Unit :=
  [(.int 1, .int (-1)), (.int 2, .int 1), (.int 3, .int 0), (.int 4, .int 0), (.int 5, .int 0),
    (.int 6, .int 0), (.int 7, .int 0), (.int 8, .int 0)]

theorem unbornState_exceeds : ¬unbornState.RespectsBudget 5 "actor" 1 1 opposed "zone" := by
  have hp : unbornState.Passes 5 "actor" opposed "zone" 3
      ⟨"actor", 7, 0, by decide, false, 0, 0, none, none⟩
      (fun | .strength => -1 | .physique => 1 | _ => 0) :=
    { actorNamed := by rfl
      unborn := rfl
      operates := by decide +kernel
      zoneNamed := by rfl
      length := rfl
      lists := by intro a; cases a <;> rfl
      fresh := by decide +kernel }
  obtain ⟨zone, hrun⟩ := hp.bornActor 1 1
  rw [if_neg (by decide)] at hrun
  intro h
  obtain ⟨values, act, actor, hb⟩ := h _ hrun
  obtain rfl := hp.lists.unique hb.lists
  exact absurd (hb.fits .strength).1 (by decide)

end Budget

end Taiyi.Actors
