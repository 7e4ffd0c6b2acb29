import Mathlib.Data.Finset.Card
import Mathlib.Data.Finset.Image
import Taiyi.Library.IdMap

set_option autoImplicit false

namespace Taiyi.Zones

open Library.IdMap

/-- `E_ZONE_TYPE`. -/
inductive ZoneType
  | xukong | yuanye | hupo | nongtian | lindi | milin | yuanlin | shanyue | dongxue | shilin | qiulin
  | taoyuan | sangyuan | xiagu | zaoze | yaoyuan | haiyang | shamo | huangye | anyuan | duhui | menpai
  | shizhen | guansai | cunzhuang | invalid
  deriving DecidableEq

structure Zone where
  nfaId : ℕ
  type : ZoneType

/-- Who may act for an NFA. -/
structure Rights where
  ownerAccount : ℕ
  activeAccount : ℕ

/-- The zones and NFAs by their ids, the `zone_connect_object`s, and the limits of
`zone_type_connection_max_num_map`. -/
structure State where
  zones : Table Zone
  nfas : Table Rights
  connects : List (ℕ × ℕ) := []
  maxNum : ZoneType → Option ℕ

namespace State

variable (s : State)

/-- `find< zone_object, by_nfa_id >`. -/
def zoneOf (nfa : ℕ) : Option (ℕ × Zone) := s.zones.toList.find? fun r ↦ r.2.nfaId = nfa

/-- What `get_connected_zones` adds to the set it is given. -/
def getConnectedZones (zone : ℕ) (connectedZones : Finset ℕ) : Finset ℕ :=
  let byFrom := s.connects.filter (·.1 = zone)
  let byTo := s.connects.filter (·.2 = zone)
  let connectedZones := byFrom.foldl (fun set c ↦ if c.2 ∈ set then set else insert c.2 set) connectedZones
  byTo.foldl (fun set c ↦ if c.1 ∈ set then set else insert c.1 set) connectedZones

def operates (caller nfa : ℕ) : Option Bool :=
  (s.nfas[nfa]?).map fun n ↦ n.ownerAccount = caller ∨ n.activeAccount = caller

/-- A new `zone_connect_object`. -/
def connect (a b : ℕ) : State := { s with connects := s.connects ++ [(a, b)] }

/-- What a call hands back and the state it leaves. -/
abbrev Result := Except String Unit × State

def connectZones (caller fromNfa toNfa : ℕ) : Result :=
  match s.operates caller fromNfa, s.operates caller toNfa with
  | some operatesFrom, some operatesTo =>
    if !operatesFrom && !operatesTo then (.error "no right to operate the zones", s)
    else
      match s.zoneOf fromNfa, s.zoneOf toNfa with
      | some (a, fromZone), some (b, toZone) =>
        if (a, b) ∈ s.connects then (.error "the connection exists already", s)
        else
          match s.maxNum fromZone.type with
          | none => (.error "out_of_range", s)
          | some fromMax =>
            let connectedZones := s.getConnectedZones a ∅
            if ¬(connectedZones.card < fromMax ∨ b ∈ connectedZones) then
              (.error "the connections have reached the limit", s)
            else
              match s.maxNum toZone.type with
              | none => (.error "out_of_range", s)
              | some toMax =>
                -- the set is cleared, but the zones connected to the second zone are not gathered
                let connectedZones : Finset ℕ := ∅
                if ¬(connectedZones.card < toMax ∨ a ∈ connectedZones) then
                  (.error "the connections have reached the limit", s)
                else (.ok (), s.connect a b)
      | _, _ => (.error "no zone", s)
  | _, _ => (.error "unknown nfa", s)

/-- The zones that are connected to a zone in either direction. -/
def neighbours (zone : ℕ) : Finset ℕ :=
  ((s.connects.filter (·.1 = zone)).map Prod.snd ++ (s.connects.filter (·.2 = zone)).map Prod.fst).toFinset

end State

section Neighbours

variable {s t : State} {zone a b : ℕ}

theorem foldl_insert {l : List (ℕ × ℕ)} (f : ℕ × ℕ → ℕ) (set : Finset ℕ) :
    l.foldl (fun set c ↦ if f c ∈ set then set else insert (f c) set) set = set ∪ (l.map f).toFinset := by
  induction l generalizing set with
  | nil => simp
  | cons c l ih =>
    rw [List.foldl_cons, ih, List.map_cons, List.toFinset_cons]
    split
    · next hmem => rw [Finset.union_insert, Finset.insert_eq_of_mem (Finset.mem_union_left _ hmem)]
    · rw [Finset.insert_union, Finset.union_insert]

theorem getConnectedZones_eq : s.getConnectedZones zone ∅ = s.neighbours zone := by
  rw [State.getConnectedZones, State.neighbours, foldl_insert, foldl_insert, Finset.empty_union,
    List.toFinset_append]

theorem mem_neighbours : b ∈ s.neighbours zone ↔ (zone, b) ∈ s.connects ∨ (b, zone) ∈ s.connects := by
  simp only [State.neighbours, List.mem_toFinset, List.mem_append, List.mem_map, List.mem_filter,
    decide_eq_true_eq, Prod.exists]
  constructor
  · rintro (⟨x, y, ⟨h, rfl⟩, rfl⟩ | ⟨x, y, ⟨h, rfl⟩, rfl⟩)
    · exact .inl h
    · exact .inr h
  · rintro (h | h)
    · exact .inl ⟨zone, b, ⟨h, rfl⟩, rfl⟩
    · exact .inr ⟨b, zone, ⟨h, rfl⟩, rfl⟩

/-- A new connection makes its ends neighbours of each other. -/
theorem neighbours_connect : (s.connect a b).neighbours a = insert b (s.neighbours a) ∧
    (s.connect a b).neighbours b = insert a (s.neighbours b) := by
  constructor
  all_goals
    ext c
    simp only [mem_neighbours, State.connect, Finset.mem_insert, List.mem_append, List.mem_singleton,
      Prod.mk.injEq]
    grind

end Neighbours

namespace State

/-- The state after a call keeps to the limit of a zone of this type: its neighbours have not
grown, or they are no more than the type allows. -/
def KeepsLimit (s t : State) (zone : ℕ) (type : ZoneType) : Prop :=
  t.neighbours zone ⊆ s.neighbours zone ∨
    ∃ max, s.maxNum type = some max ∧ (t.neighbours zone).card ≤ max

/-- A call that succeeds keeps both zones within their limits, and any other leaves the state as
it was. -/
def KeepsLimits (s : State) (caller fromNfa toNfa : ℕ) : Prop :=
  match s.connectZones caller fromNfa toNfa with
  | (.ok (), t) => ∀ a fromZone b toZone, s.zoneOf fromNfa = some (a, fromZone) →
      s.zoneOf toNfa = some (b, toZone) → s.KeepsLimit t a fromZone.type ∧ s.KeepsLimit t b toZone.type
  | (.error _, t) => t = s

/-- The checks a call makes, the limit of the second zone apart. -/
structure Passes (s : State) (caller fromNfa toNfa a : ℕ) (fromZone : Zone) (b : ℕ) (toZone : Zone)
    (toMax : ℕ) : Prop where
  rights : ∃ operatesFrom operatesTo, s.operates caller fromNfa = some operatesFrom ∧
    s.operates caller toNfa = some operatesTo ∧ (operatesFrom || operatesTo) = true
  fromFound : s.zoneOf fromNfa = some (a, fromZone)
  toFound : s.zoneOf toNfa = some (b, toZone)
  fresh : (a, b) ∉ s.connects
  room : ∃ fromMax, s.maxNum fromZone.type = some fromMax ∧
    ((s.neighbours a).card < fromMax ∨ b ∈ s.neighbours a)
  limit : s.maxNum toZone.type = some toMax
  pos : 0 < toMax

end State

section Limits

variable {s : State} {caller fromNfa toNfa a b toMax : ℕ} {fromZone toZone : Zone}

theorem State.Passes.connectZones (h : s.Passes caller fromNfa toNfa a fromZone b toZone toMax) :
    s.connectZones caller fromNfa toNfa = (.ok (), s.connect a b) := by
  obtain ⟨x, y, hx, hy, hxy⟩ := h.rights
  obtain ⟨fromMax, hmax, hroom⟩ := h.room
  have hrights : ¬((!x && !y) = true) := by cases x <;> cases y <;> simp_all
  simp only [State.connectZones, hx, hy, if_neg hrights, h.fromFound, h.toFound, if_neg h.fresh, hmax,
    getConnectedZones_eq, if_neg (not_not.mpr hroom), h.limit]
  rw [if_neg (not_not.mpr (.inl (by simpa using h.pos)))]

/-- A call either passes every check or fails and leaves the state as it was. -/
theorem connectZones_cases (s : State) (caller fromNfa toNfa : ℕ) :
    (∃ a fromZone b toZone toMax, s.Passes caller fromNfa toNfa a fromZone b toZone toMax) ∨
      ∃ e, s.connectZones caller fromNfa toNfa = (.error e, s) := by
  unfold State.connectZones
  split
  case h_2 => exact .inr ⟨_, rfl⟩
  next x y hx hy =>
  split
  · exact .inr ⟨_, rfl⟩
  next hrights =>
  split
  case h_2 => exact .inr ⟨_, rfl⟩
  next a fromZone b toZone hfrom hto =>
  split
  · exact .inr ⟨_, rfl⟩
  next hfresh =>
  split
  · exact .inr ⟨_, rfl⟩
  next fromMax hfromMax =>
  rw [getConnectedZones_eq]
  dsimp only
  split
  · exact .inr ⟨_, rfl⟩
  next hroom =>
  split
  · exact .inr ⟨_, rfl⟩
  next toMax htoMax =>
  split
  · exact .inr ⟨_, rfl⟩
  next hpos =>
  refine .inl ⟨a, fromZone, b, toZone, toMax, ⟨x, y, hx, hy, ?_⟩, hfrom, hto, hfresh,
    ⟨fromMax, hfromMax, not_not.mp hroom⟩, htoMax, ?_⟩
  · cases x <;> cases y <;> simp_all
  · simpa [Nat.pos_iff_ne_zero] using hpos

theorem keepsLimit_of_room (hmax : s.maxNum toZone.type = some toMax)
    (hroom : (s.neighbours a).card < toMax ∨ b ∈ s.neighbours a) {t : State}
    (ht : t.neighbours a = insert b (s.neighbours a)) : s.KeepsLimit t a toZone.type := by
  obtain hlt | hmem := hroom
  · exact .inr ⟨toMax, hmax, by rw [ht]; exact (Finset.card_insert_le _ _).trans hlt⟩
  · exact .inl (by rw [ht, Finset.insert_eq_of_mem hmem])

theorem room_of_keepsLimit (hmax : s.maxNum toZone.type = some toMax) {t : State}
    (ht : t.neighbours a = insert b (s.neighbours a)) (hkeeps : s.KeepsLimit t a toZone.type) :
    (s.neighbours a).card < toMax ∨ b ∈ s.neighbours a := by
  by_cases hmem : b ∈ s.neighbours a
  · exact .inr hmem
  obtain hsub | ⟨max, hmax', hcard⟩ := hkeeps
  · exact .inr (hsub (by rw [ht]; exact Finset.mem_insert_self _ _))
  · rw [hmax] at hmax'
    cases hmax'
    rw [ht, Finset.card_insert_of_notMem hmem] at hcard
    exact .inl hcard

/-- The limits are kept exactly by the calls whose second zone has room for the first or is
connected to it already. -/
theorem connectZones_keepsLimits_iff (s : State) (caller fromNfa toNfa : ℕ) :
    s.KeepsLimits caller fromNfa toNfa ↔ ∀ a fromZone b toZone toMax,
      s.Passes caller fromNfa toNfa a fromZone b toZone toMax →
        (s.neighbours b).card < toMax ∨ a ∈ s.neighbours b := by
  unfold State.KeepsLimits
  constructor
  · intro h a fromZone b toZone toMax hp
    rw [hp.connectZones] at h
    exact room_of_keepsLimit hp.limit neighbours_connect.2 (h a fromZone b toZone hp.fromFound hp.toFound).2
  · intro h
    obtain ⟨a, fromZone, b, toZone, toMax, hp⟩ | ⟨e, he⟩ := connectZones_cases s caller fromNfa toNfa
    · rw [hp.connectZones]
      intro a' fromZone' b' toZone' hfrom hto
      rw [hp.fromFound] at hfrom
      rw [hp.toFound] at hto
      cases hfrom
      cases hto
      obtain ⟨fromMax, hfromMax, hroom⟩ := hp.room
      exact ⟨keepsLimit_of_room hfromMax hroom neighbours_connect.1,
        keepsLimit_of_room hp.limit (h _ _ _ _ _ hp) neighbours_connect.2⟩
    · rw [he]

/-- Three caves of one owner, each of which may be connected to one zone; the last two are. -/
def caves : State where
  zones := ((∅ : Table Zone).insert 1 ⟨11, .dongxue⟩ |>.insert 2 ⟨12, .dongxue⟩).insert 3 ⟨13, .dongxue⟩
  nfas := ((∅ : Table Rights).insert 11 ⟨5, 5⟩ |>.insert 12 ⟨5, 5⟩).insert 13 ⟨5, 5⟩
  connects := [(2, 3)]
  maxNum := fun _ ↦ some 1

theorem caves_exceed : ¬caves.KeepsLimits 5 11 12 := by
  have hp : caves.Passes 5 11 12 1 ⟨11, .dongxue⟩ 2 ⟨12, .dongxue⟩ 1 :=
    { rights := ⟨true, true, by decide +kernel, by decide +kernel, rfl⟩
      fromFound := by rfl
      toFound := by rfl
      fresh := by decide
      room := ⟨1, rfl, .inl (by decide)⟩
      limit := rfl
      pos := Nat.one_pos }
  intro h
  rw [State.KeepsLimits, hp.connectZones] at h
  obtain hlt | hmem := room_of_keepsLimit hp.limit neighbours_connect.2
    (h _ _ _ _ hp.fromFound hp.toFound).2
  · exact absurd hlt (by decide)
  · exact absurd hmem (by decide)

end Limits

end Taiyi.Zones
