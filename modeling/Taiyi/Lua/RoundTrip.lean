import Taiyi.Lua.Lossless

set_option autoImplicit false

namespace Taiyi.Lua

open Library Library.Attempt

variable {Number Userdata : Type} [LinearOrder Number] {coerce : Coercions Number}
  {next : VmTable Number Userdata → VmTable Number Userdata} {depth : ℕ} {entries acc : VmTable Number Userdata}
  {m : LuaMap Number Userdata} {v : LuaTypes Number Userdata} {stack stack' : List (VmValue Number Userdata)}

/-! The stack after a push. -/

section Length

theorem length_setTable (h : setTable coerce stack = some stack') : stack'.length + 2 = stack.length := by
  unfold setTable at h
  split at h
  · cases h
    rfl
  · cases h

mutual

/-- A push adds one value, less one for each summary of a function in what is pushed. -/
theorem length_pushEntries (es : LuaMap Number Userdata) : ∀ {stack stack' : List (VmValue Number Userdata)},
    pushEntries coerce stack es = some stack' → stack'.length + summaries es = stack.length := by
  intro stack stack' h
  match es with
  | [] =>
    rw [pushEntries] at h
    cases h
    rw [summaries]
    rfl
  | e :: es =>
    rw [pushEntries] at h
    obtain ⟨stack₁, h₁, h⟩ := Option.bind_eq_some_iff.mp h
    obtain ⟨stack₂, h₂, h⟩ := Option.bind_eq_some_iff.mp h
    have hentry := length_pushEntry e h₁
    have hset := length_setTable h₂
    have hrest := length_pushEntries es h
    rw [summaries]
    omega
  termination_by structural es

theorem length_pushEntry (e : LuaKey Number × LuaTypes Number Userdata) :
    ∀ {stack stack' : List (VmValue Number Userdata)},
      pushEntry coerce stack e = some stack' → stack'.length + entrySummaries e = stack.length + 2 := by
  intro stack stack' h
  match e with
  | (k, v) =>
    rw [pushEntry] at h
    rw [entrySummaries]
    have hvalue := length_pushTypes v h
    rw [List.length_cons] at hvalue
    omega
  termination_by structural e

theorem length_pushTypes (v : LuaTypes Number Userdata) : ∀ {stack stack' : List (VmValue Number Userdata)},
    pushTypes coerce stack v = some stack' → stack'.length + valueSummaries v = stack.length + 1 := by
  intro stack stack' h
  match v with
  | .table m =>
    rw [pushTypes] at h
    rw [valueSummaries]
    have hentries := length_pushEntries m h
    rw [List.length_cons] at hentries
    omega
  | .function _ _ =>
    rw [pushTypes] at h
    cases h
    rw [valueSummaries]
  | .int _ | .number _ | .string _ | .bool _ | .userdata _ =>
    rw [pushTypes] at h
    cases h
    rw [valueSummaries]
    rfl
  termination_by structural v

end

end Length

/-! Maps without summaries. -/

section Push

theorem setEntry_new {k : VmKey Number} {w : VmValue Number Userdata} (h : ∀ e ∈ entries, e.1 ≠ k) :
    setEntry k w entries = entries ++ [(k, w)] := by
  induction entries with
  | nil => rfl
  | cons e entries ih =>
    rw [setEntry, if_neg fun hk ↦ h e List.mem_cons_self hk.1, ih fun e' he' ↦ h e' (List.mem_cons_of_mem _ he')]
    rfl

/-- An entry of the VM that an entry of a map is pushed as. -/
def Pushed (coerce : Coercions Number) (e : LuaKey Number × LuaTypes Number Userdata)
    (e' : VmKey Number × VmValue Number Userdata) : Prop :=
  Fractional coerce e.1 ∧ e'.1 = e.1.vmKey ∧ ∀ stack, pushTypes coerce stack e.2 = some (e'.2 :: stack)

theorem pushEntries_of_pushed {es : LuaMap Number Userdata} {es' : VmTable Number Userdata}
    (h : List.Forall₂ (Pushed coerce) es es') (hnodup : (acc ++ es').Pairwise fun e e' ↦ e.1 ≠ e'.1) :
    pushEntries coerce (.table acc :: stack) es = some (.table (acc ++ es') :: stack) := by
  induction h generalizing acc with
  | nil =>
    rw [pushEntries, List.append_nil]
  | @cons e e' es es' hentry _ ih =>
    obtain ⟨k, v⟩ := e
    obtain ⟨key, w⟩ := e'
    obtain ⟨hfractional, rfl, hpush⟩ := hentry
    have hnew : ∀ e ∈ acc, e.1 ≠ k.vmKey := fun e he ↦
      (List.pairwise_append.mp hnodup).2.2 e he _ List.mem_cons_self
    have hset : setTable coerce (w :: pushKey k :: .table acc :: stack) =
        some (.table (acc ++ [(k.vmKey, w)]) :: stack) := by
      rw [setTable, VmKey.ofValue_of_fractional hfractional, setEntry_new hnew]
    rw [pushEntries, pushEntry, hpush]
    simp only [Option.bind_eq_bind, Option.bind_some, hset]
    refine (ih ?_).trans ?_
    · rw [List.append_assoc]
      exact hnodup
    · rw [List.append_assoc]
      rfl

omit [LinearOrder Number] in
theorem exists_forall₂ {α β : Type} {R : α → β → Prop} {l : List α} (h : ∀ a ∈ l, ∃ b, R a b) :
    ∃ l', List.Forall₂ R l l' := by
  induction l with
  | nil => exact ⟨[], .nil⟩
  | cons a l ih =>
    obtain ⟨b, hb⟩ := h a List.mem_cons_self
    obtain ⟨l', hl'⟩ := ih fun a' ha' ↦ h a' (List.mem_cons_of_mem _ ha')
    exact ⟨b :: l', .cons hb hl'⟩

/-- What is pushed as one value, which is read back. -/
def RoundTrips (coerce : Coercions Number) (depth : ℕ) (v : LuaTypes Number Userdata) (w : VmValue Number Userdata) :
    Prop :=
  (∀ stack, pushTypes coerce stack v = some (w :: stack)) ∧
    ∀ next : VmTable Number Userdata → VmTable Number Userdata, (∀ es, (next es).Perm es) →
      w.readTypes coerce (readMap coerce next depth) = some v

theorem roundTrips_value (hnumber : ∀ x, v = .number x → coerce.toInteger x = none) (hsummaries : valueSummaries v = 0)
    (htable : ∀ t, v = .table t → ∃ es,
      (∀ stack : List (VmValue Number Userdata), pushEntries coerce (.table [] :: stack) t = some (.table es :: stack)) ∧
      ∀ next : VmTable Number Userdata → VmTable Number Userdata, (∀ es, (next es).Perm es) →
        readMap coerce next depth es = some t) :
    ∃ w, RoundTrips coerce depth v w := by
  cases v with
  | int n => exact ⟨.int n, fun _ ↦ by rw [pushTypes], fun _ _ ↦ rfl⟩
  | number x =>
    refine ⟨.float x, fun _ ↦ by rw [pushTypes], fun _ _ ↦ ?_⟩
    simp [VmValue.readTypes, VmValue.readInt, VmValue.readNumber, hnumber x rfl]
  | string s => exact ⟨.string s, fun _ ↦ by rw [pushTypes], fun _ _ ↦ rfl⟩
  | bool b => exact ⟨.bool b, fun _ ↦ by rw [pushTypes], fun _ _ ↦ rfl⟩
  | table t =>
    obtain ⟨es, hpush, hread⟩ := htable t rfl
    refine ⟨.table es, fun stack ↦ ?_, fun next hnext ↦ ?_⟩
    · rw [pushTypes]
      exact hpush stack
    · simp [VmValue.readTypes, VmValue.readInt, VmValue.readNumber, VmValue.readString, VmValue.readBool,
        hread next hnext]
  | function isVarArg arglist =>
    rw [valueSummaries] at hsummaries
    cases hsummaries
  | userdata u => exact ⟨.userdata u, fun _ ↦ by rw [pushTypes], fun _ _ ↦ rfl⟩

/-- A map without summaries that can be stored is pushed as one table, which is read as that map again. -/
theorem roundTrip (h : Storable coerce depth m) (hsummaries : summaries m = 0) :
    ∃ es, (∀ stack : List (VmValue Number Userdata),
        pushEntries coerce (.table [] :: stack) m = some (.table es :: stack)) ∧
      ∀ next : VmTable Number Userdata → VmTable Number Userdata, (∀ es, (next es).Perm es) →
        readMap coerce next depth es = some m := by
  induction depth generalizing m with
  | zero => exact h.elim
  | succ depth ih =>
    obtain ⟨hsorted, hentries⟩ := h
    have hvalues : ∀ e ∈ m, ∃ e' : VmKey Number × VmValue Number Userdata,
        Fractional coerce e.1 ∧ e'.1 = e.1.vmKey ∧ RoundTrips coerce depth e.2 e'.2 := by
      intro e he
      obtain ⟨hkey, hnumber, htable⟩ := hentries e he
      have hzero := valueSummaries_of_mem hsummaries he
      obtain ⟨w, hw⟩ := roundTrips_value hnumber hzero fun t ht ↦ ih (htable t ht) (by
        rw [ht, valueSummaries] at hzero
        exact hzero)
      exact ⟨(e.1.vmKey, w), hkey, rfl, hw⟩
    obtain ⟨es, hall⟩ := exists_forall₂ hvalues
    have hpushed : List.Forall₂ (Pushed coerce) m es := hall.imp fun _ _ h ↦ ⟨h.1, h.2.1, h.2.2.1⟩
    refine ⟨es, fun stack ↦ ?_, fun next hnext ↦ ?_⟩
    · -- keys that differ in the map differ in the VM
      have hkeys : es.map Prod.fst = m.map fun e ↦ e.1.vmKey := by
        clear hsorted hentries hvalues hpushed ih hsummaries
        induction hall with
        | nil => rfl
        | cons h _ ih => rw [List.map_cons, List.map_cons, ih, h.2.1]
      have hnodup : es.Pairwise fun e e' ↦ e.1 ≠ e'.1 := by
        rw [← List.pairwise_map (R := (· ≠ ·)), hkeys, List.pairwise_map]
        refine List.Pairwise.imp (fun hlt heq ↦ ?_) hsorted
        rw [LuaKey.vmKey_injective heq] at hlt
        exact LuaKey.lt_irrefl _ hlt
      exact pushEntries_of_pushed hpushed hnodup
    · have hread : es.mapM (readEntry coerce next depth) = some m := by
        have hentry : List.Forall₂ (fun e e' ↦ readEntry coerce next depth e' = some e) m es := hall.imp fun e e' h ↦ by
          rw [readEntry_eq_some, h.2.1]
          exact ⟨VmKey.read_of_fractional h.1, h.2.2.2 next hnext⟩
        exact mapM_some_iff.mpr hentry.flip
      obtain ⟨l, hperm, hmap⟩ := readMap_of_entries hnext hread
      rw [hmap, fill, OrderedMap.fill_of_perm hsorted hperm]

end Push

/-- The keys of a map are told apart by their order and by their equality alike, except the Booleans;
a table is read with one entry for each key, unless both Booleans are keys; and what was read is pushed
as one value, and read back, just if there is no summary of a function in it. -/
theorem conversion_lossless_iff (coerce : Coercions Number) (next next' : VmTable Number Userdata → VmTable Number Userdata)
    (hnext : ∀ es, (next es).Perm es) (hnext' : ∀ es, (next' es).Perm es) :
    IsStrictWeakOrder (LuaKey Number) (fun a b ↦ LuaKey.lt a b = true) ∧
    (∀ a b : LuaKey Number, OrderedMap.equiv LuaKey.lt a b = LuaKey.eq a b ↔ ¬∃ p q, a = .bool p ∧ b = .bool q) ∧
    (∀ (depth : ℕ) (entries : VmTable Number Userdata), WellFormed coerce entries → (∀ e ∈ entries, e.1 ≠ .object) →
      (∀ e ∈ entries, (e.2.readTypes coerce (readMap coerce next depth)).isSome) →
      ∃ m l, readMap coerce next (depth + 1) entries = some m ∧ entries.mapM (readEntry coerce next depth) = some l ∧
        (m.Perm l ↔ ¬BothBools entries)) ∧
    ∀ (v : VmValue Number Userdata) (m : LuaMap Number Userdata), readLuaMap coerce next v = some m →
      ∀ stack, (∃ w, pushLuaMap coerce stack m = some (w :: stack) ∧ readLuaMap coerce next' w = some m) ↔
        summaries m = 0 := by
  refine ⟨inferInstance, LuaKey.equiv_eq_iff, fun depth entries hw hkeys hvalues ↦ readMap_keeps_iff hnext hw hkeys hvalues, ?_⟩
  intro v m hread stack
  constructor
  · rintro ⟨w, hpush, -⟩
    have hlength := length_pushEntries m hpush
    rw [List.length_cons, List.length_cons] at hlength
    omega
  · intro hsummaries
    have hstorable : Storable coerce maxReaderReadDepth m := by
      cases v with
      | table entries => exact storable_of_readMap hread
      | int | float | string | bool | function | userdata | other => cases hread
    obtain ⟨es, hpush, hback⟩ := roundTrip hstorable hsummaries
    exact ⟨.table es, hpush stack, hback next' hnext'⟩

/-- Numbers that are all integers, for the examples below. -/
def wholeNumbers : Coercions ℤ := ⟨some, id, toString, toString⟩

theorem conversion_lossless_iff_nested :
    ∃ w, pushLuaMap wholeNumbers [.other] ([(.int 1, .table [(.bool true, .int 1)]), (.int 2, .userdata ())] : LuaMap ℤ Unit) =
        some (w :: [.other]) ∧
      readLuaMap wholeNumbers id w = some [(.int 1, .table [(.bool true, .int 1)]), (.int 2, .userdata ())] := by
  have hread : readLuaMap wholeNumbers List.reverse
      (.table [(.int 1, .table [(.bool true, .int 1)]), (.int 2, .userdata ())] : VmValue ℤ Unit) =
        some [(.int 1, .table [(.bool true, .int 1)]), (.int 2, .userdata ())] := rfl
  exact ((conversion_lossless_iff wholeNumbers List.reverse id List.reverse_perm fun _ ↦ .refl _).2.2.2 _ _ hread
    [.other]).mpr rfl

/-- Two Boolean keys are read as one, which is not even equal to itself, and a map with a summary takes
a value off the stack. -/
theorem conversion_not_lossless :
    readLuaMap wholeNumbers id (.table [(.bool true, .int 1), (.bool false, .int 2)] : VmValue ℤ Unit) =
        some [(.bool true, .int 1)] ∧
      LuaKey.eq (.bool true : LuaKey ℤ) (.bool true) = false ∧
      pushLuaMap wholeNumbers [.table []] ([(.string "f", .function false ["x"])] : LuaMap ℤ Unit) =
        some [.table [(.object, .string "f")]] :=
  ⟨rfl, rfl, rfl⟩

end Taiyi.Lua
