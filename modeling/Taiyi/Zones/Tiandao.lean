import Mathlib.Data.Int.Notation
import Mathlib.Data.Nat.Notation
import Mathlib.Tactic.Common

set_option autoImplicit false

namespace Taiyi.Zones.Tiandao

def taiyiVdayBlockNum : ℕ := 1200

def taiyiDanuoAccount : String := "taiyi.danuo"

/-- What `get_year`, `get_month`, `get_day` and `get_term().get_index()` give. -/
structure SolarDay where
  year : ℕ
  month : ℕ
  day : ℕ
  term : ℕ
  deriving DecidableEq

/-- A later day of the month, or the first day of the next month or year. -/
def SolarDay.Next (a b : SolarDay) : Prop :=
  b.year = a.year ∧ b.month = a.month ∧ a.day < b.day ∨
    b.year = a.year ∧ b.month = a.month + 1 ∧ b.day = 1 ∨
    b.year = a.year + 1 ∧ b.month = 1 ∧ b.day = 1

/-- The calendar: the solar days that follow the first day of the year 2. -/
structure Calendar where
  solarDay : ℕ → SolarDay
  first : (solarDay 0).year = 2 ∧ (solarDay 0).month = 1 ∧ (solarDay 0).day = 1
  next : ∀ days, (solarDay days).Next (solarDay (days + 1))
  term_lt : ∀ days, (solarDay days).term < 24
  term_next : ∀ days, (solarDay (days + 1)).term = (solarDay days).term ∨
    (solarDay (days + 1)).term = ((solarDay days).term + 1) % 24

inductive Operation
  | yearChange (messager : String) (years months times liveNum deadNum : ℕ)
  | monthChange (messager : String) (years months times : ℕ)
  | timeChange (messager : String) (years months times : ℕ)
  deriving DecidableEq

/-- The fields of the `tiandao_property_object` that hold the virtual time, as they are at the
genesis, and the numbers of actors. -/
structure Properties where
  vYears : ℕ := 0
  vMonths : ℕ := 0
  vDays : ℕ := 0
  vTimeonday : ℕ := 0
  vTimes : ℕ := 0
  amountActorLastVyear : ℕ := 0
  deadActorLastVyear : ℕ := 0
  deriving DecidableEq

/-- The loop over the actors by their health, the highest first. -/
def liveNum : List ℤ → ℕ
  | [] => 0
  | health :: rest => if health ≤ 0 then 0 else liveNum rest + 1

def processTiandao (c : Calendar) (headBlockNum : ℕ) (byHealth : List ℤ) (tiandao : Properties) :
    Except String (Properties × List Operation) :=
  let days := headBlockNum / taiyiVdayBlockNum
  let sday := c.solarDay days
  let yn := sday.year - 1
  let mn := sday.month
  let dn := sday.day
  let tod := headBlockNum / (taiyiVdayBlockNum / 4) % 4
  let tn := (sday.term + 21) % 24
  if ¬tiandao.vYears ≤ yn then .error "virtual year number bigger than now"
  else if yn > tiandao.vYears then
    if mn ≠ 1 then .error "start virtual month number must be 1!"
    else
      let amountActor := byHealth.length
      let deadNum := amountActor - liveNum byHealth
      .ok (⟨yn, mn, dn, tod, tn, amountActor, deadNum⟩,
        [.yearChange taiyiDanuoAccount yn mn tn (liveNum byHealth) deadNum,
          .monthChange taiyiDanuoAccount yn mn tn, .timeChange taiyiDanuoAccount yn mn tn])
  else if ¬tiandao.vMonths ≤ mn then .error "virtual month number bigger than now"
  else if mn > tiandao.vMonths then
    if dn ≠ 1 then .error "start virtual day number must be 1!"
    else .ok ({ tiandao with vMonths := mn, vDays := dn, vTimeonday := tod, vTimes := tn },
      [.monthChange taiyiDanuoAccount yn mn tn, .timeChange taiyiDanuoAccount yn mn tn])
  else if tn > tiandao.vTimes then
    .ok ({ tiandao with vDays := dn, vTimeonday := tod, vTimes := tn },
      [.timeChange taiyiDanuoAccount yn mn tn])
  else if ¬tiandao.vDays ≤ dn then .error "virtual day number bigger than now"
  else if dn > tiandao.vDays then
    if tod ≠ 0 then .error "virtual time on day number must be zero!"
    else .ok ({ tiandao with vDays := dn, vTimeonday := tod }, [])
  else .ok ({ tiandao with vTimeonday := tod }, [])

/-- The properties after the blocks from the first one on, with any actors at each of them. -/
def properties (c : Calendar) (byHealth : ℕ → List ℤ) : ℕ → Except String Properties
  | 0 => .ok {}
  | n + 1 => do
    let (tiandao, _) ← processTiandao c (n + 1) (byHealth (n + 1)) (← properties c byHealth n)
    pure tiandao

/-- The quarter of the virtual day at a block. -/
def timeonday (headBlockNum : ℕ) : ℕ := headBlockNum / (taiyiVdayBlockNum / 4) % 4

namespace Calendar

variable (c : Calendar)

/-- The virtual time at a block. -/
def years (headBlockNum : ℕ) : ℕ := (c.solarDay (headBlockNum / taiyiVdayBlockNum)).year - 1

def months (headBlockNum : ℕ) : ℕ := (c.solarDay (headBlockNum / taiyiVdayBlockNum)).month

def days (headBlockNum : ℕ) : ℕ := (c.solarDay (headBlockNum / taiyiVdayBlockNum)).day

/-- The solar term, with the numbers moved by 21. -/
def times (headBlockNum : ℕ) : ℕ := ((c.solarDay (headBlockNum / taiyiVdayBlockNum)).term + 21) % 24

def SameMonth (m n : ℕ) : Prop := c.years m = c.years n ∧ c.months m = c.months n

instance (m n : ℕ) : Decidable (c.SameMonth m n) := inferInstanceAs (Decidable (_ ∧ _))

/-- The term went from 23 to 0 at a block of the month so far. -/
def Wrapped (n : ℕ) : Prop := ∃ m < n, c.SameMonth m n ∧ c.times m = 23 ∧ c.times (m + 1) = 0

/-- The blocks at which the term is announced: the first one, the first of a month or year, and
those at which it changes. -/
def Announced (n : ℕ) : Prop := n = 0 ∨ ¬c.SameMonth n (n + 1) ∨ c.times (n + 1) ≠ c.times n

instance (n : ℕ) : Decidable (c.Announced n) := inferInstanceAs (Decidable (_ ∨ _ ∨ _))

end Calendar

/-- The properties have the time of a block, but for the term. -/
structure Stores (c : Calendar) (n : ℕ) (tiandao : Properties) : Prop where
  years : tiandao.vYears = c.years n
  months : tiandao.vMonths = c.months n
  days : tiandao.vDays = c.days n
  timeonday : tiandao.vTimeonday = Tiandao.timeonday n

def isTimeChange : Operation → Bool
  | .timeChange .. => true
  | _ => false

section Advance

variable {c : Calendar} {n : ℕ}

theorem two_le_year (c : Calendar) (days : ℕ) : 2 ≤ (c.solarDay days).year := by
  induction days with
  | zero => exact Nat.le_of_eq c.first.1.symm
  | succ days ih =>
    have h := c.next days
    unfold SolarDay.Next at h
    omega

/-- What changes from a block to the next one: only the time on the day, or the day, the month or
the year. -/
theorem advance (c : Calendar) (n : ℕ) :
    (c.years (n + 1) = c.years n ∧ c.months (n + 1) = c.months n ∧ c.days (n + 1) = c.days n ∧
        c.times (n + 1) = c.times n) ∨
      (Tiandao.timeonday (n + 1) = 0 ∧
        (c.years (n + 1) = c.years n ∧ c.months (n + 1) = c.months n ∧ c.days n < c.days (n + 1) ∨
          c.years (n + 1) = c.years n ∧ c.months (n + 1) = c.months n + 1 ∧ c.days (n + 1) = 1 ∨
          c.years (n + 1) = c.years n + 1 ∧ c.months (n + 1) = 1 ∧ c.days (n + 1) = 1) ∧
        (c.times (n + 1) = c.times n ∨ c.times (n + 1) = c.times n + 1 ∨
          c.times n = 23 ∧ c.times (n + 1) = 0)) := by
  have hday : (n + 1) / 1200 = n / 1200 ∨ (n + 1) / 1200 = n / 1200 + 1 ∧ (n + 1) / 300 % 4 = 0 := by
    omega
  unfold Calendar.years Calendar.months Calendar.days Calendar.times timeonday taiyiVdayBlockNum
  rcases hday with hday | ⟨hday, htod⟩
  · rw [hday]
    exact .inl ⟨rfl, rfl, rfl, rfl⟩
  · rw [hday]
    refine .inr ⟨htod, ?_, ?_⟩
    · have hnext := c.next (n / 1200)
      have hyear := two_le_year c (n / 1200)
      unfold SolarDay.Next at hnext
      clear hday htod
      omega
    · have hterm := c.term_next (n / 1200)
      have hlt := c.term_lt (n / 1200)
      clear hday htod
      omega

theorem processTiandao_year {tiandao : Properties} (byHealth : List ℤ) (hy : tiandao.vYears < c.years n)
    (hm : c.months n = 1) :
    ∃ tiandao' ops, processTiandao c n byHealth tiandao = .ok (tiandao', ops) ∧ Stores c n tiandao' ∧
      tiandao'.vTimes = c.times n ∧ ops.filter isTimeChange =
        [.timeChange taiyiDanuoAccount (c.years n) (c.months n) (c.times n)] := by
  have hok : processTiandao c n byHealth tiandao = .ok
      (⟨c.years n, c.months n, c.days n, timeonday n, c.times n, byHealth.length,
        byHealth.length - liveNum byHealth⟩,
      [.yearChange taiyiDanuoAccount (c.years n) (c.months n) (c.times n) (liveNum byHealth)
          (byHealth.length - liveNum byHealth),
        .monthChange taiyiDanuoAccount (c.years n) (c.months n) (c.times n),
        .timeChange taiyiDanuoAccount (c.years n) (c.months n) (c.times n)]) := by
    change (if ¬tiandao.vYears ≤ c.years n then _ else if c.years n > tiandao.vYears then
      if c.months n ≠ 1 then _ else _ else _) = _
    rw [if_neg (not_not_intro (Nat.le_of_lt hy)), if_pos hy, if_neg (not_not_intro hm)]
    rfl
  exact ⟨_, _, hok, ⟨rfl, rfl, rfl, rfl⟩, rfl, rfl⟩

theorem processTiandao_month {tiandao : Properties} (byHealth : List ℤ) (hy : tiandao.vYears = c.years n)
    (hm : tiandao.vMonths < c.months n) (hd : c.days n = 1) :
    ∃ tiandao' ops, processTiandao c n byHealth tiandao = .ok (tiandao', ops) ∧ Stores c n tiandao' ∧
      tiandao'.vTimes = c.times n ∧ ops.filter isTimeChange =
        [.timeChange taiyiDanuoAccount (c.years n) (c.months n) (c.times n)] := by
  have hok : processTiandao c n byHealth tiandao = .ok
      ({ tiandao with
        vMonths := c.months n, vDays := c.days n, vTimeonday := timeonday n, vTimes := c.times n },
      [.monthChange taiyiDanuoAccount (c.years n) (c.months n) (c.times n),
        .timeChange taiyiDanuoAccount (c.years n) (c.months n) (c.times n)]) := by
    change (if ¬tiandao.vYears ≤ c.years n then _ else if c.years n > tiandao.vYears then _ else
      if ¬tiandao.vMonths ≤ c.months n then _ else if c.months n > tiandao.vMonths then
        if c.days n ≠ 1 then _ else _ else _) = _
    rw [if_neg (not_not_intro (Nat.le_of_eq hy)), if_neg (Nat.not_lt_of_le (Nat.le_of_eq hy.symm)), if_neg (not_not_intro (Nat.le_of_lt hm)), if_pos hm,
      if_neg (not_not_intro hd)]
    rfl
  exact ⟨_, _, hok, ⟨hy, rfl, rfl, rfl⟩, rfl, rfl⟩

/-- In a month the term is announced if it is above the stored one. -/
theorem processTiandao_day {tiandao : Properties} (byHealth : List ℤ) (hy : tiandao.vYears = c.years n)
    (hm : tiandao.vMonths = c.months n)
    (hd : tiandao.vDays = c.days n ∨ tiandao.vDays < c.days n ∧ timeonday n = 0) :
    ∃ tiandao' ops, processTiandao c n byHealth tiandao = .ok (tiandao', ops) ∧ Stores c n tiandao' ∧
      tiandao'.vTimes = max tiandao.vTimes (c.times n) ∧ ops.filter isTimeChange =
        if c.times n ≤ tiandao.vTimes then []
        else [.timeChange taiyiDanuoAccount (c.years n) (c.months n) (c.times n)] := by
  have hle : tiandao.vDays ≤ c.days n := by omega
  have hmonth : processTiandao c n byHealth tiandao =
      if c.times n > tiandao.vTimes then
        .ok ({ tiandao with vDays := c.days n, vTimeonday := timeonday n, vTimes := c.times n },
          [.timeChange taiyiDanuoAccount (c.years n) (c.months n) (c.times n)])
      else if ¬tiandao.vDays ≤ c.days n then .error "virtual day number bigger than now"
      else if c.days n > tiandao.vDays then
        if timeonday n ≠ 0 then .error "virtual time on day number must be zero!"
        else .ok ({ tiandao with vDays := c.days n, vTimeonday := timeonday n }, [])
      else .ok ({ tiandao with vTimeonday := timeonday n }, []) := by
    change (if ¬tiandao.vYears ≤ c.years n then _ else if c.years n > tiandao.vYears then _ else
      if ¬tiandao.vMonths ≤ c.months n then _ else if c.months n > tiandao.vMonths then _ else _) = _
    rw [if_neg (not_not_intro (Nat.le_of_eq hy)), if_neg (Nat.not_lt_of_le (Nat.le_of_eq hy.symm)), if_neg (not_not_intro (Nat.le_of_eq hm)), if_neg (Nat.not_lt_of_le (Nat.le_of_eq hm.symm))]
    rfl
  by_cases ht : c.times n ≤ tiandao.vTimes
  · rw [Nat.max_eq_left ht, if_pos ht]
    by_cases hlt : tiandao.vDays < c.days n
    · have htod : timeonday n = 0 := by omega
      have hok : processTiandao c n byHealth tiandao =
          .ok ({ tiandao with vDays := c.days n, vTimeonday := timeonday n }, []) := by
        rw [hmonth, if_neg (Nat.not_lt_of_le ht), if_neg (not_not_intro hle), if_pos hlt,
          if_neg (not_not_intro htod)]
      exact ⟨_, _, hok, ⟨hy, hm, rfl, rfl⟩, rfl, rfl⟩
    · have hok : processTiandao c n byHealth tiandao = .ok ({ tiandao with vTimeonday := timeonday n }, []) := by
        rw [hmonth, if_neg (Nat.not_lt_of_le ht), if_neg (not_not_intro hle), if_neg hlt]
      exact ⟨_, _, hok, ⟨hy, hm, by simp only; omega, rfl⟩, rfl, rfl⟩
  · rw [Nat.max_eq_right (Nat.le_of_not_le ht), if_neg ht]
    have hok : processTiandao c n byHealth tiandao = .ok
        ({ tiandao with vDays := c.days n, vTimeonday := timeonday n, vTimes := c.times n },
        [.timeChange taiyiDanuoAccount (c.years n) (c.months n) (c.times n)]) := by
      rw [hmonth, if_pos (Nat.lt_of_not_le ht)]
    exact ⟨_, _, hok, ⟨hy, hm, rfl, rfl⟩, rfl, rfl⟩

/-- A block of the same month announces the term if it is above the stored one, and any other
announces it. -/
theorem processTiandao_succ {tiandao : Properties} (hs : Stores c n tiandao) (byHealth : List ℤ) :
    ∃ tiandao' ops, processTiandao c (n + 1) byHealth tiandao = .ok (tiandao', ops) ∧
      Stores c (n + 1) tiandao' ∧
      tiandao'.vTimes = (if c.SameMonth n (n + 1) then max tiandao.vTimes (c.times (n + 1))
        else c.times (n + 1)) ∧
      ops.filter isTimeChange = if c.SameMonth n (n + 1) ∧ c.times (n + 1) ≤ tiandao.vTimes then []
        else [.timeChange taiyiDanuoAccount (c.years (n + 1)) (c.months (n + 1)) (c.times (n + 1))] := by
  obtain ⟨hy, hm, hd, -⟩ := hs
  by_cases hsame : c.SameMonth n (n + 1)
  · rw [if_pos hsame]
    simp only [hsame, true_and]
    refine processTiandao_day byHealth (hy.trans hsame.1) (hm.trans hsame.2) ?_
    have := advance c n
    unfold Calendar.SameMonth at hsame
    omega
  · have hnew : c.years (n + 1) = c.years n ∧ c.months n < c.months (n + 1) ∧ c.days (n + 1) = 1 ∨
        c.years n < c.years (n + 1) ∧ c.months (n + 1) = 1 := by
      have := advance c n
      unfold Calendar.SameMonth at hsame
      omega
    rw [if_neg hsame]
    simp only [hsame, false_and, if_false]
    rcases hnew with ⟨hyear, hmonth, hday⟩ | ⟨hyear, hmonth⟩
    · exact processTiandao_month byHealth (hy.trans hyear.symm) (hm ▸ hmonth) hday
    · exact processTiandao_year byHealth (hy ▸ hyear) hmonth

end Advance

section Run

variable {c : Calendar} {byHealth : ℕ → List ℤ} {n : ℕ}

theorem properties_succ {tiandao tiandao' : Properties} {ops : List Operation}
    (h : properties c byHealth n = .ok tiandao)
    (hstep : processTiandao c (n + 1) (byHealth (n + 1)) tiandao = .ok (tiandao', ops)) :
    properties c byHealth (n + 1) = .ok tiandao' := by
  rw [properties, h]
  simp only [bind, Except.bind, hstep]
  rfl

/-- The genesis has the year 0, so the first block starts the first year. -/
theorem processTiandao_first (c : Calendar) (byHealth : List ℤ) :
    ∃ tiandao' ops, processTiandao c 1 byHealth {} = .ok (tiandao', ops) ∧ Stores c 1 tiandao' ∧
      tiandao'.vTimes = c.times 1 ∧ ops.filter isTimeChange =
        [.timeChange taiyiDanuoAccount (c.years 1) (c.months 1) (c.times 1)] := by
  refine processTiandao_year byHealth ?_ c.first.2.1
  have h := two_le_year c 0
  change 0 < (c.solarDay 0).year - 1
  omega

/-- In a month without a wrap so far the next term is the same or above. -/
theorem times_le (hsame : c.SameMonth n (n + 1)) (hwrap : ¬c.Wrapped (n + 1)) :
    c.times n ≤ c.times (n + 1) := by
  have hnone : ¬(c.times n = 23 ∧ c.times (n + 1) = 0) := fun h ↦ hwrap ⟨n, n.lt_succ_self, hsame, h⟩
  have := advance c n
  omega

theorem not_wrapped (hsame : c.SameMonth n (n + 1)) (hwrap : ¬c.Wrapped (n + 1)) : ¬c.Wrapped n := by
  rintro ⟨m, hm, ⟨hyear, hmonth⟩, h⟩
  exact hwrap ⟨m, Nat.lt_succ_of_lt hm, ⟨hyear.trans hsame.1, hmonth.trans hsame.2⟩, h⟩

/-- By induction on the blocks: the stored term is the one of the block, unless it has wrapped in the
month. -/
theorem properties_spec (c : Calendar) (byHealth : ℕ → List ℤ) (n : ℕ) :
    ∃ tiandao, properties c byHealth (n + 1) = .ok tiandao ∧ Stores c (n + 1) tiandao ∧
      (¬c.Wrapped (n + 1) → tiandao.vTimes = c.times (n + 1)) := by
  induction n with
  | zero =>
    obtain ⟨tiandao, ops, hok, hs, htimes, -⟩ := processTiandao_first c (byHealth 1)
    exact ⟨tiandao, properties_succ rfl hok, hs, fun _ ↦ htimes⟩
  | succ n ih =>
    obtain ⟨tiandao, hrun, hs, htimes⟩ := ih
    obtain ⟨tiandao', ops, hok, hs', htimes', -⟩ := processTiandao_succ hs (byHealth (n + 2))
    refine ⟨tiandao', properties_succ hrun hok, hs', fun hwrap ↦ ?_⟩
    rw [htimes']
    split
    · next hsame => rw [htimes (not_wrapped hsame hwrap), Nat.max_eq_right (times_le hsame hwrap)]
    · rfl

/-- Over any run of blocks nothing is thrown, and the year, month, day and time of day of each block
are stored; as long as the term has not wrapped in the month, it is stored as well, and announced
exactly at the first block, the first block of a month or year, and when it changes. -/
theorem processTiandao_run (c : Calendar) (byHealth : ℕ → List ℤ) (n : ℕ) :
    ∃ tiandao tiandao' ops, properties c byHealth n = .ok tiandao ∧
      processTiandao c (n + 1) (byHealth (n + 1)) tiandao = .ok (tiandao', ops) ∧
      tiandao'.vYears = c.years (n + 1) ∧ tiandao'.vMonths = c.months (n + 1) ∧
      tiandao'.vDays = c.days (n + 1) ∧ tiandao'.vTimeonday = timeonday (n + 1) ∧
      (¬c.Wrapped (n + 1) → tiandao'.vTimes = c.times (n + 1) ∧
        ops.filter isTimeChange = if c.Announced n then
          [.timeChange taiyiDanuoAccount (c.years (n + 1)) (c.months (n + 1)) (c.times (n + 1))] else []) := by
  cases n with
  | zero =>
    obtain ⟨tiandao', ops, hok, ⟨hy, hm, hd, ht⟩, htimes, hops⟩ := processTiandao_first c (byHealth 1)
    exact ⟨{}, tiandao', ops, rfl, hok, hy, hm, hd, ht, fun _ ↦ ⟨htimes, by rw [hops, if_pos (.inl rfl)]⟩⟩
  | succ n =>
    obtain ⟨tiandao, hrun, hs, htimes⟩ := properties_spec c byHealth n
    obtain ⟨tiandao', ops, hok, ⟨hy, hm, hd, ht⟩, htimes', hops⟩ :=
      processTiandao_succ hs (byHealth (n + 2))
    refine ⟨tiandao, tiandao', ops, hrun, hok, hy, hm, hd, ht, fun hwrap ↦ ?_⟩
    rw [htimes', hops]
    by_cases hsame : c.SameMonth (n + 1) (n + 2)
    · have hle := times_le hsame hwrap
      rw [if_pos hsame, htimes (not_wrapped hsame hwrap), Nat.max_eq_right hle]
      refine ⟨rfl, ?_⟩
      by_cases heq : c.times (n + 2) = c.times (n + 1)
      · rw [if_pos ⟨hsame, Nat.le_of_eq heq⟩, if_neg]
        rintro (h | h | h)
        · exact absurd h n.succ_ne_zero
        · exact h hsame
        · exact h heq
      · rw [if_neg fun h ↦ heq (Nat.le_antisymm h.2 hle), if_pos (.inr (.inr heq))]
    · rw [if_neg hsame, if_neg fun h ↦ hsame h.1, if_pos (.inr (.inl hsame))]
      exact ⟨rfl, rfl⟩

end Run

/-- The lengths of the months. -/
def monthDays (year month : ℕ) : ℕ :=
  if month = 2 then if year % 4 = 0 then 29 else 28
  else if month = 4 ∨ month = 6 ∨ month = 9 ∨ month = 11 then 30
  else 31

/-- Year, month and day a number of days after the first day of the year 2. -/
def julianDate : ℕ → ℕ × ℕ × ℕ
  | 0 => (2, 1, 1)
  | days + 1 =>
    let (year, month, day) := julianDate days
    if day < monthDays year month then (year, month, day + 1)
    else if month < 12 then (year, month + 1, 1)
    else (year + 1, 1, 1)

/-- The Julian calendar with solar terms of equal lengths, as the library has it for early years. -/
def julian : Calendar where
  solarDay days := ⟨(julianDate days).1, (julianDate days).2.1, (julianDate days).2.2,
    (32 * days + 247) / 487 % 24⟩
  first := ⟨rfl, rfl, rfl⟩
  next days := by
    simp only [SolarDay.Next, julianDate]
    split
    · exact .inl ⟨rfl, rfl, Nat.lt_succ_self _⟩
    · split
      · exact .inr (.inl ⟨rfl, rfl, rfl⟩)
      · exact .inr (.inr ⟨rfl, rfl, rfl⟩)
  term_lt days := Nat.mod_lt _ (by decide)
  term_next days := by
    have hstep : (32 * (days + 1) + 247) / 487 = (32 * days + 247) / 487 ∨
        (32 * (days + 1) + 247) / 487 = (32 * days + 247) / 487 + 1 := by omega
    simp only
    rcases hstep with hstep | hstep
    · exact .inl (by rw [hstep])
    · exact .inr (by rw [hstep, Nat.mod_add_mod])

/-- At the first block of February the term is announced, though it is the one of the last block of
January. -/
theorem announces_unchanged : ¬∀ n, 0 < n → ∃ tiandao tiandao' ops,
    properties julian (fun _ ↦ []) n = .ok tiandao ∧
      processTiandao julian (n + 1) [] tiandao = .ok (tiandao', ops) ∧
      (ops.any isTimeChange = true ↔ julian.times (n + 1) ≠ julian.times n) := by
  intro h
  obtain ⟨tiandao, tiandao', ops, hrun, hok, hiff⟩ := h 37199 (by decide)
  obtain ⟨stored, hstored, hs, -⟩ := properties_spec julian (fun _ ↦ []) 37198
  rw [hrun, Except.ok.injEq] at hstored
  subst hstored
  obtain ⟨tiandao'', ops', hok', -, -, hops⟩ := processTiandao_succ hs []
  rw [hok, Except.ok.injEq, Prod.mk.injEq] at hok'
  obtain ⟨-, rfl⟩ := hok'
  have hsame : ¬julian.SameMonth 37199 37200 := by decide
  rw [if_neg fun h ↦ hsame h.1] at hops
  have hany : ops.any isTimeChange = true := by
    rw [List.any_eq_true]
    have hmem : Operation.timeChange taiyiDanuoAccount (julian.years 37200) (julian.months 37200)
        (julian.times 37200) ∈ ops.filter isTimeChange := hops ▸ List.mem_singleton_self _
    exact ⟨_, List.mem_filter.mp hmem⟩
  exact hiff.mp hany rfl

end Taiyi.Zones.Tiandao
