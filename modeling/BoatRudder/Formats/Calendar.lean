import Mathlib.Algebra.Ring.Nat
import Mathlib.Data.Int.Order.Basic
import Mathlib.Data.List.GetD
import Mathlib.Logic.Function.Iterate
import Mathlib.Order.Basic

/-! # The calendar

The Gregorian calendar over the days since 1 January 1970, and the weeks of ISO 8601: a week goes from
Monday to Sunday, it belongs to the year its Thursday is in, and the weeks of a year are numbered from
one. At the ends of a year a few days are in a week of the year before or after. -/

namespace BoatRudder.Calendar

/-! ## Years -/

variable {ls : List ℕ} {k m : ℕ} {y z z' : ℤ}

/-- The first of January of a year: `719162` days lie between that of the year 1 and that of 1970. -/
def yearStart (y : ℤ) : ℤ := 365 * (y - 1) + (y - 1) / 4 - (y - 1) / 100 + (y - 1) / 400 - 719162

/-- The twenty-ninth of February of a year that has one. -/
def leapDay (y : ℤ) : ℕ := if 4 ∣ y ∧ (¬ 100 ∣ y ∨ 400 ∣ y) then 1 else 0

/-- The year of a day, by cycles of 400, 100 and 4 years. -/
def yearOf (z : ℤ) : ℤ :=
  let n := z + 719162
  let n100 := min 3 (n % 146097 / 36524)
  let r := n % 146097 - 36524 * n100
  400 * (n / 146097) + 100 * n100 + 4 * (r / 1461) + min 3 (r % 1461 / 365) + 1

/-- A year has 365 days, and one more in a leap year. -/
theorem yearStart_succ (y : ℤ) : yearStart (y + 1) = yearStart y + 365 + leapDay y := by
  simp only [yearStart, leapDay]
  split_ifs <;> omega

theorem yearStart_lt {y' : ℤ} (h : y < y') : yearStart y + 365 ≤ yearStart y' := by
  simp only [yearStart]
  omega

/-- The years do not overlap. -/
theorem yearStart_succ_le {y' : ℤ} (h : y < y') : yearStart (y + 1) ≤ yearStart y' := by
  simp only [yearStart]
  omega

/-- A year by its place in the cycles. -/
theorem yearStart_cycle {a b c d : ℤ} (hb : 0 ≤ b ∧ b ≤ 3) (hc : 0 ≤ c ∧ c ≤ 24)
    (hd : 0 ≤ d ∧ d ≤ 3) :
    yearStart (400 * a + 100 * b + 4 * c + d + 1) =
      146097 * a + 36524 * b + 1461 * c + 365 * d - 719162 := by
  have h4 : (400 * a + 100 * b + 4 * c + d + 1 - 1) / 4 = 100 * a + 25 * b + c := by omega
  have h100 : (400 * a + 100 * b + 4 * c + d + 1 - 1) / 100 = 4 * a + b := by omega
  have h400 : (400 * a + 100 * b + 4 * c + d + 1 - 1) / 400 = a := by omega
  rw [yearStart, h4, h100, h400]
  omega

/-- **A day is in its year.** -/
theorem yearOf_spec (z : ℤ) : yearStart (yearOf z) ≤ z ∧ z < yearStart (yearOf z + 1) := by
  -- the day of the year is left over, the last one only in a leap year
  obtain ⟨a, b, c, d, hb, hc, hd, hy, hlo, hhi⟩ : ∃ a b c d : ℤ, (0 ≤ b ∧ b ≤ 3) ∧
      (0 ≤ c ∧ c ≤ 24) ∧ (0 ≤ d ∧ d ≤ 3) ∧ yearOf z = 400 * a + 100 * b + 4 * c + d + 1 ∧
      0 ≤ z + 719162 - (146097 * a + 36524 * b + 1461 * c + 365 * d) ∧
      (z + 719162 - (146097 * a + 36524 * b + 1461 * c + 365 * d) < 365 ∨
        z + 719162 - (146097 * a + 36524 * b + 1461 * c + 365 * d) = 365 ∧ d = 3 ∧
          (c = 24 → b = 3)) := by
    have hrest : 0 ≤ (z + 719162) % 146097 ∧ (z + 719162) % 146097 < 146097 := by omega
    have hz : z + 719162 = 146097 * ((z + 719162) / 146097) + (z + 719162) % 146097 := by omega
    refine ⟨_, _, _, _, ?_, ?_, ?_, rfl, ?_⟩
    all_goals omega
  have hleap : d = 3 → (c = 24 → b = 3) → leapDay (400 * a + 100 * b + 4 * c + d + 1) = 1 := by
    rintro rfl h24
    rw [leapDay, if_pos]
    refine ⟨by omega, ?_⟩
    by_cases hcentury : c = 24
    · right
      obtain rfl := h24 hcentury
      omega
    · left
      omega
  rw [yearStart_succ, hy, yearStart_cycle hb hc hd]
  rcases hhi with hlt | ⟨hlast, hd3, h24⟩
  · omega
  · rw [hleap hd3 h24]
    omega

/-- The year of a day is the one it lies in. -/
theorem yearOf_eq_iff : yearOf z = y ↔ yearStart y ≤ z ∧ z < yearStart (y + 1) := by
  obtain ⟨hlo, hhi⟩ := yearOf_spec z
  constructor
  · rintro rfl
    exact ⟨hlo, hhi⟩
  · rintro ⟨h1, h2⟩
    rcases lt_trichotomy (yearOf z) y with h | h | h
    · have := yearStart_succ_le h
      omega
    · exact h
    · have := yearStart_succ_le h
      omega

theorem yearOf_mono (h : z ≤ z') : yearOf z ≤ yearOf z' := by
  by_contra hlt
  have h1 := (yearOf_spec z).1
  have h2 := (yearOf_spec z').2
  have := yearStart_succ_le (not_le.mp hlt)
  omega

/-! ## Months -/

/-- The lengths of the months. -/
def monthLengths (y : ℤ) : List ℕ := [31, 28 + leapDay y, 31, 30, 31, 30, 31, 31, 30, 31, 30, 31]

/-- The place of the `k`-th day of a run of months: the month, and the day in it. -/
def monthAt : List ℕ → ℕ → ℕ × ℕ
  | [], k => (0, k)
  | l :: ls, k => if k < l then (0, k) else ((monthAt ls (k - l)).1 + 1, (monthAt ls (k - l)).2)

/-- A later day is in a later month, or later in the same one. -/
theorem monthAt_lt_iff (ls : List ℕ) (k k' : ℕ) :
    k < k' ↔ (monthAt ls k).1 < (monthAt ls k').1 ∨
      (monthAt ls k).1 = (monthAt ls k').1 ∧ (monthAt ls k).2 < (monthAt ls k').2 := by
  induction ls generalizing k k' with
  | nil => simp [monthAt]
  | cons l ls ih =>
    simp only [monthAt]
    split_ifs with h h' h'
    · simp
    · simp only [Nat.succ_pos, true_or, iff_true]
      omega
    · simp only [Nat.not_lt_zero, false_and, or_false, iff_false]
      omega
    · have hih := ih (k - l) (k' - l)
      simp only [Nat.add_lt_add_iff_right, Nat.add_right_cancel_iff, ← hih]
      omega

theorem monthAt_bounds (hm : ∀ l ∈ ls, l ≤ m) (hk : k < ls.sum) :
    (monthAt ls k).1 < ls.length ∧ (monthAt ls k).2 < m := by
  induction ls generalizing k with
  | nil => simp at hk
  | cons l ls ih =>
    obtain ⟨hl, hls⟩ := List.forall_mem_cons.mp hm
    rw [monthAt]
    split_ifs with h
    · exact ⟨by simp, by simpa using by omega⟩
    · rw [List.sum_cons] at hk
      have hih := ih hls (show k - l < ls.sum by omega)
      exact ⟨by simpa using hih.1, hih.2⟩

/-- A date. -/
structure Date where
  /-- The year. -/
  year : ℤ
  /-- The month, from one. -/
  month : ℕ
  /-- The day of the month, from one. -/
  day : ℕ
  deriving DecidableEq

/-- The date of a day. -/
def dateOf (z : ℤ) : Date :=
  let place := monthAt (monthLengths (yearOf z)) (z - yearStart (yearOf z)).toNat
  ⟨yearOf z, place.1 + 1, place.2 + 1⟩

theorem dateOf_bounds (z : ℤ) : (dateOf z).month < 13 ∧ (dateOf z).day < 32 := by
  obtain ⟨hlo, hhi⟩ := yearOf_spec z
  rw [yearStart_succ] at hhi
  have hleap : leapDay (yearOf z) ≤ 1 := by
    rw [leapDay]
    split_ifs <;> omega
  have hlengths : ∀ l ∈ monthLengths (yearOf z), l ≤ 31 := by
    simp only [monthLengths, List.mem_cons, List.not_mem_nil, or_false, forall_eq_or_imp, forall_eq]
    omega
  have hsum : (z - yearStart (yearOf z)).toNat < (monthLengths (yearOf z)).sum := by
    simp only [monthLengths, List.sum_cons, List.sum_nil]
    omega
  have hplace := monthAt_bounds hlengths hsum
  have hlen : (monthLengths (yearOf z)).length = 12 := rfl
  simp only [dateOf]
  omega

/-- **A later day has a later date.** -/
theorem lt_iff_dateOf :
    z < z' ↔ (dateOf z).year < (dateOf z').year ∨ (dateOf z).year = (dateOf z').year ∧
      ((dateOf z).month < (dateOf z').month ∨
        (dateOf z).month = (dateOf z').month ∧ (dateOf z).day < (dateOf z').day) := by
  have hyear (x : ℤ) : (dateOf x).year = yearOf x := rfl
  rw [hyear, hyear]
  rcases lt_trichotomy (yearOf z) (yearOf z') with h | h | h
  · have hlt : z < z' := not_le.mp fun hle => absurd (yearOf_mono hle) (not_le.mpr h)
    simp [h, hlt]
  · have h1 := (yearOf_spec z).1
    have h2 := (yearOf_spec z').1
    have hplace := monthAt_lt_iff (monthLengths (yearOf z)) (z - yearStart (yearOf z)).toNat
      (z' - yearStart (yearOf z)).toNat
    simp only [dateOf, ← h, lt_irrefl, false_or, true_and, Nat.add_lt_add_iff_right,
      Nat.add_right_cancel_iff, ← hplace]
    rw [← h] at h2
    omega
  · have hle : ¬ z < z' := fun hlt => absurd (yearOf_mono hlt.le) (not_le.mpr h)
    simp [hle, not_lt.mpr h.le, h.ne']

/-- Different days have different dates. -/
theorem dateOf_injective (h : dateOf z = dateOf z') : z = z' := by
  rcases lt_trichotomy z z' with hlt | heq | hlt
  · rw [lt_iff_dateOf, h] at hlt
    simp at hlt
  · exact heq
  · rw [lt_iff_dateOf, h] at hlt
    simp at hlt

/-! ## Dates -/

/-- The days before a month, and the number of its days. -/
def daysBefore (y : ℤ) (month : ℕ) : ℕ := ((monthLengths y).take (month - 1)).sum

/-- The length of a month, none of a month there is not. -/
def monthLength (y : ℤ) (month : ℕ) : ℕ := (monthLengths y).getD (month - 1) 0

/-- A date of the calendar. -/
structure Date.Valid (d : Date) : Prop where
  month : 1 ≤ d.month ∧ d.month ≤ 12
  day : 1 ≤ d.day ∧ d.day ≤ monthLength d.year d.month

instance (d : Date) : Decidable d.Valid :=
  decidable_of_iff ((1 ≤ d.month ∧ d.month ≤ 12) ∧ 1 ≤ d.day ∧ d.day ≤ monthLength d.year d.month)
    ⟨fun h => ⟨h.1, h.2⟩, fun h => ⟨h.1, h.2⟩⟩

/-- The date after a date. -/
def Date.next (d : Date) : Date :=
  if d.day < monthLength d.year d.month then ⟨d.year, d.month, d.day + 1⟩
  else if d.month < 12 then ⟨d.year, d.month + 1, 1⟩
  else ⟨d.year + 1, 1, 1⟩

/-- The day of a date. -/
def Date.toDay (d : Date) : ℤ := yearStart d.year + daysBefore d.year d.month + d.day - 1

theorem monthAt_sum_take (hm : m < ls.length) (hk : k < ls.getD m 0) :
    monthAt ls ((ls.take m).sum + k) = (m, k) := by
  induction ls generalizing m with
  | nil => simp at hm
  | cons l ls ih =>
    cases m with
    | zero =>
      rw [List.take_zero, List.sum_nil, Nat.zero_add, monthAt, if_pos (by simpa using hk)]
    | succ m =>
      have hrest := ih (m := m) (by simpa using hm) (by simpa using hk)
      have hle : ¬ l + ((ls.take m).sum + k) < l := by omega
      rw [List.take_succ_cons, List.sum_cons, Nat.add_assoc, monthAt, if_neg hle,
        Nat.add_sub_cancel_left, hrest]

theorem sum_take_add_getD_le (ls : List ℕ) (m : ℕ) : (ls.take m).sum + ls.getD m 0 ≤ ls.sum := by
  induction ls generalizing m with
  | nil => simp
  | cons l ls ih =>
    cases m with
    | zero => simp
    | succ m =>
      have := ih m
      simp only [List.take_succ_cons, List.sum_cons, List.getD_cons_succ]
      omega

theorem sum_monthLengths (y : ℤ) : ((monthLengths y).sum : ℤ) = yearStart (y + 1) - yearStart y := by
  rw [yearStart_succ]
  simp only [monthLengths, List.sum_cons, List.sum_nil]
  omega

variable {d : Date}

/-- **The day of a date has that date.** -/
theorem dateOf_toDay (h : d.Valid) : dateOf d.toDay = d := by
  obtain ⟨⟨hm, hm'⟩, hd, hd'⟩ := h
  have hlen : d.month - 1 < (monthLengths d.year).length := by
    change d.month - 1 < 12
    omega
  have hsum := sum_take_add_getD_le (monthLengths d.year) (d.month - 1)
  have hyear := sum_monthLengths d.year
  rw [monthLength] at hd'
  have hy : yearOf d.toDay = d.year := by
    rw [yearOf_eq_iff, Date.toDay, daysBefore]
    omega
  have hrest : (d.toDay - yearStart d.year).toNat =
      ((monthLengths d.year).take (d.month - 1)).sum + (d.day - 1) := by
    rw [Date.toDay, daysBefore]
    omega
  rw [dateOf, hy, hrest, monthAt_sum_take hlen (by omega)]
  obtain ⟨y, m, k⟩ := d
  simp only [Date.mk.injEq, true_and]
  simp only at hm hd
  omega

/-- The month that is found is one of the list, and long enough. -/
theorem monthAt_getD (hk : k < ls.sum) :
    (monthAt ls k).1 < ls.length ∧ (monthAt ls k).2 < ls.getD (monthAt ls k).1 0 := by
  induction ls generalizing k with
  | nil => simp at hk
  | cons l ls ih =>
    rw [monthAt]
    split_ifs with h
    · exact ⟨Nat.succ_pos _, h⟩
    · rw [List.sum_cons] at hk
      have hih := ih (show k - l < ls.sum by omega)
      exact ⟨Nat.succ_lt_succ hih.1, by simpa using hih.2⟩

/-- Every day has a date. -/
theorem valid_dateOf (z : ℤ) : (dateOf z).Valid := by
  obtain ⟨hlo, hhi⟩ := yearOf_spec z
  have hsum := sum_monthLengths (yearOf z)
  have hk : (z - yearStart (yearOf z)).toNat < (monthLengths (yearOf z)).sum := by omega
  obtain ⟨hm, hd⟩ := monthAt_getD hk
  have hm12 : (monthAt (monthLengths (yearOf z)) (z - yearStart (yearOf z)).toNat).1 < 12 := hm
  refine ⟨⟨Nat.succ_pos _, hm12⟩, Nat.succ_pos _, ?_⟩
  rw [monthLength]
  exact hd

/-- The day of the date of a day is the day. -/
theorem toDay_dateOf (z : ℤ) : (dateOf z).toDay = z :=
  dateOf_injective (dateOf_toDay (valid_dateOf z))

/-- The months follow each other. -/
theorem daysBefore_succ (y : ℤ) (hm : 1 ≤ m) :
    daysBefore y (m + 1) = daysBefore y m + monthLength y m := by
  obtain ⟨k, rfl⟩ : ∃ k, m = k + 1 := ⟨m - 1, by omega⟩
  rw [daysBefore, daysBefore, monthLength, Nat.add_sub_cancel, Nat.add_sub_cancel, List.take_add_one,
    List.sum_append, List.getD_eq_getElem?_getD]
  cases (monthLengths y)[k]? <;> simp

/-- **The next date is the date of the next day.** -/
theorem toDay_next (h : d.Valid) : d.next.toDay = d.toDay + 1 := by
  obtain ⟨⟨hm, hm'⟩, hd, hd'⟩ := h
  rw [Date.next]
  split_ifs with hday hmonth
  · simp only [Date.toDay]
    omega
  · have hlast : d.day = monthLength d.year d.month := by omega
    have hsucc := daysBefore_succ d.year hm
    simp only [Date.toDay]
    omega
  · have hdec : d.month = 12 := by omega
    have hsum := sum_monthLengths d.year
    have hbefore : daysBefore d.year 12 + 31 = (monthLengths d.year).sum := by
      simp only [daysBefore, monthLengths, List.take_succ_cons, List.take_zero, List.sum_cons, List.sum_nil]
      omega
    have hlast : d.day = 31 := by
      have hlen : monthLength d.year 12 = 31 := rfl
      rw [hdec, hlen] at hd' hday
      omega
    have hfirst : daysBefore (d.year + 1) 1 = 0 := rfl
    simp only [Date.toDay, hfirst, hdec, hlast]
    omega

theorem monthLength_pos (y : ℤ) (hm : 1 ≤ m) (hm' : m ≤ 12) : 1 ≤ monthLength y m := by
  have hall : ∀ l ∈ monthLengths y, 1 ≤ l := by
    simp only [monthLengths, List.mem_cons, List.not_mem_nil, or_false, forall_eq_or_imp, forall_eq]
    omega
  have hlt : m - 1 < (monthLengths y).length := by
    change m - 1 < 12
    omega
  rw [monthLength, List.getD_eq_getElem _ _ hlt]
  exact hall _ (List.getElem_mem hlt)

theorem monthLength_le (y : ℤ) (m : ℕ) : monthLength y m ≤ 31 := by
  have hleap : leapDay y ≤ 1 := by
    rw [leapDay]
    split_ifs <;> omega
  have hall : ∀ l ∈ monthLengths y, l ≤ 31 := by
    simp only [monthLengths, List.mem_cons, List.not_mem_nil, or_false, forall_eq_or_imp, forall_eq]
    omega
  by_cases hlt : m - 1 < (monthLengths y).length
  · rw [monthLength, List.getD_eq_getElem _ _ hlt]
    exact hall _ (List.getElem_mem hlt)
  · rw [monthLength, List.getD_eq_default _ _ (Nat.le_of_not_lt hlt)]
    exact Nat.zero_le 31

theorem Date.Valid.next (h : d.Valid) : d.next.Valid := by
  obtain ⟨⟨hm, hm'⟩, hd, hd'⟩ := h
  rw [Date.next]
  split_ifs with hday hmonth
  · exact ⟨⟨hm, hm'⟩, Nat.succ_pos _, hday⟩
  · exact ⟨⟨Nat.succ_pos _, hmonth⟩, Nat.le_refl 1, monthLength_pos _ (Nat.succ_pos _) hmonth⟩
  · have hjan : 1 ≤ 12 := by decide
    exact ⟨⟨Nat.le_refl 1, hjan⟩, Nat.le_refl 1, monthLength_pos _ (Nat.le_refl 1) hjan⟩

/-- The next date is the date of the next day. -/
theorem next_dateOf (z : ℤ) : (dateOf z).next = dateOf (z + 1) := by
  rw [← dateOf_toDay (valid_dateOf z).next, toDay_next (valid_dateOf z), toDay_dateOf]

/-- So many dates on, so many days on. -/
theorem iterate_next_dateOf (n : ℕ) (z : ℤ) : Date.next^[n] (dateOf z) = dateOf (z + n) := by
  induction n generalizing z with
  | zero => simp
  | succ n ih =>
    rw [Function.iterate_succ_apply, next_dateOf, ih, Int.natCast_succ, Int.add_assoc, Int.add_comm 1]

/-- Dates in their order. -/
def Date.Before (d e : Date) : Prop :=
  d.year < e.year ∨ d.year = e.year ∧ (d.month < e.month ∨ d.month = e.month ∧ d.day < e.day)

/-- Dates are ordered as their days. -/
theorem toDay_lt_toDay {e : Date} (hd : d.Valid) (he : e.Valid) :
    d.toDay < e.toDay ↔ d.Before e := by
  rw [lt_iff_dateOf, dateOf_toDay hd, dateOf_toDay he]
  rfl

/-! ## Weeks -/

/-- The day of the week, from Monday: 1 January 1970 was a Thursday. -/
def weekday (z : ℤ) : ℤ := (z + 3) % 7

/-- The Thursday of the week of a day. -/
def thursday (z : ℤ) : ℤ := z - weekday z + 3

/-- The year to which the week of a day belongs. -/
def isoYear (z : ℤ) : ℤ := yearOf (thursday z)

/-- The number of the week of a day. -/
def isoWeek (z : ℤ) : ℤ := (thursday z - yearStart (isoYear z)) / 7 + 1

/-- The Monday of a week of a year: the first one is the week of 4 January. -/
def isoMonday (y w : ℤ) : ℤ := yearStart y + 3 - weekday (yearStart y + 3) + 7 * (w - 1)

/-- A day is in a week of a year. -/
structure InWeek (y w z : ℤ) : Prop where
  /-- There is such a week: the weeks of a year end where those of the next one begin. -/
  exists_week : 1 ≤ w ∧ isoMonday y w < isoMonday (y + 1) 1
  /-- It is one of the seven days from its Monday on. -/
  from_monday : isoMonday y w ≤ z ∧ z ≤ isoMonday y w + 6

instance (y w z : ℤ) : Decidable (InWeek y w z) :=
  decidable_of_iff ((1 ≤ w ∧ isoMonday y w < isoMonday (y + 1) 1) ∧
    isoMonday y w ≤ z ∧ z ≤ isoMonday y w + 6) ⟨fun h => ⟨h.1, h.2⟩, fun h => ⟨h.1, h.2⟩⟩

/-- **Every day is in one week**, which its Thursday names. -/
theorem inWeek_iff {w : ℤ} : InWeek y w z ↔ isoYear z = y ∧ isoWeek z = w := by
  have hyear : isoYear z = y ↔ yearStart y ≤ thursday z ∧ thursday z < yearStart (y + 1) :=
    yearOf_eq_iff
  constructor
  · rintro ⟨⟨hw, hlast⟩, hlo, hhi⟩
    simp only [isoMonday, weekday] at hlast hlo hhi
    have hy : isoYear z = y := by
      rw [hyear, thursday, weekday]
      clear hyear
      omega
    refine ⟨hy, ?_⟩
    rw [isoWeek, hy, thursday, weekday]
    clear hyear hy
    omega
  · rintro ⟨hy, hw⟩
    rw [isoWeek, hy] at hw
    have hspec := hyear.mp hy
    simp only [thursday, weekday] at hspec hw
    refine ⟨⟨by omega, ?_⟩, ?_, ?_⟩
    all_goals
      simp only [isoMonday, weekday]
      omega

/-! ## The ends of a year -/

/-- The first days of January up to a Sunday, where a Monday to Thursday is in December. -/
def InLastWeek (z : ℤ) : Prop := 4 + (z - yearStart (yearOf z)) ≤ weekday z

/-- The last days of December from a Monday on, where a Thursday to Sunday is in January. -/
def InNextWeek (z : ℤ) : Prop := weekday z + (yearStart (yearOf z + 1) - 1 - z) ≤ 2

instance (z : ℤ) : Decidable (InLastWeek z) := inferInstanceAs (Decidable (_ ≤ _))

instance (z : ℤ) : Decidable (InNextWeek z) := inferInstanceAs (Decidable (_ ≤ _))

/-- A year has two ends. -/
theorem not_inNextWeek (h : InLastWeek z) : ¬ InNextWeek z := by
  have hlen := yearStart_lt (show yearOf z < yearOf z + 1 by omega)
  rw [InLastWeek, weekday] at h
  rw [InNextWeek, weekday]
  omega

/-- **The year of a week is that of its days, but at the ends of a year.** -/
theorem isoYear_eq (z : ℤ) :
    isoYear z = if InLastWeek z then yearOf z - 1 else if InNextWeek z then yearOf z + 1
      else yearOf z := by
  obtain ⟨hlo, hhi⟩ := yearOf_spec z
  have hbefore := yearStart_lt (show yearOf z - 1 < yearOf z by omega)
  have hafter := yearStart_lt (show yearOf z + 1 < yearOf z + 1 + 1 by omega)
  have hweekday : 0 ≤ weekday z ∧ weekday z ≤ 6 := by
    rw [weekday]
    omega
  split_ifs with h1 h2
  · rw [InLastWeek] at h1
    rw [isoYear, yearOf_eq_iff, thursday, Int.sub_add_cancel]
    omega
  · rw [InNextWeek] at h2
    rw [isoYear, yearOf_eq_iff, thursday]
    omega
  · rw [InLastWeek] at h1
    rw [InNextWeek] at h2
    rw [isoYear, yearOf_eq_iff, thursday]
    omega

end BoatRudder.Calendar
