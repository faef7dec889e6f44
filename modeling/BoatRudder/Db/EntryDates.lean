import BoatRudder.Db.Entries
import BoatRudder.Formats.Calendar
import BoatRudder.Text.Padded
import Mathlib.Tactic.IntervalCases
import Mathlib.Tactic.NormNum

/-! # The dates of entries

The editor saves a date as text: `days_from_civil` makes days of it, and `gmtime_r` and `strftime` make
the text again, for the editor and for the public page. The arithmetic is that of an `int`, which has
no value where it overflows. -/

namespace BoatRudder.Db

open Calendar

/-! ## Days -/

variable {d : Date}

/-- A value of an `int`; there is none where it overflows. -/
def intValue (v : ℤ) : Option ℤ := if -2 ^ 31 ≤ v ∧ v < 2 ^ 31 then some v else none

/-- `era`, the quotient of C being towards zero. -/
def civilEra (y : ℤ) : Option ℤ := do
  let shifted ← if 0 ≤ y then some y else intValue (y - 399)
  return shifted.tdiv 400

/-- `doy`: the days since March, as an `unsigned`. -/
def civilDayOfYear (m d : ℤ) : Option ℤ := do
  let months ← intValue (m + if 2 < m then -3 else 9)
  let product ← intValue (153 * months)
  let product ← intValue (product + 2)
  let sum ← intValue (product.tdiv 5 + d)
  let sum ← intValue (sum - 1)
  return sum % 2 ^ 32

/-- `days_from_civil`. -/
def daysFromCivil (y m d : ℤ) : Option ℤ := do
  let y ← intValue (y - if m ≤ 2 then 1 else 0)
  let era ← civilEra y
  let yoe := (y - era * 400) % 2 ^ 32
  let doy ← civilDayOfYear m d
  let doe := (yoe * 365 + yoe / 4 - yoe / 100 + doy) % 2 ^ 32
  return era * 146097 + doe - 719468

/-! ## Texts -/

/-- `sscanf(date, "%d-%d-%d", &year, &month, &day) == 3`. -/
def scanDate (s : Bytes) : Option (ℤ × ℤ × ℤ) := do
  let year ← scanInt s
  let month ← if year.2.head? = some 45 then scanInt (year.2.drop 1) else none
  let day ← if month.2.head? = some 45 then scanInt (month.2.drop 1) else none
  return ((Int32.ofInt year.1).toInt, (Int32.ofInt month.1).toInt, (Int32.ofInt day.1).toInt)

/-- What `cms_update_entry_header` sets `header.date` to, in milliseconds, if anything; there is no
such value where the arithmetic overflows. -/
def headerDate (date : Bytes) : Option (Option ℤ) :=
  match scanDate date with
  | none => some none
  | some (year, month, day) => do
    let days ← daysFromCivil year month day
    if -2 ^ 63 ≤ days * 86400 * 1000 ∧ days * 86400 * 1000 < 2 ^ 63 then
      return some (days * 86400 * 1000)
    else none

/-- `strftime` with `"%Y-%m-%d"`. -/
def strftimeDate (d : Date) : Bytes :=
  signed d.year ++ 45 :: (padded 2 d.month ++ 45 :: padded 2 d.day)

/-- The text of a stored date, in a buffer of this size; nothing is said of the buffer when the text
does not fit. -/
def dateText (size : ℕ) : Option ℤ → Option Bytes
  | none => some []
  | some ms =>
    let text := strftimeDate (dateOf (ms.tdiv 1000 / 86400))
    if text.length < size then some text else none

/-- `header_date` of `parse_header_edit`. -/
def parseHeaderEditDate (e : EntryDoc) : Option Bytes := dateText 16 e.header.date

/-- `date` of `resolve_header_fields`. -/
def resolveHeaderDate (e : EntryDoc) : Option Bytes := dateText 16 e.header.date

/-! ## Days from dates -/

theorem intValue_eq_some {v : ℤ} (hlo : -2 ^ 31 ≤ v) (hhi : v < 2 ^ 31) : intValue v = some v :=
  if_pos ⟨hlo, hhi⟩

/-- The eras are rounded down. -/
theorem civilEra_eq {y : ℤ} (hlo : -2 ^ 31 + 399 ≤ y) (hhi : y < 2 ^ 31) :
    civilEra y = some (y / 400) := by
  rw [civilEra]
  split_ifs with hpos
  · exact congrArg some (Int.tdiv_eq_ediv_of_nonneg hpos)
  · rw [intValue_eq_some (by omega) (by omega)]
    refine congrArg some ?_
    have hneg : (y - 399).tdiv 400 = -((399 - y) / 400) := by
      rw [← Int.neg_sub, Int.neg_tdiv, Int.tdiv_eq_ediv_of_nonneg (by omega)]
    rw [hneg]
    omega

/-- The days since March of the dates there are. -/
theorem civilDayOfYear_eq {m d : ℤ} (hm : 1 ≤ m ∧ m ≤ 12) (hd : 1 ≤ d ∧ d ≤ 31) :
    civilDayOfYear m d = some ((153 * (m + if 2 < m then -3 else 9) + 2) / 5 + d - 1) := by
  have hmonths : 0 ≤ m + (if 2 < m then -3 else 9) ∧ m + (if 2 < m then -3 else 9) ≤ 11 := by
    split_ifs <;> omega
  rw [civilDayOfYear]
  generalize m + (if 2 < m then -3 else 9) = months at *
  have hfifth : (153 * months + 2).tdiv 5 = (153 * months + 2) / 5 :=
    Int.tdiv_eq_ediv_of_nonneg (by omega)
  simp (disch := omega) only [intValue_eq_some, hfifth, Option.bind_eq_bind, Option.bind_some,
    Option.pure_def, Option.some.injEq]
  omega

/-- The days of the years before one, the years going from March: the eras, and the years of an era. -/
theorem yearStart_era (y : ℤ) :
    y / 400 * 146097 + (y % 400 * 365 + y % 400 / 4 - y % 400 / 100) = yearStart (y + 1) + 719162 := by
  rw [yearStart, Int.add_sub_cancel]
  omega

/-- The days since March are those of the months before, counted from January. -/
theorem daysBefore_march {y : ℤ} {m : ℕ} (hm : 1 ≤ m ∧ m ≤ 12) :
    yearStart (y - (if (m : ℤ) ≤ 2 then 1 else 0) + 1) +
        (153 * ((m : ℤ) + if 2 < (m : ℤ) then -3 else 9) + 2) / 5 - 306 =
      yearStart y + daysBefore y m := by
  have hsucc := yearStart_succ y
  obtain ⟨hlo, hhi⟩ := hm
  interval_cases m
  all_goals
    simp only [daysBefore, monthLengths, Nat.reduceSub, List.take_zero, List.take_succ_cons, List.sum_cons,
      List.sum_nil]
    norm_num <;> omega

/-- **`days_from_civil` counts the days.** -/
theorem daysFromCivil_eq (h : d.Valid) (hlo : -2 ^ 31 + 400 ≤ d.year) (hhi : d.year < 2 ^ 31) :
    daysFromCivil d.year d.month d.day = some d.toDay := by
  obtain ⟨hm, hd, hlen⟩ := h
  have hlen := hlen.trans (monthLength_le d.year d.month)
  have hm' : (1 : ℤ) ≤ d.month ∧ (d.month : ℤ) ≤ 12 := by omega
  have hd' : (1 : ℤ) ≤ d.day ∧ (d.day : ℤ) ≤ 31 := by omega
  have hmarch := daysBefore_march (y := d.year) hm
  have hy : -2 ^ 31 + 399 ≤ d.year - (if (d.month : ℤ) ≤ 2 then 1 else 0) ∧
      d.year - (if (d.month : ℤ) ≤ 2 then 1 else 0) < 2 ^ 31 := by
    split_ifs <;> omega
  have hdoy : 0 ≤ (153 * ((d.month : ℤ) + if 2 < (d.month : ℤ) then -3 else 9) + 2) / 5 ∧
      (153 * ((d.month : ℤ) + if 2 < (d.month : ℤ) then -3 else 9) + 2) / 5 ≤ 337 := by
    split_ifs <;> omega
  have hera := yearStart_era (d.year - if (d.month : ℤ) ≤ 2 then 1 else 0)
  rw [daysFromCivil, civilDayOfYear_eq hm' hd']
  generalize d.year - (if (d.month : ℤ) ≤ 2 then 1 else 0) = y at *
  generalize (153 * ((d.month : ℤ) + if 2 < (d.month : ℤ) then -3 else 9) + 2) / 5 = months at *
  have hyoe : (y - y / 400 * 400) % 2 ^ 32 = y % 400 := by omega
  have hdoe : (y % 400 * 365 + y % 400 / 4 - y % 400 / 100 + (months + d.day - 1)) % 2 ^ 32 =
      y % 400 * 365 + y % 400 / 4 - y % 400 / 100 + (months + d.day - 1) := by
    omega
  simp only [intValue_eq_some (show -2 ^ 31 ≤ y by omega) hy.2, civilEra_eq hy.1 hy.2, hyoe, hdoe,
    Option.bind_eq_bind, Option.bind_some, Option.pure_def, Option.some.injEq]
  rw [Date.toDay]
  omega

/-! ## What is saved -/

/-- A date as a date field has it. -/
def dateField (d : Date) : Bytes :=
  padded 4 d.year.toNat ++ 45 :: (padded 2 d.month ++ 45 :: padded 2 d.day)

/-- A number of a date is read up to the hyphen. -/
theorem scanInt_padded {w n : ℕ} (hn : n < 2 ^ 31) {rest : Bytes}
    (hrest : ∀ c ∈ rest.head?, isDigit c = false) : scanInt (padded w n ++ rest) = some ((n : ℤ), rest) := by
  have hread := strtoll_digits_append (padded_ne_nil w n) (fun _ => isDigit_of_mem_padded)
    (by rw [digitsValue_padded]; omega) hrest
  rw [digitsValue_padded] at hread
  have hne : ¬ rest = padded w n ++ rest := fun h => by
    have := List.append_left_eq_self.mp h.symm
    exact padded_ne_nil w n this
  rw [scanInt, hread, if_neg hne]

/-- Numbers with hyphens between them are read as a date. -/
theorem scanDate_padded {v w x y m d : ℕ} (hy : y < 2 ^ 31) (hm : m < 2 ^ 31) (hd : d < 2 ^ 31) :
    scanDate (padded v y ++ 45 :: (padded w m ++ 45 :: padded x d)) = some ((y : ℤ), (m : ℤ), (d : ℤ)) := by
  have hhyphen : ∀ s : Bytes, ∀ c ∈ (45 :: s).head?, isDigit c = false := by
    rintro s c hc
    obtain rfl := Option.some.inj hc
    rfl
  have hlast := @scanInt_padded x _ hd [] (by simp)
  rw [List.append_nil] at hlast
  have hint (n : ℕ) (hn : n < 2 ^ 31) : (Int32.ofInt n).toInt = n :=
    Int32.toInt_ofInt_of_le (by omega) (by omega)
  rw [scanDate, scanInt_padded hy (hhyphen _)]
  simp only [Option.bind_eq_bind, Option.bind_some, List.head?_cons, if_true, List.drop_succ_cons,
    List.drop_zero, scanInt_padded hm (hhyphen _), hlast, Option.pure_def, hint y hy, hint m hm, hint d hd]

/-- The days of a date of a year of at most four digits. -/
theorem toDay_bounds (h : d.Valid) (hlo : 0 ≤ d.year) (hhi : d.year ≤ 9999) :
    -10000000 ≤ d.toDay ∧ d.toDay ≤ 10000000 := by
  have hyear : yearOf d.toDay = d.year := congrArg Date.year (dateOf_toDay h)
  obtain ⟨hfrom, hto⟩ := yearOf_spec d.toDay
  rw [hyear, yearStart] at hfrom
  rw [hyear, yearStart] at hto
  omega

/-- A date field is saved as the milliseconds of its day. -/
theorem headerDate_dateField (h : d.Valid) (hlo : 0 ≤ d.year) (hhi : d.year ≤ 9999) :
    headerDate (dateField d) = some (some (d.toDay * 86400 * 1000)) := by
  have hday := h.day.2.trans (monthLength_le d.year d.month)
  have hscan := scanDate_padded (v := 4) (w := 2) (x := 2) (y := d.year.toNat) (m := d.month)
    (d := d.day) (by omega) (by have := h.month; omega) (by omega)
  rw [Int.toNat_of_nonneg hlo] at hscan
  have hbounds := toDay_bounds h hlo hhi
  rw [headerDate, dateField, hscan]
  simp only [daysFromCivil_eq h (by omega) (by omega), Option.bind_eq_bind, Option.bind_some]
  rw [if_pos (by omega)]
  rfl

/-- A saved date is shown as `strftime` writes it. -/
theorem dateText_toDay {d : Date} (h : d.Valid) {size : ℕ} (hfits : (strftimeDate d).length < size) :
    dateText size (some (d.toDay * 86400 * 1000)) = some (strftimeDate d) := by
  have hsecs : (d.toDay * 86400 * 1000).tdiv 1000 = d.toDay * 86400 :=
    Int.mul_tdiv_cancel _ (by decide)
  have hdays : d.toDay * 86400 / 86400 = d.toDay := Int.mul_ediv_cancel _ (by decide)
  rw [dateText, hsecs, hdays, dateOf_toDay h]
  exact if_pos hfits

/-- A year of up to four digits is written without the zeros of a date field. -/
theorem strftimeDate_eq (hlo : 0 ≤ d.year) : strftimeDate d =
    padded 0 d.year.toNat ++ 45 :: (padded 2 d.month ++ 45 :: padded 2 d.day) := by
  have hyear : signed d.year = padded 0 d.year.toNat := by
    rw [padded, Nat.zero_sub, List.replicate_zero, List.nil_append, ← signed_natCast, Int.toNat_of_nonneg hlo]
  rw [strftimeDate, hyear]

theorem length_strftimeDate_le (h : d.Valid) (hlo : 0 ≤ d.year) (hhi : d.year ≤ 9999) :
    (strftimeDate d).length ≤ 10 := by
  have hday := h.day.2.trans (monthLength_le d.year d.month)
  have hmonth := h.month.2
  have hy : (padded 0 d.year.toNat).length ≤ 4 := by
    rw [padded, Nat.zero_sub, List.replicate_zero, List.nil_append, length_decimal_le_iff (by decide)]
    omega
  have hm : (padded 2 d.month).length = 2 := length_padded (by decide) (by omega)
  have hd : (padded 2 d.day).length = 2 := length_padded (by decide) (by omega)
  rw [strftimeDate_eq hlo]
  simp only [List.length_append, List.length_cons]
  omega

/-- A year of four digits is written as a date field has it. -/
theorem strftimeDate_of_four (hlo : 1000 ≤ d.year) (hhi : d.year ≤ 9999) :
    strftimeDate d = dateField d := by
  have hfour : (decimal d.year.toNat).length = 4 := by
    apply le_antisymm
    · exact (length_decimal_le_iff (by decide)).mpr (by omega)
    · by_contra hlt
      have := (length_decimal_le_iff (n := d.year.toNat) (k := 3) (by decide)).mp (by omega)
      omega
  have hyear : padded 0 d.year.toNat = padded 4 d.year.toNat := by
    rw [padded, padded, hfour, Nat.zero_sub]
  rw [strftimeDate_eq (by omega), hyear, dateField]

/-! ## Dates survive -/

/-- 1 January 1970. -/
def epochDate : Date := ⟨1970, 1, 1⟩

/-- A year from which `days_from_civil` does not leave an `int`. -/
def FitsInt (y : ℤ) : Prop := -2 ^ 31 + 400 ≤ y ∧ y < 2 ^ 31

/-- The number of days that `days_from_civil` gives a date. -/
structure CountsDays (d : Date) (n : ℤ) : Prop where
  value : daysFromCivil d.year d.month d.day = some n
  /-- So many dates lie between this and 1 January 1970. -/
  count : ∃ k : ℕ, (n = k ∧ Date.next^[k] epochDate = d) ∨ (n = -k ∧ Date.next^[k] d = epochDate)
  /-- The next date has one day more. -/
  next : FitsInt d.next.year → daysFromCivil d.next.year d.next.month d.next.day = some (n + 1)

/-- What is shown of a date that was saved from a date field. -/
structure DateSurvives (d : Date) (e : EntryDoc) : Prop where
  editor : ∃ text, parseHeaderEditDate e = some text ∧ scanDate text = some (d.year, (d.month : ℤ), (d.day : ℤ)) ∧
    (1000 ≤ d.year → text = dateField d)
  page : ∃ text, resolveHeaderDate e = some text ∧ scanDate text = some (d.year, (d.month : ℤ), (d.day : ℤ)) ∧
    (1000 ≤ d.year → text = dateField d)

theorem countsDays (h : d.Valid) (hfits : FitsInt d.year) : CountsDays d d.toDay where
  value := daysFromCivil_eq h hfits.1 hfits.2
  count := by
    have hd := dateOf_toDay h
    have hepoch : dateOf 0 = epochDate := by decide
    rcases Int.le_total 0 d.toDay with hpos | hneg
    · refine ⟨d.toDay.toNat, Or.inl ⟨(Int.toNat_of_nonneg hpos).symm, ?_⟩⟩
      rw [← hepoch, iterate_next_dateOf, Int.toNat_of_nonneg hpos, Int.zero_add, hd]
    · refine ⟨(-d.toDay).toNat, Or.inr ⟨by omega, ?_⟩⟩
      rw [← hd, iterate_next_dateOf, ← hepoch, hd]
      congr 1
      omega
  next hnext := by rw [daysFromCivil_eq h.next hnext.1 hnext.2, toDay_next h]

/-- What is shown of a date that is stored as the milliseconds of its day. -/
theorem dateSurvives (h : d.Valid) (hlo : 0 ≤ d.year) (hhi : d.year ≤ 9999) {e : EntryDoc}
    (he : e.header.date = some (d.toDay * 86400 * 1000)) : DateSurvives d e := by
  have hlen := length_strftimeDate_le h hlo hhi
  have hshown := @dateText_toDay d h 16 (by omega)
  rw [← he] at hshown
  have hday := h.day.2.trans (monthLength_le d.year d.month)
  have hmonth := h.month.2
  have hscan : scanDate (strftimeDate d) = some (d.year, (d.month : ℤ), (d.day : ℤ)) := by
    rw [strftimeDate_eq hlo, scanDate_padded (by omega) (by omega) (by omega), Int.toNat_of_nonneg hlo]
  have hfour (h1000 : 1000 ≤ d.year) : strftimeDate d = dateField d := strftimeDate_of_four h1000 hhi
  exact ⟨⟨_, hshown, hscan, hfour⟩, ⟨_, hshown, hscan, hfour⟩⟩

/-- **Dates survive the editor.** `days_from_civil` counts the days of the calendar, later ones for
later dates; and a date that was saved from a date field is shown again, by the editor and on the page. -/
theorem dates_survive :
    (∀ d : Date, d.Valid → FitsInt d.year → ∃ n, CountsDays d n) ∧
      (∀ d d' : Date, d.Valid → d'.Valid → FitsInt d.year → FitsInt d'.year →
        ∃ n n', daysFromCivil d.year d.month d.day = some n ∧
          daysFromCivil d'.year d'.month d'.day = some n' ∧ (n < n' ↔ d.Before d')) ∧
      ∀ d : Date, d.Valid → 0 ≤ d.year → d.year ≤ 9999 → ∃ saved, headerDate (dateField d) = some saved ∧
        ∀ (e : EntryDoc) (imageUrl : Bytes) (hideAuthor commentsClosed : Bool)
          (langs titleValues summaryValues : List Bytes),
          DateSurvives d
            (e.setHeader imageUrl saved hideAuthor commentsClosed langs titleValues summaryValues) := by
  refine ⟨fun d h hfits => ⟨_, countsDays h hfits⟩, ?_, ?_⟩
  · intro d d' h h' hfits hfits'
    exact ⟨_, _, daysFromCivil_eq h hfits.1 hfits.2, daysFromCivil_eq h' hfits'.1 hfits'.2,
      toDay_lt_toDay h h'⟩
  · intro d h hlo hhi
    refine ⟨_, headerDate_dateField h hlo hhi, fun e _ _ _ _ _ _ => ?_⟩
    exact dateSurvives h hlo hhi rfl

/-- 29 February 2024, saved for any entry. -/
theorem dates_survive_leapDay :
    (∃ n, CountsDays ⟨2024, 2, 29⟩ n) ∧
      (∃ n n', daysFromCivil 1900 2 28 = some n ∧ daysFromCivil 1900 3 1 = some n' ∧
        (n < n' ↔ Date.Before ⟨1900, 2, 28⟩ ⟨1900, 3, 1⟩)) ∧
      ∃ saved, headerDate (dateField ⟨2024, 2, 29⟩) = some saved ∧
        ∀ (e : EntryDoc) (imageUrl : Bytes) (hideAuthor commentsClosed : Bool)
          (langs titleValues summaryValues : List Bytes),
          DateSurvives ⟨2024, 2, 29⟩
            (e.setHeader imageUrl saved hideAuthor commentsClosed langs titleValues summaryValues) :=
  ⟨dates_survive.1 ⟨2024, 2, 29⟩ (by decide) ⟨by decide, by decide⟩,
    dates_survive.2.1 ⟨1900, 2, 28⟩ ⟨1900, 3, 1⟩ (by decide) (by decide)
      ⟨by decide, by decide⟩ ⟨by decide, by decide⟩,
    dates_survive.2.2 ⟨2024, 2, 29⟩ (by decide) (by decide) (by decide)⟩

end BoatRudder.Db
