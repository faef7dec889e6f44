import BoatRudder.Modules.Analytics

/-! # The days of a report

A report counts the visits of its period's days: the key of a day is its own, keys of four-digit
years are in the order of the days, and the labels of a day name its year, its month and its week,
except that the week of the days around New Year is labelled with the year they are in. -/

namespace BoatRudder.Analytics

open Calendar

/-! ## Keys -/

variable {visits : List Visit} {z z' : ℤ}

/-- A year that `YYYY` has room for. -/
def FourDigits (z : ℤ) : Prop := 0 ≤ yearOf z ∧ yearOf z ≤ 9999

theorem dayKey_inj : dayKey z = dayKey z' ↔ z = z' := by
  constructor
  · intro h
    have hmonth (x : ℤ) : (padded 2 (dateOf x).month).length = 2 :=
      length_padded (by decide) (lt_trans (dateOf_bounds x).1 (by decide))
    have hday (x : ℤ) : (padded 2 (dateOf x).day).length = 2 :=
      length_padded (by decide) (lt_trans (dateOf_bounds x).2 (by decide))
    obtain ⟨hyear, hrest⟩ := List.append_inj' h (by simp [hmonth, hday])
    obtain ⟨hmonths, hdays⟩ := List.append_inj (List.cons.inj hrest).2 (by rw [hmonth, hmonth])
    refine dateOf_injective ?_
    have hy := signedPadded_inj.mp hyear
    have hm := padded_inj.mp hmonths
    have hd := padded_inj.mp (List.cons.inj hdays).2
    cases hz : dateOf z
    cases hz' : dateOf z'
    simp only [hz, hz'] at hy hm hd
    rw [hy, hm, hd]
  · rintro rfl
    rfl

/-- **Keys are in the order of their days**, where they have four digits for the year. -/
theorem dayKey_lt_iff (hz : FourDigits z) (hz' : FourDigits z') :
    dayKey z < dayKey z' ↔ z < z' := by
  have hyear {x : ℤ} (hx : FourDigits x) : (dateOf x).year.toNat < 10 ^ 4 := by
    have : (dateOf x).year = yearOf x := rfl
    obtain ⟨hlo, hhi⟩ := hx
    omega
  have hmonth (x : ℤ) : (dateOf x).month < 10 ^ 2 := lt_trans (dateOf_bounds x).1 (by decide)
  have hday (x : ℤ) : (dateOf x).day < 10 ^ 2 := lt_trans (dateOf_bounds x).2 (by decide)
  have hlen4 : (padded 4 (dateOf z).year.toNat).length = (padded 4 (dateOf z').year.toNat).length := by
    rw [length_padded (by decide) (hyear hz), length_padded (by decide) (hyear hz')]
  have hlen2 : (padded 2 (dateOf z).month).length = (padded 2 (dateOf z').month).length := by
    rw [length_padded (by decide) (hmonth z), length_padded (by decide) (hmonth z')]
  have hdash {s t : Bytes} : (45 : UInt8) :: s < 45 :: t ↔ s < t := by
    simp
  have h0 : 0 ≤ (dateOf z).year := hz.1
  have h0' : 0 ≤ (dateOf z').year := hz'.1
  rw [dayKey, dayKey, signedPadded_of_nonneg h0, signedPadded_of_nonneg h0',
    append_lt_append_iff hlen4, List.cons_append, List.cons_append, hdash,
    append_lt_append_iff hlen2, hdash,
    padded_lt_iff (by decide) (hyear hz) (hyear hz'), padded_inj,
    padded_lt_iff (by decide) (hmonth z) (hmonth z'), padded_inj,
    padded_lt_iff (by decide) (hday z) (hday z'), lt_iff_dateOf]
  omega

theorem dayKey_le_iff (hz : FourDigits z) (hz' : FourDigits z') :
    dayKey z ≤ dayKey z' ↔ z ≤ z' := by
  rw [← List.not_lt, dayKey_lt_iff hz' hz, not_lt]

/-- The key of a year before the year 0 stands before all others. -/
theorem not_dayKey_le_of_neg {a : ℤ} (hz : yearOf z < 0) (ha : 0 ≤ yearOf a) :
    ¬ dayKey a ≤ dayKey z := by
  rw [List.not_le]
  obtain ⟨b, s, hb, hle, -⟩ := head_padded 4 (dateOf a).year.toNat
  have hneg : (dateOf z).year < 0 := hz
  have hnonneg : 0 ≤ (dateOf a).year := ha
  rw [dayKey, dayKey, signedPadded_of_nonneg hnonneg, hb, signedPadded, if_pos hneg,
    List.cons_append, List.cons_append, List.cons_append, List.cons_append, List.cons_lt_cons_iff]
  left
  exact UInt8.lt_of_lt_of_le (show (45 : UInt8) < 48 by decide) hle

/-! ## Periods -/

/-- What a report can be about. -/
inductive Period
  /-- A day. -/
  | day (z : ℤ)
  /-- A week of ISO 8601. -/
  | week (y w : ℤ)
  /-- A month. -/
  | month (y m : ℤ)
  /-- A year. -/
  | year (y : ℤ)
  /-- The days from one to another. -/
  | range (a b : ℤ)
  /-- All time. -/
  | all

/-- The days of a period. -/
def Period.Has : Period → ℤ → Prop
  | .day d, z => z = d
  | .week y w, z => InWeek y w z
  | .month y m, z => (dateOf z).year = y ∧ (dateOf z).month = m
  | .year y, z => (dateOf z).year = y
  | .range a b, z => a ≤ z ∧ z ≤ b
  | .all, _ => True

instance (p : Period) (z : ℤ) : Decidable (p.Has z) := by
  cases p <;> unfold Period.Has <;> infer_instance

/-- A report asked for on a day is about a period. Any other word than the five is for a month. -/
def Period.Asked (p : Period) (q : Query) (today : ℤ) : Prop :=
  let q := q.withDefaults today
  match p with
  | .day z => q.period = lit "day" ∧ q.date = dayKey z
  | .week y w => q.period = lit "week" ∧ q.year = y ∧ q.week = w
  | .month y m => q.period ∉ [lit "day", lit "week", lit "year", lit "all", lit "range"] ∧
      q.year = y ∧ q.month = m
  | .year y => q.period = lit "year" ∧ q.year = y
  | .range a b => q.period = lit "range" ∧ q.fromDate = dayKey a ∧ q.toDate = dayKey b ∧
      FourDigits a ∧ FourDigits b
  | .all => q.period = lit "all"

/-- What `build_period_filter` selects a period by. -/
def Period.filter : Period → Filter
  | .day z => .is (dayKey z)
  | .week y w => .week y w
  | .month y m => .month y m
  | .year y => .year y
  | .range a b => .between (dayKey a) (dayKey b)
  | .all => .all

variable {p : Period}

theorem Period.Asked.reportFilter_eq {q : Query} {today : ℤ} (h : p.Asked q today) :
    reportFilter q today = p.filter := by
  have hnames : (lit "week" ≠ lit "day") ∧ (lit "year" ≠ lit "day" ∧ lit "year" ≠ lit "week") ∧
      (lit "all" ≠ lit "day" ∧ lit "all" ≠ lit "week" ∧ lit "all" ≠ lit "year") ∧
      (lit "range" ≠ lit "day" ∧ lit "range" ≠ lit "week" ∧ lit "range" ≠ lit "year" ∧
        lit "range" ≠ lit "all") := by decide
  obtain ⟨hweek, ⟨hyear1, hyear2⟩, ⟨hall1, hall2, hall3⟩, hrange1, hrange2, hrange3, hrange4⟩ := hnames
  rw [reportFilter, buildPeriodFilter]
  cases p with
  | day z =>
    obtain ⟨hperiod, hdate⟩ := h
    rw [if_pos hperiod, hdate]
    rfl
  | week y w =>
    obtain ⟨hperiod, hy, hw⟩ := h
    rw [hperiod, if_neg hweek, if_pos rfl, hy, hw]
    rfl
  | month y m =>
    obtain ⟨hperiod, hy, hm⟩ := h
    simp only [List.mem_cons, List.not_mem_nil, or_false, not_or] at hperiod
    obtain ⟨h1, h2, h3, h4, h5⟩ := hperiod
    rw [if_neg h1, if_neg h2, if_neg h3, if_neg h4, if_neg h5, hy, hm]
    rfl
  | year y =>
    obtain ⟨hperiod, hy⟩ := h
    rw [hperiod, if_neg hyear1, if_neg hyear2, if_pos rfl, hy]
    rfl
  | range a b =>
    obtain ⟨hperiod, ha, hb, -, -⟩ := h
    rw [hperiod, if_neg hrange1, if_neg hrange2, if_neg hrange3, if_neg hrange4, if_pos rfl, ha, hb]
    rfl
  | all =>
    have hperiod : (q.withDefaults today).period = lit "all" := h
    rw [hperiod, if_neg hall1, if_neg hall2, if_neg hall3, if_pos rfl]
    rfl

/-! ## Days that are selected -/

/-- The day of a document does not mislead the report of a period. For a week those days do that are
in the week with its number at an end of the year, when they are in a week of the year before or
after; for a range those do, beyond the year 9999, whose keys stand between those of its ends. -/
def Period.Tells : Period → ℤ → Prop
  | .week y w, z => ¬ (isoWeek z = w ∧ (InLastWeek z ∧ (yearOf z = y ∨ yearOf z - 1 = y) ∨
      InNextWeek z ∧ (yearOf z = y ∨ yearOf z + 1 = y)))
  | .range a b, z => ¬ (9999 < yearOf z ∧ dayKey a ≤ dayKey z ∧ dayKey z ≤ dayKey b)
  | _, _ => True

/-- **A document of a day is selected as the day is in the period**, exactly when it tells so. -/
theorem selects_iff_has_iff (hp : ∀ a b, p = .range a b → FourDigits a ∧ FourDigits b)
    {idField : Bucket → Bytes} {b : Bucket} {entry : Option (Bytes × Bytes)}
    (hid : idField b = dayKey z) (hinfo : b.info = labelsOf z entry) :
    (p.filter.selects idField b = true ↔ p.Has z) ↔ p.Tells z := by
  have hyear : (dateOf z).year = yearOf z := rfl
  cases p with
  | day d =>
    simp only [Period.filter, Filter.selects, hid, beq_iff_eq, dayKey_inj, Period.Has, Period.Tells]
  | week y w =>
    simp only [Period.filter, Filter.selects, hinfo, labelsOf, hyear, Bool.and_eq_true, beq_iff_eq,
      Period.Has, inWeek_iff, Period.Tells, isoYear_eq]
    -- the two years differ at the ends of a year
    split_ifs with hlast hnext
    · simp only [hlast, not_inNextWeek hlast, true_and, false_and, or_false]
      by_cases hw : isoWeek z = w
      · simp only [hw, and_true, true_and]
        omega
      · simp [hw]
    · simp only [hlast, hnext, true_and, false_and, false_or]
      by_cases hw : isoWeek z = w
      · simp only [hw, and_true, true_and]
        omega
      · simp [hw]
    · simp [hlast, hnext]
  | month y m =>
    simp only [Period.filter, Filter.selects, hinfo, labelsOf, Bool.and_eq_true, beq_iff_eq,
      Period.Has, Period.Tells]
  | year y =>
    simp only [Period.filter, Filter.selects, hinfo, labelsOf, beq_iff_eq, Period.Has, Period.Tells]
  | range a b =>
    obtain ⟨ha, hb⟩ := hp a b rfl
    simp only [Period.filter, Filter.selects, hid, Bool.and_eq_true, decide_eq_true_eq, Period.Has,
      Period.Tells]
    by_cases hneg : yearOf z < 0
    · -- before every key, and before every day
      have hkey := not_dayKey_le_of_neg hneg ha.1
      have hday : ¬ a ≤ z := fun hle => by
        have := yearOf_mono hle
        have := ha.1
        omega
      simp [hkey, hday]
    · by_cases hlarge : 9999 < yearOf z
      · have hday : ¬ z ≤ b := fun hle => by
          have := yearOf_mono hle
          have := hb.2
          omega
        simp [hlarge, hday]
      · have hz : FourDigits z := ⟨by omega, by omega⟩
        simp [dayKey_le_iff ha hz, dayKey_le_iff hz hb, hlarge]
  | all => simp only [Period.filter, Filter.selects, Period.Has, Period.Tells]

/-! ## Totals -/

theorem toInt_eq {v : ℤ} (h : 0 ≤ v ∧ v < 2 ^ 31) : toInt v = v := by
  rw [toInt]
  omega

theorem toInt_lt (v : ℤ) : toInt v < 2 ^ 31 := by
  rw [toInt]
  omega

/-- **The documents of a period are added up**, while they fit an `int`. -/
theorem foldl_mergeDailyDoc {docs : List Bucket} {total : ℤ} (h0 : 0 ≤ total)
    (h : total + (docs.map Tally.total).sum < 2 ^ 31) :
    docs.foldl mergeDailyDoc total = total + (docs.map Tally.total).sum := by
  induction docs generalizing total with
  | nil => simp
  | cons b docs ih =>
    rw [List.map_cons, List.sum_cons, Nat.cast_add] at h ⊢
    have hb : b.total < 2 ^ 31 := by omega
    rw [List.foldl_cons, mergeDailyDoc, if_pos hb, toInt_eq (by omega), ih (by omega) (by omega)]
    omega

theorem foldl_mergeDailyDoc_lt {docs : List Bucket} {total : ℤ} (h : total < 2 ^ 31) :
    docs.foldl mergeDailyDoc total < 2 ^ 31 := by
  induction docs generalizing total with
  | nil => exact h
  | cons b docs ih =>
    rw [List.foldl_cons]
    refine ih ?_
    rw [mergeDailyDoc]
    split_ifs
    · exact toInt_lt _
    · exact h

/-! ## Visits -/

/-- A visit that is counted, on its day. -/
def Visit.counted (v : Visit) : Bool := v.tracked && v.pageTaken

/-- The entry a visit is counted for. -/
def Visit.countedEntry (v : Visit) : Option (Bytes × Bytes) :=
  if v.tracked && v.entryTaken then classifyUrl v.url else none

/-- A visit that a document of its day was made or changed for. -/
def Visit.Recorded (v : Visit) : Prop := v.counted = true ∨ v.countedEntry.isSome = true

/-- What is counted for entries. -/
def entryEvents (visits : List Visit) : List ((Bytes × Bytes) × ℤ) :=
  visits.filterMap fun v => v.countedEntry.map fun entry => (entry, v.day)

theorem mem_entryEvents {e : (Bytes × Bytes) × ℤ} :
    e ∈ entryEvents visits ↔ ∃ v ∈ visits, v.countedEntry = some e.1 ∧ v.day = e.2 := by
  rw [entryEvents, List.mem_filterMap]
  refine exists_congr fun v => and_congr_right fun _ => ?_
  rw [Option.map_eq_some_iff]
  constructor
  · rintro ⟨entry, hentry, rfl⟩
    exact ⟨hentry, rfl⟩
  · rintro ⟨hentry, hday⟩
    exact ⟨e.1, hentry, by rw [hday]⟩

/-- **The documents count the visits**, by day and by entry and day. -/
theorem trackVisits_eq (visits : List Visit) :
    trackVisits visits =
      { pageVisits := Tally.count (fun v => dayKey v.day) (fun v => labelsOf v.day none)
          (visits.filter Visit.counted)
        entryVisits := Tally.count (fun e => entryId e.1 e.2) (fun e => labelsOf e.2 (some e.1))
          (entryEvents visits) } := by
  induction visits using List.reverseRecOn with
  | nil => rfl
  | append_singleton visits v ih =>
    have hrun : trackVisits (visits ++ [v]) = analyticsTrackVisit (trackVisits visits) v := by
      rw [trackVisits, List.foldl_append]
      rfl
    have hevents : entryEvents (visits ++ [v]) = entryEvents visits ++ entryEvents [v] := by
      rw [entryEvents, List.filterMap_append]
      rfl
    rw [hrun, ih, List.filter_append, hevents, analyticsTrackVisit]
    cases htracked : v.tracked
    · have hcounted : v.counted = false := by simp [Visit.counted, htracked]
      have hentry : v.countedEntry = none := by simp [Visit.countedEntry, htracked]
      simp [hcounted, hentry, entryEvents]
    · have hcounted : v.counted = v.pageTaken := by simp [Visit.counted, htracked]
      have hentry : v.countedEntry = if v.entryTaken then classifyUrl v.url else none := by
        simp [Visit.countedEntry, htracked]
      rw [if_pos rfl, List.filter_singleton, hcounted]
      congr 1
      · cases v.pageTaken
        · simp [upsertDailyBucket]
        · simp [upsertDailyBucket, Tally.count_concat]
      · cases hclassify : classifyUrl v.url with
        | none => simp [entryEvents, hentry, hclassify]
        | some entry =>
          cases htaken : v.entryTaken
          · simp [entryEvents, hentry, htaken, upsertDailyBucket]
          · simp [entryEvents, hentry, htaken, hclassify, upsertDailyBucket, Tally.count_concat]

theorem underscore_notMem_dayKey (z : ℤ) : 95 ∉ dayKey z := by
  have hpadded (w n : ℕ) : 95 ∉ padded w n := fun h =>
    absurd (isDigit_of_mem_padded h) (by decide)
  have hyear : 95 ∉ signedPadded 4 (dateOf z).year := by
    unfold signedPadded
    split_ifs
    · simp [hpadded]
    · exact hpadded _ _
  simp [dayKey, hyear, hpadded]

/-- The day of an entry's document is what follows its last underscore. -/
theorem entryId_day {e e' : Bytes × Bytes} (h : entryId e z = entryId e' z') : z = z' := by
  have hlast (e : Bytes × Bytes) (z : ℤ) :
      (entryId e z).reverse.takeWhile (· ≠ 95) = (dayKey z).reverse := by
    have hall : ∀ c ∈ (dayKey z).reverse, decide (c ≠ 95) = true := by
      intro c hc
      simpa using fun heq : c = 95 => underscore_notMem_dayKey z (heq ▸ List.mem_reverse.mp hc)
    have hsep : (lit "__").reverse = [95, 95] := by decide
    rw [entryId, List.reverse_append, List.takeWhile_append_of_pos hall, List.reverse_append, hsep]
    simp
  have heq := congrArg (fun s => s.reverse.takeWhile (· ≠ 95)) h
  simp only [hlast, List.reverse_inj] at heq
  exact dayKey_inj.mp heq

/-! ## Reports -/

/-- The visits counted on the days of a period. -/
def visitsIn (p : Period) (visits : List Visit) : ℕ :=
  visits.countP fun v => v.counted && decide (p.Has v.day)

/-- **A report counts exactly the days of its period.** -/
structure ReportExact (visits : List Visit) (q : Query) (today : ℤ) (p : Period) : Prop where
  /-- The documents of the site that are selected are those of the days of the period. -/
  pageDocuments : ∀ b ∈ (trackVisits visits).pageVisits, ∀ z, b.info.date = dayKey z →
    ((reportFilter q today).selects Tally.key b = true ↔ p.Has z)
  /-- And so are those of its entries. -/
  entryDocuments : ∀ b ∈ (trackVisits visits).entryVisits, ∀ z, b.info.date = dayKey z →
    ((reportFilter q today).selects (·.info.date) b = true ↔ p.Has z)
  /-- The total is the number of visits counted on these days. -/
  total : analyticsView (trackVisits visits) q today = visitsIn p visits

theorem selects_pageVisits_iff (hp : ∀ a b, p = .range a b → FourDigits a ∧ FourDigits b) :
    (∀ b ∈ (trackVisits visits).pageVisits, ∀ z, b.info.date = dayKey z →
      (p.filter.selects Tally.key b = true ↔ p.Has z)) ↔
      ∀ v ∈ visits, v.counted = true → p.Tells v.day := by
  rw [trackVisits_eq]
  constructor
  · intro h v hv hcounted
    obtain ⟨b, hb, hkey⟩ : ∃ b ∈ Tally.count (fun v => dayKey v.day) (fun v => labelsOf v.day none)
        (visits.filter Visit.counted), b.key = dayKey v.day :=
      Tally.exists_mem_count (List.mem_filter.mpr ⟨hv, hcounted⟩)
    obtain ⟨u, -, hukey, hinfo⟩ := Tally.exists_of_mem_count hb
    have hday : u.day = v.day := dayKey_inj.mp (hukey.trans hkey)
    rw [hday] at hinfo
    exact (selects_iff_has_iff hp hkey hinfo.symm).mp (h b hb v.day (by rw [← hinfo]; rfl))
  · intro h b hb z hz
    obtain ⟨v, hv, hkey, hinfo⟩ := Tally.exists_of_mem_count hb
    obtain ⟨hmem, hcounted⟩ := List.mem_filter.mp hv
    rw [← hinfo] at hz
    obtain rfl := dayKey_inj.mp hz
    exact (selects_iff_has_iff hp hkey.symm hinfo.symm).mpr (h v hmem hcounted)

theorem selects_entryVisits_iff (hp : ∀ a b, p = .range a b → FourDigits a ∧ FourDigits b) :
    (∀ b ∈ (trackVisits visits).entryVisits, ∀ z, b.info.date = dayKey z →
      (p.filter.selects (·.info.date) b = true ↔ p.Has z)) ↔
      ∀ v ∈ visits, v.countedEntry.isSome = true → p.Tells v.day := by
  rw [trackVisits_eq]
  constructor
  · intro h v hv hcounted
    obtain ⟨entry, hentry⟩ := Option.isSome_iff_exists.mp hcounted
    have hevent : (entry, v.day) ∈ entryEvents visits := mem_entryEvents.mpr ⟨v, hv, hentry, rfl⟩
    obtain ⟨b, hb, hkey⟩ : ∃ b ∈ Tally.count (fun e => entryId e.1 e.2)
        (fun e => labelsOf e.2 (some e.1)) (entryEvents visits), b.key = entryId entry v.day :=
      Tally.exists_mem_count hevent
    obtain ⟨u, -, hukey, hinfo⟩ := Tally.exists_of_mem_count hb
    have hday : u.2 = v.day := entryId_day (hukey.trans hkey)
    rw [hday] at hinfo
    have hdate : b.info.date = dayKey v.day := by rw [← hinfo]; rfl
    exact (selects_iff_has_iff hp hdate hinfo.symm).mp (h b hb v.day hdate)
  · intro h b hb z hz
    obtain ⟨e, he, hkey, hinfo⟩ := Tally.exists_of_mem_count hb
    obtain ⟨v, hv, hentry, hday⟩ := mem_entryEvents.mp he
    rw [← hinfo] at hz
    obtain rfl := dayKey_inj.mp hz
    have htells := h v hv (by rw [hentry]; rfl)
    rw [hday] at htells
    exact (selects_iff_has_iff hp (by rw [← hinfo]; rfl) hinfo.symm).mpr htells

open Classical in
/-- What the documents that are selected count together. -/
theorem sum_selected {f : Filter}
    (h : ∀ b ∈ (trackVisits visits).pageVisits, ∀ z, b.info.date = dayKey z →
      (f.selects Tally.key b = true ↔ p.Has z)) :
    (((trackVisits visits).pageVisits.filter fun b => f.selects Tally.key b).map Tally.total).sum =
      visitsIn p visits := by
  -- by the key of a document's day
  let ofKey : Bytes → Bool := fun k => decide (∃ z, dayKey z = k ∧ p.Has z)
  have hkey (z : ℤ) : ofKey (dayKey z) = decide (p.Has z) := by
    refine decide_eq_decide.mpr ⟨?_, fun hz => ⟨z, rfl, hz⟩⟩
    rintro ⟨z', heq, hz'⟩
    rwa [dayKey_inj.mp heq] at hz'
  have hfilter : ((trackVisits visits).pageVisits.filter fun b => f.selects Tally.key b) =
      (trackVisits visits).pageVisits.filter fun b => ofKey b.key := by
    refine List.filter_congr fun b hb => ?_
    have hb' := hb
    rw [trackVisits_eq] at hb'
    obtain ⟨v, -, hbkey, hinfo⟩ := Tally.exists_of_mem_count hb'
    have hselects := h b hb v.day (by rw [← hinfo]; rfl)
    rw [← hbkey, hkey, Bool.eq_iff_iff, decide_eq_true_eq]
    exact hselects
  have hsum : Tally.sum (fun b => ofKey b.key) (Tally.count (fun v => dayKey v.day)
      (fun v => labelsOf v.day none) (visits.filter Visit.counted)) =
        (visits.filter Visit.counted).countP fun v => ofKey (dayKey v.day) :=
    Tally.sum_count fun _ => rfl
  rw [hfilter, trackVisits_eq]
  refine hsum.trans ?_
  rw [List.countP_filter, visitsIn]
  refine List.countP_congr fun v _ => ?_
  rw [hkey, Bool.and_comm]

/-- **A report counts exactly the days of its period** exactly when no visit was on a day that
misleads it, and an `int` holds the number of the visits on its days. -/
theorem reportExact_iff {visits : List Visit} {q : Query} {today : ℤ} {p : Period}
    (hp : p.Asked q today) :
    ReportExact visits q today p ↔
      (∀ v ∈ visits, v.Recorded → p.Tells v.day) ∧ visitsIn p visits < 2 ^ 31 := by
  have hrange : ∀ a b, p = .range a b → FourDigits a ∧ FourDigits b := by
    rintro a b rfl
    exact ⟨hp.2.2.2.1, hp.2.2.2.2⟩
  have hfilter := hp.reportFilter_eq
  have htotal (h : ∀ b ∈ (trackVisits visits).pageVisits, ∀ z, b.info.date = dayKey z →
      (p.filter.selects Tally.key b = true ↔ p.Has z)) :
      analyticsView (trackVisits visits) q today = visitsIn p visits ↔
        visitsIn p visits < 2 ^ 31 := by
    have hsum := sum_selected h
    rw [analyticsView, hfilter, queryPageVisits]
    constructor
    · intro heq
      have hlt : ((trackVisits visits).pageVisits.filter fun b =>
          p.filter.selects Tally.key b).foldl mergeDailyDoc 0 < 2 ^ 31 :=
        foldl_mergeDailyDoc_lt (by decide)
      rw [heq] at hlt
      exact_mod_cast hlt
    · intro hlt
      rw [foldl_mergeDailyDoc le_rfl (by rw [hsum]; omega), hsum, zero_add]
  constructor
  · rintro ⟨hpage, hentry, hview⟩
    rw [hfilter] at hpage hentry
    refine ⟨fun v hv hrecorded => ?_, (htotal hpage).mp hview⟩
    exact hrecorded.elim ((selects_pageVisits_iff hrange).mp hpage v hv)
      ((selects_entryVisits_iff hrange).mp hentry v hv)
  · rintro ⟨htells, hlt⟩
    have hpage := (selects_pageVisits_iff hrange).mpr fun v hv h => htells v hv (Or.inl h)
    refine ⟨?_, ?_, (htotal hpage).mpr hlt⟩
    · rw [hfilter]
      exact hpage
    · rw [hfilter]
      exact (selects_entryVisits_iff hrange).mpr fun v hv h => htells v hv (Or.inr h)

/-- A visit of the home page on 1 January 2027, a Friday. -/
def newYearVisit : Visit := ⟨lit "GET", lit "/", none, 1798761600, true, true⟩

/-- The report of the last week of 2026 is asked for. -/
def lastWeekQuery : Query := ⟨lit "week", 2026, 0, 53, [], [], []⟩

/-- It is exact for what that visit leaves, or not. -/
theorem reportExact_lastWeek :
    (Period.week 2026 53).Asked lastWeekQuery 20819 ∧
      (ReportExact [newYearVisit] lastWeekQuery 20819 (.week 2026 53) ↔
        (∀ v ∈ [newYearVisit], v.Recorded → (Period.week 2026 53).Tells v.day) ∧
          visitsIn (.week 2026 53) [newYearVisit] < 2 ^ 31) :=
  have hasked : (Period.week 2026 53).Asked lastWeekQuery 20819 := by
    refine ⟨?_, ?_, ?_⟩ <;> decide
  ⟨hasked, reportExact_iff hasked⟩

/-- The visit is in that week, and its report does not count it. -/
theorem not_reportExact_newYear :
    ¬ ∀ visits q today p, Period.Asked p q today → ReportExact visits q today p := by
  intro h
  have hasked : (Period.week 2026 53).Asked lastWeekQuery 20819 := by
    refine ⟨?_, ?_, ?_⟩ <;> decide
  have htotal := (h [newYearVisit] lastWeekQuery 20819 (.week 2026 53) hasked).total
  have hview : analyticsView (trackVisits [newYearVisit]) lastWeekQuery 20819 = 0 := by
    decide
  have hin : visitsIn (.week 2026 53) [newYearVisit] = 1 := by decide
  rw [hview, hin] at htotal
  cases htotal

/-- **Every day is in exactly one week's report**: that of its labels, though not always of its own
week. -/
theorem existsUnique_weekReport (idField : Bucket → Bytes) {b : Bucket}
    {entry : Option (Bytes × Bytes)} (hinfo : b.info = labelsOf z entry) :
    ∃! yw : ℤ × ℤ, (Period.week yw.1 yw.2).filter.selects idField b = true := by
  refine ⟨(yearOf z, isoWeek z), ?_, ?_⟩
  · simp [Period.filter, Filter.selects, hinfo, labelsOf, dateOf]
  · rintro ⟨y, w⟩ h
    simp only [Period.filter, Filter.selects, hinfo, labelsOf, dateOf, Bool.and_eq_true,
      beq_iff_eq] at h
    rw [← h.1, ← h.2]

end BoatRudder.Analytics
