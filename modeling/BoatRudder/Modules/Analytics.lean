import BoatRudder.Formats.Calendar
import BoatRudder.Runs.Tally
import BoatRudder.Text.Padded

/-! # Visits and their reports

`analytics_track_visit` counts a visit in the document of its day, and in that of its entry and day,
under labels for the year, the month and the week; `analytics_view` adds up the documents that
`build_period_filter` selects by these. The breakdowns by browser, system, country, route and epoch
that both carry along are left out. -/

namespace BoatRudder.Analytics

open Calendar

/-! ## What is tracked -/

/-- `BOT_TOKENS`. -/
def botTokens : List Bytes :=
  [lit "bot", lit "crawl", lit "spider", lit "slurp", lit "mediapartners",
    lit "facebookexternalhit", lit "baiduspider", lit "yandex", lit "sogou",
    lit "ia_archiver", lit "archive.org", lit "pingdom", lit "uptimerobot",
    lit "curl/", lit "python-requests", lit "wget/", lit "java/", lit "go-http"]

/-- `SKIP_PREFIXES`. -/
def skipPrefixes : List Bytes := [lit "/dashboard"]

/-- `STATIC_EXTENSIONS`. -/
def staticExtensions : List Bytes :=
  [lit ".css", lit ".js", lit ".png", lit ".jpg", lit ".jpeg", lit ".gif", lit ".ico",
    lit ".svg", lit ".woff", lit ".woff2", lit ".ttf", lit ".otf", lit ".eot",
    lit ".webp", lit ".mp4", lit ".webm", lit ".pdf", lit ".zip", lit ".gz",
    lit ".map", lit ".json", lit ".wbmp"]

/-- `is_bot`: a token stands in the first 511 bytes of the user agent. -/
def isBot (ua : Option Bytes) : Bool :=
  match ua with
  | none => false
  | some ua => botTokens.any fun token => (findSub token (lower (ua.take 511))).isSome

/-- `has_static_extension`: what follows the last dot of the last segment, the query apart. -/
def hasStaticExtension (url : Bytes) : Bool :=
  let path := url.takeWhile (· ≠ 63)
  let segment := path.reverse.takeWhile (· ≠ 47)
  if 46 ∈ segment then
    let ext := 46 :: (segment.takeWhile (· ≠ 46)).reverse
    if 16 ≤ ext.length then false else staticExtensions.contains (lower ext)
  else false

/-- `should_skip_url`. -/
def shouldSkipUrl (url : Bytes) : Bool :=
  skipPrefixes.any (·.isPrefixOf url) || hasStaticExtension url

/-- What follows a prefix, when anything does. -/
def afterPrefix (pre url : Bytes) : Option Bytes :=
  if pre.isPrefixOf url ∧ url.drop pre.length ≠ [] then some (url.drop pre.length) else none

/-- `classify_url`: the type and the slug of the entry an address is for. -/
def classifyUrl (url : Bytes) : Option (Bytes × Bytes) :=
  match afterPrefix (lit "/blog/category/") url with
  | some slug => some (lit "category", slug.take 255)
  | none =>
    match afterPrefix (lit "/blog/") url with
    | some slug => some (lit "blog", slug.take 255)
    | none => (afterPrefix (lit "/page/") url).map fun slug => (lit "page", slug.take 255)

/-! ## Buckets -/

/-- `day_key`: `YYYY-MM-DD`. -/
def dayKey (z : ℤ) : Bytes :=
  signedPadded 4 (dateOf z).year ++ (45 :: padded 2 (dateOf z).month ++
    (45 :: padded 2 (dateOf z).day))

/-- What a document is made with. -/
structure Labels where
  /-- `date`. -/
  date : Bytes
  /-- `year`. -/
  year : ℤ
  /-- `month`. -/
  month : ℤ
  /-- `week`: `%V`. -/
  week : ℤ
  /-- `entry_type` and `slug`, in `entry_visits_daily`. -/
  entry : Option (Bytes × Bytes)
  deriving DecidableEq

/-- A document of a day, under its `_id`. -/
abbrev Bucket := Tally Bytes Labels

/-- The labels of a day, for an entry or without one. -/
def labelsOf (z : ℤ) (entry : Option (Bytes × Bytes)) : Labels :=
  ⟨dayKey z, (dateOf z).year, (dateOf z).month, isoWeek z, entry⟩

/-- `entry_id`. -/
def entryId (entry : Bytes × Bytes) (z : ℤ) : Bytes :=
  entry.1 ++ lit "__" ++ entry.2 ++ lit "__" ++ dayKey z

/-- `upsert_daily_bucket`, when the database takes it. -/
def upsertDailyBucket (taken : Bool) (docId : Bytes) (setOnInsert : Labels) (docs : List Bucket) :
    List Bucket :=
  if taken then Tally.bump docId setOnInsert docs else docs

/-- A call of `analytics_track_visit`, and whether the database takes its writes. -/
structure Visit where
  /-- `method`. -/
  method : Bytes
  /-- `url`. -/
  url : Bytes
  /-- `user_agent`. -/
  userAgent : Option Bytes
  /-- `time(NULL)`. -/
  time : ℤ
  /-- The write to `page_visits_daily` is taken. -/
  pageTaken : Bool
  /-- The write to `entry_visits_daily` is taken. -/
  entryTaken : Bool

/-- The day of a visit, in UTC. -/
def Visit.day (v : Visit) : ℤ := v.time / 86400

/-- The two collections. -/
structure Store where
  /-- `page_visits_daily`. -/
  pageVisits : List Bucket
  /-- `entry_visits_daily`. -/
  entryVisits : List Bucket

/-- A visit that passes the checks. -/
def Visit.tracked (v : Visit) : Bool :=
  v.method == lit "GET" && v.url != [] && !shouldSkipUrl v.url && !isBot v.userAgent

/-- `analytics_track_visit`. -/
def analyticsTrackVisit (store : Store) (v : Visit) : Store :=
  if v.tracked then
    { pageVisits := upsertDailyBucket v.pageTaken (dayKey v.day) (labelsOf v.day none)
        store.pageVisits
      entryVisits :=
        match classifyUrl v.url with
        | none => store.entryVisits
        | some entry => upsertDailyBucket v.entryTaken (entryId entry v.day)
            (labelsOf v.day (some entry)) store.entryVisits }
  else store

/-- The collections after a run of visits. -/
def trackVisits (visits : List Visit) : Store := visits.foldl analyticsTrackVisit ⟨[], []⟩

/-! ## Reports -/

/-- The filters `build_period_filter` makes. -/
inductive Filter
  /-- `{id_field: date}`. -/
  | is (date : Bytes)
  /-- `{year, week}`. -/
  | week (y w : ℤ)
  /-- `{year}`. -/
  | year (y : ℤ)
  /-- `{}`. -/
  | all
  /-- `{id_field: {$gte: from, $lte: to}}`. -/
  | between (fromDate toDate : Bytes)
  /-- `{year, month}`. -/
  | month (y m : ℤ)
  deriving DecidableEq

/-- What the parameters of a report are. -/
structure Query where
  /-- `period`, empty for none. -/
  period : Bytes
  /-- `year`. -/
  year : ℤ
  /-- `month`. -/
  month : ℤ
  /-- `week`. -/
  week : ℤ
  /-- `date`. -/
  date : Bytes
  /-- `from`. -/
  fromDate : Bytes
  /-- `to`. -/
  toDate : Bytes

/-- `build_period_filter`. -/
def buildPeriodFilter (q : Query) : Filter :=
  if q.period = lit "day" then .is q.date
  else if q.period = lit "week" then .week q.year q.week
  else if q.period = lit "year" then .year q.year
  else if q.period = lit "all" then .all
  else if q.period = lit "range" then .between q.fromDate q.toDate
  else .month q.year q.month

/-- Whether a document passes, `idField` being what its day is read from. -/
def Filter.selects (idField : Bucket → Bytes) (b : Bucket) : Filter → Bool
  | .is date => idField b == date
  | .week y w => b.info.year == y && b.info.week == w
  | .year y => b.info.year == y
  | .all => true
  | .between fromDate toDate => decide (fromDate ≤ idField b) && decide (idField b ≤ toDate)
  | .month y m => b.info.year == y && b.info.month == m

/-- The defaults of `analytics_view`, for a day. -/
def Query.withDefaults (q : Query) (today : ℤ) : Query where
  period := if q.period = [] then lit "month" else q.period
  year := if q.year ≤ 0 then (dateOf today).year else q.year
  month := if q.month ≤ 0 then (dateOf today).month else q.month
  week := if q.week ≤ 0 then isoWeek today else q.week
  date := if q.date = [] then dayKey today else q.date
  fromDate := if q.fromDate = [] then dayKey today else q.fromDate
  toDate := if q.toDate = [] then dayKey today else q.toDate

/-- An `int`, which a sum that is too large does not fit. -/
def toInt (v : ℤ) : ℤ := (v + 2 ^ 31) % 2 ^ 32 - 2 ^ 31

/-- `merge_daily_doc`: a `total` is added while it is an int32, which `$inc` leaves once it is too
large for one. -/
def mergeDailyDoc (total : ℤ) (b : Bucket) : ℤ :=
  if b.total < 2 ^ 31 then toInt (total + b.total) else total

/-- `query_page_visits`. -/
def queryPageVisits (f : Filter) (docs : List Bucket) : ℤ :=
  (docs.filter fun b => f.selects Tally.key b).foldl mergeDailyDoc 0

/-- The filter of a report that is asked for on a day. -/
def reportFilter (q : Query) (today : ℤ) : Filter := buildPeriodFilter (q.withDefaults today)

/-- The total of `analytics_view`. -/
def analyticsView (store : Store) (q : Query) (today : ℤ) : ℤ :=
  queryPageVisits (reportFilter q today) store.pageVisits

end BoatRudder.Analytics
