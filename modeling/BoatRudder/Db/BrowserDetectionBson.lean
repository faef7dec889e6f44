import BoatRudder.Formats.Bson
import BoatRudder.Utils.UsableRules
import Mathlib.Data.List.Forall2

/-! # Stored browser rules read back unchanged

`browser_detection_to_bson` and `browser_detection_from_bson`. What is read of any document lies in
memory as strings with zeros behind them, within the limits; a set that does is written and read back
byte for byte. A set that passes the validation may hold anything behind its strings, which is not
written: it reads back as the set of the same strings. -/

namespace BoatRudder.Db

open Utils Bson

/-! ## From BSON -/

variable {d : BrowserDetection} {r : BrowserRule}

/-- `fail`: the message cut to the buffer it is printed to. -/
def fail (size : ℕ) (message : Bytes) : Bytes := message.take (size - 1)

/-- `iter_int`. A double that is out of the range of an `int` is no `int` converted back. -/
def iterInt : Bson → Option ℤ
  | .int32 v => some v.toInt
  | .int64 v => if v.toInt < -1000 ∨ 1000 < v.toInt then none else some v.toInt
  | .double v => if v != v.toInt32.toFloat then none else some v.toInt32.toInt
  | _ => none

/-- `iter_string`: too long, or an embedded NUL. -/
def iterString (size : ℕ) : Bson → Option (CharBuf size)
  | .utf8 s => if size ≤ s.length ∨ s.contains 0 then none else some (.fill size s)
  | _ => none

/-- `bson_iter_bool`, of nothing else. -/
def iterBool : Bson → Option Bool
  | .bool b => some b
  | _ => none

/-- `read_string`. -/
def readString (size : ℕ) (doc : BsonDoc) (key : String) : Option (CharBuf size) :=
  (find doc (lit key)).bind (iterString size)

/-- `read_int`. -/
def readInt (doc : BsonDoc) (key : String) : Option ℤ := (find doc (lit key)).bind iterInt

/-- `read_bool`. -/
def readBool (doc : BsonDoc) (key : String) : Option Bool := (find doc (lit key)).bind iterBool

/-- `read_tokens`. -/
def readTokens (doc : BsonDoc) (key : String) : Option (List BrowserToken) :=
  ((find doc (lit key)).bind asArray).bind fun items =>
    (readItems browserTokensMax ()
      (fun _ item => (iterString browserTokenMax item).elim (.error ()) .ok) 0
      (items.map Prod.snd)).toOption

/-- A field that is needed. -/
def need {α : Type} (size : ℕ) (message : Bytes) (read : Option α) : Except Bytes α :=
  read.elim (.error (fail size message)) .ok

/-- A tier, as `read_rule` reads it. -/
def readTierFields (item : Bson) : Option BrowserTier :=
  (asDocument item).bind fun doc =>
    (readString browserVersionMax doc "from").bind fun fromVersion =>
      (readInt doc "epoch").bind fun epoch =>
        (readBool doc "dashboard").map fun dashboard => ⟨fromVersion, epoch, dashboard⟩

/-- What a message about a rule starts with. -/
def ruleMessage (n : ℕ) (rest : String) : Bytes := lit "rule " ++ decimal n ++ lit rest

/-- `read_rule`: the rule at `n`, counted from one. -/
def readRule (size n : ℕ) (item : Bson) : Except Bytes BrowserRule := do
  let doc ← need size (ruleMessage n " is not an object") (asDocument item)
  let name ← need size (ruleMessage n ": name missing or too long")
    (readString browserNameMax doc "name")
  let enabled ← need size (ruleMessage n ": enabled missing") (readBool doc "enabled")
  let contains ← need size
    (ruleMessage n ": contains must be a list of at most 32 tokens of under 64 bytes")
    (readTokens doc "contains")
  let excludes ← need size
    (ruleMessage n ": excludes must be a list of at most 32 tokens of under 64 bytes")
    (readTokens doc "excludes")
  let versionAfter ← need size (ruleMessage n ": version_after missing or too long")
    (readString browserTokenMax doc "version_after")
  let epoch ← need size (ruleMessage n ": epoch missing") (readInt doc "epoch")
  let dashboard ← need size (ruleMessage n ": dashboard missing") (readBool doc "dashboard")
  let items ← need size (ruleMessage n ": tiers missing") ((find doc (lit "tiers")).bind asArray)
  let tiers ← readItems browserTiersMax (fail size (ruleMessage n ": at most 8 tiers"))
    (fun t item => need size
      (ruleMessage n ": tier " ++ decimal (t + 1) ++ lit " needs from, epoch and dashboard")
      (readTierFields item)) 0 (items.map Prod.snd)
  return ⟨name, enabled, contains, excludes, versionAfter, tiers, epoch, dashboard⟩

/-- The fields of a test case. -/
def readCaseFields (item : Bson) : Option BrowserCase :=
  (asDocument item).bind fun doc =>
    (readString browserNameMax doc "name").bind fun name =>
      (readString browserUaMax doc "user_agent").bind fun userAgent =>
        (readInt doc "epoch").bind fun epoch =>
          (readBool doc "dashboard").map fun dashboard => ⟨name, userAgent, epoch, dashboard⟩

/-- `read_case`: the test case at `n`, counted from one. -/
def readCase (size n : ℕ) (item : Bson) : Except Bytes BrowserCase :=
  need size (lit "test case " ++ decimal n ++
    lit " needs name, user_agent (under 1024 bytes), epoch and dashboard") (readCaseFields item)

/-- `browser_detection_from_bson`, with an error buffer of `size`. -/
def browserDetectionFromBson (size : ℕ) (doc : BsonDoc) : Except Bytes BrowserDetection := do
  let fallbackEpoch ← need size (lit "fallback_epoch missing") (readInt doc "fallback_epoch")
  let items ← need size (lit "rules missing") ((find doc (lit "rules")).bind asArray)
  let rules ← readItems browserRulesMax (fail size (lit "at most 64 rules"))
    (fun n => readRule size (n + 1)) 0 (items.map Prod.snd)
  let items ← need size (lit "cases missing") ((find doc (lit "cases")).bind asArray)
  let cases ← readItems browserCasesMax (fail size (lit "at most 300 test cases"))
    (fun n => readCase size (n + 1)) 0 (items.map Prod.snd)
  return ⟨fallbackEpoch, rules, cases⟩

/-! ## To BSON -/

/-- `bson_append_utf8` of a buffer: the string in it. -/
def appendUtf8 {n : ℕ} (key : String) (b : CharBuf n) : Bytes × Bson := (lit key, .utf8 b.text)

/-- `bson_append_int32`. -/
def appendInt32 (key : String) (v : ℤ) : Bytes × Bson := (lit key, .int32 (.ofInt v))

/-- `bson_append_bool`. -/
def appendBool (key : String) (v : Bool) : Bytes × Bson := (lit key, .bool v)

/-- `append_tokens`. -/
def appendTokens (key : String) (list : List BrowserToken) : Bytes × Bson :=
  (lit key, .array (indexed (fun t => .utf8 t.text) list))

/-- A tier as it is written. -/
def tierFields (t : BrowserTier) : BsonDoc :=
  [appendUtf8 "from" t.fromVersion, appendInt32 "epoch" t.epoch, appendBool "dashboard" t.dashboard]

/-- A rule as it is written. -/
def ruleFields (r : BrowserRule) : BsonDoc :=
  [appendUtf8 "name" r.name, appendBool "enabled" r.enabled, appendTokens "contains" r.contains,
    appendTokens "excludes" r.excludes, appendUtf8 "version_after" r.versionAfter,
    (lit "tiers", .array (indexed (.document <| tierFields ·) r.tiers)), appendInt32 "epoch" r.epoch,
    appendBool "dashboard" r.dashboard]

/-- A test case as it is written. -/
def caseFields (c : BrowserCase) : BsonDoc :=
  [appendUtf8 "name" c.name, appendUtf8 "user_agent" c.userAgent, appendInt32 "epoch" c.epoch,
    appendBool "dashboard" c.dashboard]

/-- `browser_detection_to_bson`: what is appended to a document. -/
def browserDetectionToBson (d : BrowserDetection) (doc : BsonDoc) : BsonDoc :=
  doc ++ [appendInt32 "fallback_epoch" d.fallbackEpoch,
    (lit "rules", .array (indexed (.document <| ruleFields ·) d.rules)),
    (lit "cases", .array (indexed (.document <| caseFields ·) d.cases))]

/-! ## What is read of a document -/

/-- The values of an `int`. -/
def IsInt (v : ℤ) : Prop := -2 ^ 31 ≤ v ∧ v < 2 ^ 31

/-- A tier as it is read. -/
structure TierStored (t : BrowserTier) : Prop where
  fromVersion : t.fromVersion.Packed
  epoch : IsInt t.epoch

/-- A list of tokens as it is read. -/
structure TokensStored (list : List BrowserToken) : Prop where
  length_le : list.length ≤ browserTokensMax
  packed : ∀ t ∈ list, t.Packed

/-- A rule as it is read. -/
structure RuleStored (r : BrowserRule) : Prop where
  name : r.name.Packed
  contains : TokensStored r.contains
  excludes : TokensStored r.excludes
  versionAfter : r.versionAfter.Packed
  length_tiers : r.tiers.length ≤ browserTiersMax
  tiers : ∀ t ∈ r.tiers, TierStored t
  epoch : IsInt r.epoch

/-- A test case as it is read. -/
structure CaseStored (c : BrowserCase) : Prop where
  name : c.name.Packed
  userAgent : c.userAgent.Packed
  epoch : IsInt c.epoch

/-- A set of rules as it is read. -/
structure DetectionStored (d : BrowserDetection) : Prop where
  fallbackEpoch : IsInt d.fallbackEpoch
  length_rules : d.rules.length ≤ browserRulesMax
  rules : ∀ r ∈ d.rules, RuleStored r
  length_cases : d.cases.length ≤ browserCasesMax
  cases : ∀ c ∈ d.cases, CaseStored c

section

variable {α : Type} {v : ℤ}
variable {size n : ℕ} {doc : BsonDoc} {key : String} {item : Bson}

/-- What is read as an `int` is one. -/
theorem isInt_of_iterInt (h : iterInt item = some v) : IsInt v := by
  cases item with
  | int32 w =>
    obtain rfl := Option.some.inj h
    exact ⟨w.le_toInt, w.toInt_lt⟩
  | int64 w =>
    rw [iterInt] at h
    split_ifs at h with hrange
    obtain rfl := Option.some.inj h
    constructor <;> omega
  | double w =>
    rw [iterInt] at h
    split_ifs at h
    obtain rfl := Option.some.inj h
    exact ⟨w.toInt32.le_toInt, w.toInt32.toInt_lt⟩
  | utf8 | bool | document | array | other => cases h

/-- What is read into a buffer is packed, -/
theorem packed_of_iterString {b : CharBuf size} (h : iterString size item = some b) : b.Packed := by
  cases item with
  | utf8 s =>
    rw [iterString] at h
    split_ifs at h with hbad
    obtain rfl := Option.some.inj h
    rw [not_or, not_le] at hbad
    exact CharBuf.packed_fill (by simpa using hbad.2) hbad.1
  | int32 | int64 | double | bool | document | array | other => cases h

/-- also that of a field. -/
theorem packed_of_readString {b : CharBuf size} (h : readString size doc key = some b) : b.Packed := by
  obtain ⟨item, -, hitem⟩ := Option.bind_eq_some_iff.mp h
  exact packed_of_iterString hitem

/-- The `int` of a field is one. -/
theorem isInt_of_readInt (h : readInt doc key = some v) : IsInt v := by
  obtain ⟨item, -, hitem⟩ := Option.bind_eq_some_iff.mp h
  exact isInt_of_iterInt hitem

/-- What was read of an array is no longer than there is room for. -/
theorem length_le_of_readItems {ε : Type} {max : ℕ} {full : ε} {read : ℕ → Bson → Except ε α}
    {items : List Bson} {as : List α} (h : readItems max full read 0 items = .ok as) :
    as.length ≤ max := by
  by_cases hnil : as = []
  · simp [hnil]
  · simpa using (of_readItems h).1 hnil

theorem ok_of_toOption {ε : Type} {x : Except ε α} {a : α} (h : x.toOption = some a) :
    x = .ok a := by
  cases x with
  | error e => cases h
  | ok b => exact congrArg Except.ok (Option.some.inj h)

/-- The tokens that are read can be stored, -/
theorem tokensStored_of_readTokens {list : List BrowserToken} (h : readTokens doc key = some list) :
    TokensStored list := by
  obtain ⟨items, -, hread⟩ := Option.bind_eq_some_iff.mp h
  have hok := ok_of_toOption hread
  refine ⟨length_le_of_readItems hok, fun t ht => ?_⟩
  obtain ⟨k, item, hitem⟩ := (of_readItems hok).2 t ht
  cases hstring : iterString browserTokenMax item with
  | none =>
    rw [hstring] at hitem
    cases hitem
  | some b =>
    rw [hstring] at hitem
    cases hitem
    exact packed_of_iterString hstring

/-- a tier, -/
theorem tierStored_of_readTierFields {t : BrowserTier} (h : readTierFields item = some t) :
    TierStored t := by
  obtain ⟨doc, -, h⟩ := Option.bind_eq_some_iff.mp h
  obtain ⟨fromVersion, hfrom, h⟩ := Option.bind_eq_some_iff.mp h
  obtain ⟨epoch, hepoch, h⟩ := Option.bind_eq_some_iff.mp h
  obtain ⟨dashboard, -, rfl⟩ := Option.map_eq_some_iff.mp h
  exact ⟨packed_of_readString hfrom, isInt_of_readInt hepoch⟩

@[simp] theorem need_some (size : ℕ) (message : Bytes) (a : α) :
    need size message (some a) = .ok a := rfl

@[simp] theorem ok_bind {β : Type} (a : α) (f : α → Except Bytes β) : Except.ok a >>= f = f a := rfl

theorem of_need {message : Bytes} {read : Option α} {a : α}
    (h : need size message read = .ok a) : read = some a := by
  cases read with
  | none => cases h
  | some b =>
    cases h
    rfl

/-- A reading that succeeds, taken apart at its first step. -/
theorem of_bind {β : Type} {x : Except Bytes α} {f : α → Except Bytes β} {b : β}
    (h : x >>= f = .ok b) : ∃ a, x = .ok a ∧ f a = .ok b := by
  cases x with
  | error e => cases h
  | ok a => exact ⟨a, rfl, h⟩

/-- a rule, -/
theorem ruleStored_of_readRule {r : BrowserRule} (h : readRule size n item = .ok r) :
    RuleStored r := by
  obtain ⟨doc, -, h⟩ := of_bind h
  obtain ⟨name, hname, h⟩ := of_bind h
  obtain ⟨enabled, -, h⟩ := of_bind h
  obtain ⟨contains, hcontains, h⟩ := of_bind h
  obtain ⟨excludes, hexcludes, h⟩ := of_bind h
  obtain ⟨versionAfter, hafter, h⟩ := of_bind h
  obtain ⟨epoch, hepoch, h⟩ := of_bind h
  obtain ⟨dashboard, -, h⟩ := of_bind h
  obtain ⟨items, -, h⟩ := of_bind h
  obtain ⟨tiers, htiers, h⟩ := of_bind h
  cases h
  refine ⟨packed_of_readString (of_need hname), tokensStored_of_readTokens (of_need hcontains),
    tokensStored_of_readTokens (of_need hexcludes), packed_of_readString (of_need hafter),
    length_le_of_readItems htiers, fun t ht => ?_, isInt_of_readInt (of_need hepoch)⟩
  obtain ⟨k, item, hitem⟩ := (of_readItems htiers).2 t ht
  exact tierStored_of_readTierFields (of_need hitem)

/-- and a case. -/
theorem caseStored_of_readCase {c : BrowserCase} (h : readCase size n item = .ok c) :
    CaseStored c := by
  obtain ⟨doc, -, h⟩ := Option.bind_eq_some_iff.mp (of_need h)
  obtain ⟨name, hname, h⟩ := Option.bind_eq_some_iff.mp h
  obtain ⟨userAgent, hua, h⟩ := Option.bind_eq_some_iff.mp h
  obtain ⟨epoch, hepoch, h⟩ := Option.bind_eq_some_iff.mp h
  obtain ⟨dashboard, -, rfl⟩ := Option.map_eq_some_iff.mp h
  exact ⟨packed_of_readString hname, packed_of_readString hua, isInt_of_readInt hepoch⟩

/-- **Whatever document a set was read of, it is a stored one.** -/
theorem detectionStored_of_fromBson {d : BrowserDetection}
    (h : browserDetectionFromBson size doc = .ok d) : DetectionStored d := by
  obtain ⟨fallbackEpoch, hfallback, h⟩ := of_bind h
  obtain ⟨items, -, h⟩ := of_bind h
  obtain ⟨rules, hrules, h⟩ := of_bind h
  obtain ⟨items', -, h⟩ := of_bind h
  obtain ⟨cases_, hcases, h⟩ := of_bind h
  cases h
  refine ⟨isInt_of_readInt (of_need hfallback), length_le_of_readItems hrules, fun r hr => ?_,
    length_le_of_readItems hcases, fun c hc => ?_⟩
  · obtain ⟨k, item, hitem⟩ := (of_readItems hrules).2 r hr
    exact ruleStored_of_readRule hitem
  · obtain ⟨k, item, hitem⟩ := (of_readItems hcases).2 c hc
    exact caseStored_of_readCase hitem

/-! ## What is written is read -/

/-- An `int` is read back. -/
theorem iterInt_int32 (h : IsInt v) : iterInt (.int32 (.ofInt v)) = some v := by
  rw [iterInt, Int32.toInt_ofInt_of_le h.1 h.2]

/-- A packed text is read back. -/
theorem iterString_utf8 {b : CharBuf size} (h : b.Packed) : iterString size (.utf8 b.text) = some b := by
  have hlen := CharBuf.length_text_lt h.hasNul
  rw [iterString, if_neg (by simp [not_le.mpr hlen, b.zero_notMem_text])]
  exact congrArg some h.pack_eq

/-- So are a text in its field, -/
theorem readString_of_find {b : CharBuf size} (hfind : find doc (lit key) = some (.utf8 b.text))
    (h : b.Packed) : readString size doc key = some b := by
  rw [readString, hfind]
  exact iterString_utf8 h

/-- an `int`, -/
theorem readInt_of_find (hfind : find doc (lit key) = some (.int32 (.ofInt v)))
    (h : IsInt v) : readInt doc key = some v := by
  rw [readInt, hfind]
  exact iterInt_int32 h

/-- a flag, -/
theorem readBool_of_find {v : Bool} (hfind : find doc (lit key) = some (.bool v)) :
    readBool doc key = some v := by
  rw [readBool, hfind]
  rfl

/-- and a list of tokens. -/
theorem readTokens_of_find {list : List BrowserToken}
    (hfind : find doc (lit key) = some (appendTokens key list).2) (h : TokensStored list) :
    readTokens doc key = some list := by
  have hread : readItems browserTokensMax ()
      (fun _ item => (iterString browserTokenMax item).elim (.error ()) .ok) 0
      (list.map fun t => .utf8 t.text) = .ok list := by
    refine readItems_map (fun t ht _ => ?_) (by simpa using h.length_le)
    rw [iterString_utf8 (h.packed t ht)]
    rfl
  rw [readTokens, hfind]
  show (readItems _ _ _ _ ((indexed _ list).map Prod.snd)).toOption = _
  rw [map_snd_indexed, hread]
  rfl

/-- A tier is read back, -/
theorem readTierFields_tierFields {t : BrowserTier} (h : TierStored t) :
    readTierFields (.document (tierFields t)) = some t := by
  have hfrom : readString browserVersionMax (tierFields t) "from" = some t.fromVersion :=
    readString_of_find rfl h.fromVersion
  have hepoch : readInt (tierFields t) "epoch" = some t.epoch := readInt_of_find rfl h.epoch
  have hdashboard : readBool (tierFields t) "dashboard" = some t.dashboard := readBool_of_find rfl
  simp only [readTierFields, asDocument, Option.bind_some, hfrom, hepoch, hdashboard, Option.map_some]

/-- a rule, -/
theorem readRule_ruleFields {r : BrowserRule} (h : RuleStored r) :
    readRule size n (.document (ruleFields r)) = .ok r := by
  have hname : readString browserNameMax (ruleFields r) "name" = some r.name :=
    readString_of_find rfl h.name
  have henabled : readBool (ruleFields r) "enabled" = some r.enabled := readBool_of_find rfl
  have hcontains : readTokens (ruleFields r) "contains" = some r.contains :=
    readTokens_of_find rfl h.contains
  have hexcludes : readTokens (ruleFields r) "excludes" = some r.excludes :=
    readTokens_of_find rfl h.excludes
  have hafter : readString browserTokenMax (ruleFields r) "version_after" = some r.versionAfter :=
    readString_of_find rfl h.versionAfter
  have hepoch : readInt (ruleFields r) "epoch" = some r.epoch := readInt_of_find rfl h.epoch
  have hdashboard : readBool (ruleFields r) "dashboard" = some r.dashboard := readBool_of_find rfl
  have hitems : (find (ruleFields r) (lit "tiers")).bind asArray =
      some (indexed (.document <| tierFields ·) r.tiers) := rfl
  have htiers : readItems browserTiersMax (fail size (ruleMessage n ": at most 8 tiers"))
      (fun t item => need size
        (ruleMessage n ": tier " ++ decimal (t + 1) ++ lit " needs from, epoch and dashboard")
        (readTierFields item)) 0 (r.tiers.map (.document <| tierFields ·)) = .ok r.tiers := by
    refine readItems_map (fun t ht _ => ?_) (by simpa using h.length_tiers)
    rw [readTierFields_tierFields (h.tiers t ht), need_some]
  simp only [readRule, asDocument, need_some, ok_bind, hname, henabled, hcontains, hexcludes, hafter,
    hepoch, hdashboard, hitems, map_snd_indexed, htiers]
  rfl

/-- and a case. -/
theorem readCase_caseFields {c : BrowserCase} (h : CaseStored c) :
    readCase size n (.document (caseFields c)) = .ok c := by
  have hname : readString browserNameMax (caseFields c) "name" = some c.name :=
    readString_of_find rfl h.name
  have hua : readString browserUaMax (caseFields c) "user_agent" = some c.userAgent :=
    readString_of_find rfl h.userAgent
  have hepoch : readInt (caseFields c) "epoch" = some c.epoch := readInt_of_find rfl h.epoch
  have hdashboard : readBool (caseFields c) "dashboard" = some c.dashboard := readBool_of_find rfl
  simp only [readCase, readCaseFields, asDocument, Option.bind_some, hname, hua, hepoch, hdashboard,
    Option.map_some, need_some]

/-- Behind fields with other keys the fields of a stored set are read to it. -/
theorem fromBson_toBson {d : BrowserDetection} (h : DetectionStored d)
    (hdoc : ∀ key ∈ [lit "fallback_epoch", lit "rules", lit "cases"], key ∉ doc.map Prod.fst) :
    browserDetectionFromBson size (browserDetectionToBson d doc) = .ok d := by
  have hfind : ∀ key ∈ [lit "fallback_epoch", lit "rules", lit "cases"],
      find (browserDetectionToBson d doc) key = find (browserDetectionToBson d []) key :=
    fun key hkey => find_append (hdoc key hkey) _
  have hfallback : readInt (browserDetectionToBson d doc) "fallback_epoch" = some d.fallbackEpoch :=
    readInt_of_find (hfind _ (by simp)) h.fallbackEpoch
  have hruleItems : (find (browserDetectionToBson d doc) (lit "rules")).bind asArray =
      some (indexed (.document <| ruleFields ·) d.rules) := by
    rw [hfind _ (by simp)]
    rfl
  have hcaseItems : (find (browserDetectionToBson d doc) (lit "cases")).bind asArray =
      some (indexed (.document <| caseFields ·) d.cases) := by
    rw [hfind _ (by simp)]
    rfl
  have hrules : readItems browserRulesMax (fail size (lit "at most 64 rules"))
      (fun n => readRule size (n + 1)) 0 (d.rules.map (.document <| ruleFields ·)) = .ok d.rules :=
    readItems_map (fun r hr _ => readRule_ruleFields (h.rules r hr)) (by simpa using h.length_rules)
  have hcases : readItems browserCasesMax (fail size (lit "at most 300 test cases"))
      (fun n => readCase size (n + 1)) 0 (d.cases.map (.document <| caseFields ·)) = .ok d.cases :=
    readItems_map (fun c hc _ => readCase_caseFields (h.cases c hc)) (by simpa using h.length_cases)
  simp only [browserDetectionFromBson, need_some, ok_bind, hfallback, hruleItems, hcaseItems,
    map_snd_indexed, hrules, hcases]
  rfl

end

/-! ## Valid sets -/

/-- `same_rule` of the tiers. -/
def SameTier (a b : BrowserTier) : Prop :=
  a.fromVersion.text = b.fromVersion.text ∧ a.epoch = b.epoch ∧ a.dashboard = b.dashboard

/-- `same_rule`. -/
structure SameRule (a b : BrowserRule) : Prop where
  name : a.name.text = b.name.text
  enabled : a.enabled = b.enabled
  contains : a.contains.map CharBuf.text = b.contains.map CharBuf.text
  excludes : a.excludes.map CharBuf.text = b.excludes.map CharBuf.text
  versionAfter : a.versionAfter.text = b.versionAfter.text
  tiers : List.Forall₂ SameTier a.tiers b.tiers
  epoch : a.epoch = b.epoch
  dashboard : a.dashboard = b.dashboard

/-- The same test case. -/
structure SameCase (a b : BrowserCase) : Prop where
  name : a.name.text = b.name.text
  userAgent : a.userAgent.text = b.userAgent.text
  epoch : a.epoch = b.epoch
  dashboard : a.dashboard = b.dashboard

/-- The same set, field by field and in order. -/
structure SameDetection (a b : BrowserDetection) : Prop where
  fallbackEpoch : a.fallbackEpoch = b.fallbackEpoch
  rules : List.Forall₂ SameRule a.rules b.rules
  cases : List.Forall₂ SameCase a.cases b.cases

/-- A tier with nothing but zeros behind its string. -/
def packTier (t : BrowserTier) : BrowserTier := { t with fromVersion := t.fromVersion.pack }

/-- A rule with nothing but zeros behind its strings. -/
def packRule (r : BrowserRule) : BrowserRule :=
  { r with
    name := r.name.pack
    contains := r.contains.map CharBuf.pack
    excludes := r.excludes.map CharBuf.pack
    versionAfter := r.versionAfter.pack
    tiers := r.tiers.map packTier }

/-- A test case with nothing but zeros behind its strings. -/
def packCase (c : BrowserCase) : BrowserCase :=
  { c with name := c.name.pack, userAgent := c.userAgent.pack }

/-- A set with nothing but zeros behind its strings. -/
def packDetection (d : BrowserDetection) : BrowserDetection :=
  { d with rules := d.rules.map packRule, cases := d.cases.map packCase }

theorem isInt_of_epochValid {epoch : ℤ} (h : epochValid epoch = true) : IsInt epoch := by
  have hrange := epochValid_iff.mp h
  constructor <;> omega

theorem tokensStored_pack {list : List BrowserToken} (h : validateTokens list = none) :
    TokensStored (list.map CharBuf.pack) := by
  obtain ⟨hlen, htokens⟩ := validateTokens_eq_none_iff.mp h
  refine ⟨by simpa using hlen, fun t ht => ?_⟩
  obtain ⟨u, hu, rfl⟩ := List.mem_map.mp ht
  exact CharBuf.packed_pack (htokens u hu).1.1

theorem ruleStored_packRule (h : r.Usable) : RuleStored (packRule r) where
  name := CharBuf.packed_pack h.name.1
  contains := tokensStored_pack h.contains
  excludes := tokensStored_pack h.excludes
  versionAfter := CharBuf.packed_pack h.versionAfter.1
  length_tiers := by simpa [packRule] using h.length_tiers
  tiers := by
    intro t ht
    obtain ⟨u, hu, rfl⟩ := List.mem_map.mp ht
    exact ⟨CharBuf.packed_pack (h.tiers u hu).hasNul, isInt_of_epochValid (h.tiers u hu).epoch⟩
  epoch := isInt_of_epochValid h.epoch

theorem detectionStored_packDetection (h : d.Usable) : DetectionStored (packDetection d) where
  fallbackEpoch := isInt_of_epochValid h.fallbackEpoch
  length_rules := by simpa [packDetection] using h.length_rules
  rules := by
    intro r hr
    obtain ⟨q, hq, rfl⟩ := List.mem_map.mp hr
    exact ruleStored_packRule (h.rules q hq)
  length_cases := by simpa [packDetection] using h.length_cases
  cases := by
    intro c hc
    obtain ⟨b, hb, rfl⟩ := List.mem_map.mp hc
    have hcase := h.cases b hb
    exact ⟨CharBuf.packed_pack hcase.name.1, CharBuf.packed_pack hcase.userAgent.1,
      isInt_of_epochValid hcase.epoch⟩

/-- Two lists compared item by item, the second made from the first. -/
theorem forall₂_map {α : Type} {R : α → α → Prop} {f : α → α} {list : List α}
    (h : ∀ a ∈ list, R a (f a)) : List.Forall₂ R list (list.map f) := by
  rw [List.forall₂_map_right_iff, List.forall₂_same]
  exact h

theorem map_text_pack {list : List BrowserToken} (h : validateTokens list = none) :
    (list.map CharBuf.pack).map CharBuf.text = list.map CharBuf.text := by
  rw [List.map_map]
  refine List.map_congr_left fun t ht => ?_
  exact CharBuf.text_pack ((validateTokens_eq_none_iff.mp h).2 t ht).1.1

theorem sameRule_packRule (h : r.Usable) : SameRule r (packRule r) where
  name := (CharBuf.text_pack h.name.1).symm
  enabled := rfl
  contains := (map_text_pack h.contains).symm
  excludes := (map_text_pack h.excludes).symm
  versionAfter := (CharBuf.text_pack h.versionAfter.1).symm
  tiers := forall₂_map fun t ht => ⟨(CharBuf.text_pack (h.tiers t ht).hasNul).symm, rfl, rfl⟩
  epoch := rfl
  dashboard := rfl

theorem sameDetection_packDetection (h : d.Usable) : SameDetection d (packDetection d) where
  fallbackEpoch := rfl
  rules := forall₂_map fun r hr => sameRule_packRule (h.rules r hr)
  cases := forall₂_map fun c hc =>
    ⟨(CharBuf.text_pack (h.cases c hc).name.1).symm,
      (CharBuf.text_pack (h.cases c hc).userAgent.1).symm, rfl, rfl⟩

/-- What is behind the strings is not written. -/
theorem ruleFields_packRule (h : r.Usable) : ruleFields (packRule r) = ruleFields r := by
  have htokens : ∀ {list : List BrowserToken} (key : String), validateTokens list = none →
      appendTokens key (list.map CharBuf.pack) = appendTokens key list := by
    intro list key hlist
    have hmap : ∀ l : List BrowserToken, indexed (fun t : BrowserToken => .utf8 t.text) l =
        indexed .utf8 (l.map CharBuf.text) := by simp [indexed, List.zipIdx_map]
    rw [appendTokens, appendTokens, hmap, hmap, map_text_pack hlist]
  have htiers : indexed (.document <| tierFields ·) (r.tiers.map packTier) =
      indexed (.document <| tierFields ·) r.tiers := by
    simp only [indexed, List.zipIdx_map, List.map_map]
    refine List.map_congr_left fun p hp => ?_
    have ht := h.tiers p.1 (List.fst_mem_of_mem_zipIdx hp)
    simp [tierFields, packTier, appendUtf8, CharBuf.text_pack ht.hasNul]
  simp only [ruleFields, packRule, appendUtf8, htokens _ h.contains, htokens _ h.excludes, htiers,
    CharBuf.text_pack h.name.1, CharBuf.text_pack h.versionAfter.1]

theorem toBson_packDetection (h : d.Usable) (doc : BsonDoc) :
    browserDetectionToBson (packDetection d) doc = browserDetectionToBson d doc := by
  have hrules : indexed (.document <| ruleFields ·) (d.rules.map packRule) =
      indexed (.document <| ruleFields ·) d.rules := by
    simp only [indexed, List.zipIdx_map, List.map_map]
    refine List.map_congr_left fun p hp => ?_
    simp [ruleFields_packRule (h.rules p.1 (List.fst_mem_of_mem_zipIdx hp))]
  have hcases : indexed (.document <| caseFields ·) (d.cases.map packCase) =
      indexed (.document <| caseFields ·) d.cases := by
    simp only [indexed, List.zipIdx_map, List.map_map]
    refine List.map_congr_left fun p hp => ?_
    have hc := h.cases p.1 (List.fst_mem_of_mem_zipIdx hp)
    simp [caseFields, packCase, appendUtf8, CharBuf.text_pack hc.name.1,
      CharBuf.text_pack hc.userAgent.1]
  simp only [browserDetectionToBson, packDetection, hrules, hcases]

/-- **A valid set is written and read back to the same set, and whatever is read of a document is
written to a document that is read to it.** -/
theorem storedRules_roundTrip (size : ℕ) :
    (∀ d, browserDetectionValidate d = none →
      ∃ d', browserDetectionFromBson size (browserDetectionToBson d []) = .ok d' ∧
        SameDetection d d') ∧
      ∀ doc d, browserDetectionFromBson size doc = .ok d →
        browserDetectionFromBson size (browserDetectionToBson d []) = .ok d := by
  refine ⟨fun d hvalid => ?_, fun doc d hread =>
    fromBson_toBson (detectionStored_of_fromBson hread) (by simp)⟩
  have husable := browserDetectionValidate_eq_none_iff.mp hvalid
  refine ⟨packDetection d, ?_, sameDetection_packDetection husable⟩
  rw [← toBson_packDetection husable]
  exact fromBson_toBson (detectionStored_packDetection husable) (by simp)

/-- The factory rules, with the error buffer that is used. -/
theorem storedRules_roundTrip_factory :
    ∃ d, browserDetectionFromBson 160 (browserDetectionToBson browserDetectionFactory []) = .ok d ∧
      SameDetection browserDetectionFactory d ∧
      browserDetectionFromBson 160 (browserDetectionToBson d []) = .ok d := by
  obtain ⟨d, hread, hsame⟩ := (storedRules_roundTrip 160).1 browserDetectionFactory
    (browserDetectionValidate_eq_none_iff.mpr usable_factory)
  exact ⟨d, hread, hsame, (storedRules_roundTrip 160).2 _ d hread⟩

end BoatRudder.Db
