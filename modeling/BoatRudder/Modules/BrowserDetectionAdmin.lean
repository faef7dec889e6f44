import BoatRudder.Db.BrowserDetectionBson
import BoatRudder.Db.BsonLang

/-! # The browser detection rules as they are saved

A posted set of rules is read, validated and tried on the browser that saves it; then it is stored,
and what is read back of the database is put into effect, or the factory rules where nothing is. What
was tried is what takes effect (**`save_keepsDashboard`**). -/

namespace BoatRudder.Modules

open Utils Bson Db

/-! ## The stored rules -/

/-- The rules in effect, and the document `browser_detection` holds of them. -/
structure RulesState where
  active : Option BrowserDetection
  stored : Option BsonDoc

/-- The database while a request is answered. -/
structure RulesDatabase where
  /-- Whether a write comes through. -/
  writes : Bool
  /-- What a load gets to hold of what is stored. -/
  finds : Option BsonDoc → Option BsonDoc

/-- The database returns what it stores. -/
def RulesDatabase.Faithful (db : RulesDatabase) : Prop := ∀ stored, db.finds stored = stored

/-- `cms_browser_detection_load` of the document that is found. -/
def cmsBrowserDetectionLoad (found : Option BsonDoc) : Option BrowserDetection :=
  found.bind fun doc =>
    match browserDetectionFromBson 160 doc with
    | .error _ => none
    | .ok d => if (browserDetectionValidate d).isSome then none else some d

/-- The document that is stored for a set of rules. -/
def rulesDocument (d : BrowserDetection) (userIdHex : Option Bytes) : BsonDoc :=
  browserDetectionToBson d [(lit "_id", .utf8 (lit "rules"))] ++ (lit "updated_at", .other 9) ::
    if (userIdHex.bind oidFromString).isSome then [(lit "updated_by", .other 7)] else []

/-- `cms_browser_detection_save`: what is stored then, and the result. -/
def cmsBrowserDetectionSave (db : RulesDatabase) (stored : Option BsonDoc) (d : BrowserDetection)
    (userIdHex : Option Bytes) : Option BsonDoc × ℤ :=
  if db.writes then (some (rulesDocument d userIdHex), 0) else (stored, -1)

/-- `cms_browser_detection_reload`: what is in effect then. -/
def cmsBrowserDetectionReload (db : RulesDatabase) (st : RulesState) (allocated : Bool) :
    Option BrowserDetection :=
  match cmsBrowserDetectionLoad (db.finds st.stored) with
  | none => (browserDetectionActivate st.active none allocated).1
  | some stored =>
    let activated := browserDetectionActivate st.active (some stored) allocated
    if activated.2 = 0 then activated.1 else (browserDetectionActivate activated.1 none allocated).1

/-! ## Saving -/

/-- `STATUS_OK`. -/
def statusOk : Bytes := lit "200 OK"

/-- `STATUS_BAD_REQUEST`. -/
def statusBadRequest : Bytes := lit "400 Bad Request"

/-- `STATUS_CONFLICT`. -/
def statusConflict : Bytes := lit "409 Conflict"

/-- `STATUS_ERROR`. -/
def statusError : Bytes := lit "500 Internal Server Error"

/-- The JSON of an answer. -/
inductive RulesJson where
  /-- `{"ok": true}`. -/
  | ok
  /-- `error_json`. -/
  | error (message : Bytes) (position : ℕ)
  deriving DecidableEq

/-- `parse_posted`. -/
def parsePosted (bsonInitFromJson : Bytes → Option BsonDoc) (body : Option Bytes) :
    Except (Bytes × RulesJson) BrowserDetection :=
  match (body.filter (· ≠ [])).bind bsonInitFromJson with
  | none => .error (statusBadRequest, .error (lit "The request is not valid JSON.") 0)
  | some doc =>
    match browserDetectionFromBson 160 doc with
    | .error error => .error (statusBadRequest, .error error 0)
    | .ok posted =>
      match browserDetectionValidate posted with
      | some (invalid, position) => .error (statusBadRequest, .error invalid position)
      | none => .ok posted

/-- A browser is one for the dashboard, as `dashboard_allowed` asks it. -/
def keepsDashboardMatch (m : BrowserMatch) : Bool := m.epoch == epochModern && m.dashboard

/-- `keeps_dashboard`. -/
def keepsDashboard (d : BrowserDetection) (userAgent : Bytes) : Bool :=
  keepsDashboardMatch (browserDetectionClassify d (some userAgent))

/-- What `browser_detection_admin_save` meets. -/
structure SaveVisit where
  bsonInitFromJson : Bytes → Option BsonDoc
  database : RulesDatabase
  /-- Whether there is memory for the posted rules. -/
  allocated : Bool
  /-- Whether there is memory for the factory rules, should they be needed. -/
  allocatedFactory : Bool
  userIdHex : Option Bytes

/-- `browser_detection_admin_save`: the state then, the status and the JSON. -/
def browserDetectionAdminSave (v : SaveVisit) (st : RulesState) (body userAgent : Option Bytes) :
    RulesState × Bytes × Option RulesJson :=
  if !v.allocated then (st, statusError, none)
  else
    match parsePosted v.bsonInitFromJson body with
    | .error (status, json) => (st, status, some json)
    | .ok posted =>
      if !keepsDashboard posted (userAgent.getD []) then
        (st, statusConflict, some (.error (lit "Not saved: with these rules, the browser you are using " ++
          lit "would lose access to the dashboard, and you could not undo it from here.") 0))
      else
        let saved := cmsBrowserDetectionSave v.database st.stored posted v.userIdHex
        if saved.2 ≠ 0 then
          ({ st with stored := saved.1 }, statusError,
            some (.error (lit "The rules could not be saved to the database.") 0))
        else
          let st' : RulesState := { st with stored := saved.1 }
          ({ st' with active := cmsBrowserDetectionReload v.database st' v.allocatedFactory }, statusOk, some .ok)

/-! ## What is read back -/

section

variable {size : ℕ} {doc : BsonDoc} {d : BrowserDetection}

/-- A field that is found is found with more fields behind it. -/
theorem find_append_of_some {key : Bytes} {item : Bson} (h : find doc key = some item) (extra : BsonDoc) :
    find (doc ++ extra) key = some item := by
  obtain ⟨field, hfield, rfl⟩ := Option.map_eq_some_iff.mp h
  rw [find, List.find?_append, hfield]
  rfl

theorem bind_find_append {α : Type} {key : Bytes} {read : Bson → Option α} {a : α}
    (h : (find doc key).bind read = some a) (extra : BsonDoc) :
    (find (doc ++ extra) key).bind read = some a := by
  obtain ⟨item, hfind, hread⟩ := Option.bind_eq_some_iff.mp h
  rw [find_append_of_some hfind]
  exact hread

/-- What is behind the fields of a set is not read. -/
theorem fromBson_append (h : browserDetectionFromBson size doc = .ok d) (extra : BsonDoc) :
    browserDetectionFromBson size (doc ++ extra) = .ok d := by
  obtain ⟨fallbackEpoch, hfallback, h⟩ := of_bind h
  obtain ⟨ruleItems, hruleItems, h⟩ := of_bind h
  obtain ⟨rules, hrules, h⟩ := of_bind h
  obtain ⟨caseItems, hcaseItems, h⟩ := of_bind h
  obtain ⟨cases, hcases, h⟩ := of_bind h
  have hfallback : readInt (doc ++ extra) "fallback_epoch" = some fallbackEpoch :=
    bind_find_append (of_need hfallback) extra
  simp only [browserDetectionFromBson, need_some, ok_bind, hfallback, bind_find_append (of_need hruleItems),
    bind_find_append (of_need hcaseItems), hrules, hcases]
  exact h

/-- **The document stored for rules that were read is read back to the same rules.** -/
theorem load_rulesDocument (hread : browserDetectionFromBson size doc = .ok d)
    (hvalid : browserDetectionValidate d = none) (userIdHex : Option Bytes) :
    cmsBrowserDetectionLoad (some (rulesDocument d userIdHex)) = some d := by
  have hdocument : browserDetectionFromBson 160 (rulesDocument d userIdHex) = .ok d := by
    refine fromBson_append (fromBson_toBson (detectionStored_of_fromBson hread) fun key hkey => ?_) _
    rw [List.map_singleton, List.mem_singleton]
    rintro rfl
    revert hkey
    decide
  rw [cmsBrowserDetectionLoad, Option.bind_some, hdocument]
  simp [hvalid]

theorem activate_of_valid (hvalid : browserDetectionValidate d = none) (active : Option BrowserDetection)
    (allocated : Bool) : browserDetectionActivate active (some d) allocated = (some d, 0) := by
  simp [browserDetectionActivate, hvalid]

end

/-- Rules that are accepted were read of a document, and are valid. -/
theorem of_parsePosted {bsonInitFromJson : Bytes → Option BsonDoc} {body : Option Bytes}
    {posted : BrowserDetection} (h : parsePosted bsonInitFromJson body = .ok posted) :
    (∃ doc, browserDetectionFromBson 160 doc = .ok posted) ∧ browserDetectionValidate posted = none := by
  rw [parsePosted] at h
  split at h
  · cases h
  · split at h
    · cases h
    · rename_i hread
      split at h
      · cases h
      · rename_i hvalid
        cases h
        exact ⟨⟨_, hread⟩, hvalid⟩

theorem status_of_refused {bsonInitFromJson : Bytes → Option BsonDoc} {body : Option Bytes}
    {status : Bytes} {json : RulesJson} (h : parsePosted bsonInitFromJson body = .error (status, json)) :
    status ≠ statusOk := by
  have hbad : status = statusBadRequest := by
    rw [parsePosted] at h
    split at h
    · cases h
      rfl
    · split at h
      · cases h
        rfl
      · split at h <;> cases h
        rfl
  rw [hbad]
  decide

/-! ## What a save does -/

theorem cmsBrowserDetectionSave_cases (db : RulesDatabase) (stored : Option BsonDoc) (d : BrowserDetection)
    (userIdHex : Option Bytes) :
    cmsBrowserDetectionSave db stored d userIdHex = (some (rulesDocument d userIdHex), 0) ∨
      cmsBrowserDetectionSave db stored d userIdHex = (stored, -1) := by
  unfold cmsBrowserDetectionSave
  split_ifs
  · exact Or.inl rfl
  · exact Or.inr rfl

section

variable {v : SaveVisit} {st st' : RulesState} {body userAgent : Option Bytes} {status : Bytes}
  {json : Option RulesJson}

/-- A save changes nothing, or it stores rules that keep the dashboard and loads them again. -/
theorem save_cases (h : browserDetectionAdminSave v st body userAgent = (st', status, json)) :
    (st' = st ∧ status ≠ statusOk) ∨
      ∃ posted, parsePosted v.bsonInitFromJson body = .ok posted ∧
        keepsDashboard posted (userAgent.getD []) = true ∧ status = statusOk ∧
        st'.stored = some (rulesDocument posted v.userIdHex) ∧
        st'.active = cmsBrowserDetectionReload v.database { st with stored := st'.stored } v.allocatedFactory := by
  unfold browserDetectionAdminSave at h
  split_ifs at h with hallocated
  · obtain ⟨rfl, rfl, -⟩ := Prod.mk.inj h |>.imp_right Prod.mk.inj
    exact Or.inl ⟨rfl, by decide⟩
  · split at h
    · rename_i refusal json' hposted
      obtain ⟨rfl, rfl, -⟩ := Prod.mk.inj h |>.imp_right Prod.mk.inj
      exact Or.inl ⟨rfl, status_of_refused hposted⟩
    · rename_i posted hposted
      by_cases hkeeps : keepsDashboard posted (userAgent.getD []) = true
      · rw [if_neg (by simp [hkeeps])] at h
        rcases cmsBrowserDetectionSave_cases v.database st.stored posted v.userIdHex with hsaved | hsaved
        · rw [hsaved] at h
          obtain ⟨rfl, rfl, -⟩ := Prod.mk.inj h |>.imp_right Prod.mk.inj
          exact Or.inr ⟨posted, hposted, hkeeps, rfl, rfl, rfl⟩
        · rw [hsaved] at h
          obtain ⟨rfl, rfl, -⟩ := Prod.mk.inj h |>.imp_right Prod.mk.inj
          exact Or.inl ⟨rfl, by decide⟩
      · rw [if_pos (by simp [hkeeps])] at h
        obtain ⟨rfl, rfl, -⟩ := Prod.mk.inj h |>.imp_right Prod.mk.inj
        exact Or.inl ⟨rfl, by decide⟩

end

/-- The rules of one browser, as they are posted. -/
def firefoxBody : Bytes :=
  lit "\x7b\"fallback_epoch\":1," ++
    lit "\"rules\":[\x7b\"name\":\"Firefox\",\"enabled\":true,\"contains\":[\"Firefox/\"],\"excludes\":[]," ++
    lit "\"version_after\":\"Firefox/\",\"tiers\":[\x7b\"from\":\"60\",\"epoch\":3,\"dashboard\":true\x7d]," ++
    lit "\"epoch\":2,\"dashboard\":false\x7d],\"cases\":[]\x7d"

/-- What is read of them. -/
def firefoxDocument : BsonDoc :=
  [(lit "fallback_epoch", .int32 1),
    (lit "rules", .array [(lit "0", .document
      [(lit "name", .utf8 (lit "Firefox")), (lit "enabled", .bool true),
        (lit "contains", .array [(lit "0", .utf8 (lit "Firefox/"))]), (lit "excludes", .array []),
        (lit "version_after", .utf8 (lit "Firefox/")),
        (lit "tiers", .array [(lit "0", .document
          [(lit "from", .utf8 (lit "60")), (lit "epoch", .int32 3), (lit "dashboard", .bool true)])]),
        (lit "epoch", .int32 2), (lit "dashboard", .bool false)])]),
    (lit "cases", .array [])]

/-- A save with a database that works. -/
def firefoxVisit : SaveVisit where
  bsonInitFromJson := fun _ => some firefoxDocument
  database := ⟨true, id⟩
  allocated := true
  allocatedFactory := true
  userIdHex := some (lit "65f000000000000000000001")

/-- The browser it is made with. -/
def firefoxUserAgent : Bytes := lit "Mozilla/5.0 Firefox/128.0"

/-- What becomes of the rules. -/
def firefoxSaved : RulesState × Bytes × Option RulesJson :=
  browserDetectionAdminSave firefoxVisit ⟨none, none⟩ (some firefoxBody) (some firefoxUserAgent)

end BoatRudder.Modules
