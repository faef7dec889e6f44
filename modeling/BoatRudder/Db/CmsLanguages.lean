import BoatRudder.Runs.Calls
import BoatRudder.Runs.Collection
import BoatRudder.Text.Bytes

/-! # The content languages

The collection `languages`: adding one, making one the default, removing one. Each access to the
database is a step of its own and can fail; between two of them another request may take its own. -/

namespace BoatRudder.Db

/-! ## The catalog -/

/-- `LANGUAGE_CATALOG`: the code and the English name. -/
def languageCatalog : List (Bytes × Bytes) :=
  [(lit "en", lit "English"), (lit "es", lit "Spanish"), (lit "fr", lit "French"),
    (lit "de", lit "German"), (lit "it", lit "Italian"), (lit "pt", lit "Portuguese"),
    (lit "nl", lit "Dutch"), (lit "ru", lit "Russian"), (lit "zh", lit "Chinese"),
    (lit "ja", lit "Japanese"), (lit "ko", lit "Korean"), (lit "ar", lit "Arabic"),
    (lit "hi", lit "Hindi"), (lit "tr", lit "Turkish"), (lit "pl", lit "Polish"),
    (lit "sv", lit "Swedish"), (lit "da", lit "Danish"), (lit "no", lit "Norwegian"),
    (lit "fi", lit "Finnish"), (lit "el", lit "Greek"), (lit "cs", lit "Czech"),
    (lit "ro", lit "Romanian"), (lit "hu", lit "Hungarian"), (lit "uk", lit "Ukrainian"),
    (lit "vi", lit "Vietnamese")]

/-- `language_catalog_name`. -/
def languageCatalogName (code : Bytes) : Option Bytes :=
  (languageCatalog.find? (·.1 = code)).map (·.2)

/-! ## Documents -/

/-- A document of `languages`. -/
structure Language where
  code : Bytes
  name : Bytes
  isDefault : Bool
  deriving DecidableEq, Repr

/-- The collection. -/
abbrev Languages := List Language

/-- What `cms_languages_ensure_seeded` leaves of an empty collection. -/
def seededLanguages : Languages := [⟨lit "en", lit "English", true⟩]

/-- `cms_languages_ensure_seeded`, when its count is answered. -/
def languagesEnsureSeeded (langs : Languages) : Languages :=
  if langs.length = 0 then seededLanguages else langs

namespace Languages

/-- The update that makes a language the default, or no longer. -/
def mark (isDefault : Bool) (l : Language) : Language := { l with isDefault }

/-- The first document with this code. -/
def withCode (langs : Languages) (code : Bytes) : Option Language :=
  langs.find? fun l => l.code = code

end Languages

/-! ## Calls -/

/-- Which of the three functions is called. -/
inductive LanguageAction
  | add
  | setDefault
  | remove
  deriving DecidableEq, Repr

/-- How `mongoc_collection_update_many` ends: on every document, or with an error after some. -/
inductive ManyOutcome
  | done
  | failed (reached : Bytes → Bool)

/-- A call with its argument, and which of its accesses to the database are answered. -/
structure LanguageRequest where
  action : LanguageAction
  code : Bytes
  /-- `mongodb_manager_get_collection`. -/
  ready : Bool := true
  /-- The count of all the languages. -/
  totalRead : Bool := true
  /-- The query for the language with the code. -/
  codeRead : Bool := true
  clear : ManyOutcome := .done
  /-- The last write. -/
  write : WriteOutcome := .done

/-- The access to the database a call is about to make. -/
inductive LanguagePhase
  /-- The count of all the languages, in `cms_add_language` and `cms_remove_language`. -/
  | total
  /-- The count of the languages with the code, in `cms_add_language`. -/
  | existing (total : ℕ)
  | insert (isDefault : Bool)
  /-- The count of the languages with the code, in `cms_set_default_language`. -/
  | target
  | clear
  | set
  /-- The language to remove. -/
  | find
  | delete
  /-- The call has returned. -/
  | done (rc : ℤ)
  deriving DecidableEq, Repr

/-- A call on its way. -/
structure LanguageCall where
  req : LanguageRequest
  phase : LanguagePhase

namespace LanguageCall

variable (langs : Languages) (c : LanguageCall)

/-- Whether a call has returned. -/
def returned : Bool :=
  match c.phase with
  | .done _ => true
  | _ => false

/-- `ok ? 0 : -1`. -/
def rc (write : WriteOutcome) : LanguagePhase := .done (if write = .done then 0 else -1)

/-- Where a call goes from an access to the database. -/
def next : LanguagePhase :=
  match c.phase with
  | .total =>
    match c.req.action with
    | .add =>
      if (languageCatalogName c.req.code).isNone || !c.req.ready || !c.req.totalRead then
        .done (-1)
      else .existing langs.length
    | _ =>
      if !c.req.ready || !c.req.totalRead || langs.length ≤ 1 then .done (-1) else .find
  | .existing total =>
    if !c.req.codeRead || langs.countP (·.code = c.req.code) ≠ 0 then .done (-1)
    else .insert (total == 0)
  | .insert _ => rc c.req.write
  | .target =>
    if !c.req.ready || !c.req.codeRead || langs.countP (·.code = c.req.code) ≠ 1 then .done (-1)
    else .clear
  | .clear =>
    match c.req.clear with
    | .done => .set
    | .failed _ => .done (-1)
  | .set => rc c.req.write
  | .find =>
    if c.req.codeRead && (langs.withCode c.req.code).any (!·.isDefault) then .delete
    else .done (-1)
  | .delete => rc c.req.write
  | .done rc => .done rc

/-- What a call writes. -/
def wrote : Languages :=
  match c.phase with
  | .insert isDefault =>
    if c.req.write = .failed then langs
    else langs ++ [⟨c.req.code, (languageCatalogName c.req.code).getD [], isDefault⟩]
  | .clear =>
    match c.req.clear with
    | .done => langs.map (Languages.mark false)
    | .failed reached => langs.map fun l => if reached l.code then Languages.mark false l else l
  | .set =>
    if c.req.write = .failed then langs
    else Collection.updateOne (fun l => l.code = c.req.code) (Languages.mark true) langs
  | .delete =>
    if c.req.write = .failed then langs else langs.eraseP fun l => l.code = c.req.code
  | _ => langs

/-- One step of a call. -/
def act : Languages × LanguageCall := (c.wrote langs, { c with phase := c.next langs })

end LanguageCall

/-- Where a call begins. -/
def LanguageRequest.start (r : LanguageRequest) : LanguagePhase :=
  match r.action with
  | .setDefault => .target
  | _ => .total

/-- The calls on the collection, once it is seeded. -/
def cmsLanguages : Service Languages LanguageCall LanguageRequest Empty where
  init := languagesEnsureSeeded []
  begin := fun r => ⟨r, r.start⟩
  act := LanguageCall.act
  env := fun langs _ => langs

end BoatRudder.Db
