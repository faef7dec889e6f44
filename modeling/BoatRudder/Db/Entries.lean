import BoatRudder.Db.EntryContent
import BoatRudder.Db.UsersAdmin

/-! # The entries of the site

The collection `entries` and what the dashboard does with it: an entry is created, its meta data, its
header or its content are saved, it is deleted. Every write names the entry by its id, and leaves the
others as they are. -/

namespace BoatRudder.Db

/-! ## Documents -/

/-- `header`. -/
structure EntryHeader where
  imageUrl : Bytes
  title : LangMap
  summary : LangMap
  hideAuthor : Bool
  /-- In milliseconds. -/
  date : Option ℤ
  authorId : Option IdHex
  deriving DecidableEq, Repr

/-- A document of `entries`. -/
structure EntryDoc where
  id : IdHex
  link : Bytes
  type : Bytes
  enabled : Bool
  categories : List IdHex
  header : EntryHeader
  commentsClosed : Bool
  content : List StoredBlock
  createdBy : Option IdHex
  deriving DecidableEq, Repr

/-- What `cms_create_entry` inserts. -/
def EntryDoc.new (oid : IdHex) (createdByIdHex : Option Bytes) (type : Bytes) : EntryDoc where
  id := oid
  link := []
  type := type
  enabled := false
  categories := []
  header := ⟨[], [], [], false, none, createdByIdHex.bind oidFromString⟩
  commentsClosed := false
  content := []
  createdBy := createdByIdHex.bind oidFromString

/-- What `cms_update_entry_meta` sets. -/
def EntryDoc.setMeta (link type : Bytes) (enabled : Bool) (categoryIds : List Bytes) (e : EntryDoc) : EntryDoc :=
  { e with link, type, enabled, categories := categoryIds.filterMap oidFromString }

/-- What `cms_update_entry_header` sets; the date stays where none is read. -/
def EntryDoc.setHeader (imageUrl : Bytes) (date : Option ℤ) (hideAuthor commentsClosed : Bool)
    (langs titleValues summaryValues : List Bytes) (e : EntryDoc) : EntryDoc :=
  { e with
    header := { e.header with
      imageUrl, hideAuthor
      title := e.header.title.setPaths langs titleValues
      summary := e.header.summary.setPaths langs summaryValues
      date := date.or e.header.date }
    commentsClosed }

/-- What a write to the content sets. -/
def EntryDoc.setContent (content : List StoredBlock) (e : EntryDoc) : EntryDoc := { e with content }

/-- `can_edit_entry`. -/
def canEditEntry (role userId : Bytes) (e : EntryDoc) : Bool :=
  roleSeesEverything role ||
    (role == lit "author" && e.type == lit "blog" && e.createdBy.getD [] == userId)

/-! ## The collection -/

/-- The collection. -/
abbrev Entries : Type := List EntryDoc

namespace Entries

variable (entries : Entries)

/-- `cms_get_entry_for_edit`. -/
def getEntryForEdit (idHex : Bytes) : Option EntryDoc :=
  (oidFromString idHex).bind fun oid => entries.find? fun e => e.id = oid

/-- The update of one entry, and whether it returned 0. -/
def updateEntry (idHex : Bytes) (set : EntryDoc → EntryDoc) (write : WriteOutcome) : Entries × Bool :=
  match oidFromString idHex with
  | none => (entries, false)
  | some oid =>
    (if write = .failed then entries else Collection.updateOne (fun e => e.id = oid) set entries,
      write = .done)

/-- `cms_create_entry`, with the id that `bson_oid_init` gives it; no two documents have one id. -/
def createEntry (oid : IdHex) (createdByIdHex : Option Bytes) (type : Bytes) (write : WriteOutcome) :
    Entries × Option IdHex :=
  if write = .failed ∨ oid ∈ entries.map (·.id) then (entries, none)
  else (entries ++ [.new oid createdByIdHex type], if write = .done then some oid else none)

/-- `cms_delete_entry`. -/
def deleteEntry (idHex : Bytes) (write : WriteOutcome) : Entries × Bool :=
  match oidFromString idHex with
  | none => (entries, false)
  | some oid =>
    (if write = .failed then entries else entries.eraseP fun e => e.id = oid, write = .done)

variable {entries} {idHex : Bytes} {oid : IdHex} {write : WriteOutcome} {e : EntryDoc}

/-- The entry that is edited is one of the collection, with the id that is given. -/
theorem of_getEntryForEdit (h : entries.getEntryForEdit idHex = some e) :
    oidFromString idHex = some e.id ∧ e ∈ entries := by
  obtain ⟨oid, hoid, hfind⟩ := Option.bind_eq_some_iff.mp h
  obtain rfl : e.id = oid := by simpa using List.find?_some hfind
  exact ⟨hoid, List.mem_of_find?_eq_some hfind⟩

/-- **A write leaves the other entries.** -/
theorem filter_updateEntry {set : EntryDoc → EntryDoc} (hset : ∀ e, (set e).id = e.id) :
    (entries.updateEntry idHex set write).1.filter (fun e => oidFromString idHex ≠ some e.id) =
      entries.filter fun e => oidFromString idHex ≠ some e.id := by
  rw [updateEntry]
  cases hoid : oidFromString idHex with
  | none => rfl
  | some oid =>
    dsimp only
    split_ifs
    · rfl
    · apply Collection.filter_updateOne
      · intro e he
        rw [← of_decide_eq_true he]
        exact decide_eq_false (not_not_intro rfl)
      · intro e he
        rw [hset, ← of_decide_eq_true he]
        exact decide_eq_false (not_not_intro rfl)

end Entries

end BoatRudder.Db
