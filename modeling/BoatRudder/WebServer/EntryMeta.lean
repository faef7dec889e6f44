import BoatRudder.Db.Entries
import BoatRudder.WebServer.FormFields

/-! # Creating, publishing and deleting entries

The routes that create an entry, save its link, type and flag, and delete it, behind their session
checks. A run of them starts from no entries. What it stores as links are C strings that fit the
buffer of the form field (**`wellStored_after`**). -/

namespace BoatRudder.WebServer

open Db

/-! ## Who writes -/

/-- The roles whose requests the session check lets write entries. -/
inductive EditorRole
  | admin
  | author
  deriving DecidableEq, Repr

/-- A role as it is stored. -/
def EditorRole.name : EditorRole → Bytes
  | .admin => lit "admin"
  | .author => lit "author"

/-- The user of a session. -/
structure Editor where
  role : EditorRole
  userId : Bytes
  deriving DecidableEq, Repr

/-! ## Requests -/

/-- A request to one of the routes, with how its write ends. -/
inductive EntryEvent
  /-- `/dashboard/entries/new`, with the id that `bson_oid_init` gives. -/
  | create (editor : Editor) (oid : IdHex) (write : WriteOutcome)
  /-- `/dashboard/api/entries/<id>/meta`. -/
  | saveMeta (editor : Editor) (idHex body : Bytes) (write : WriteOutcome)
  /-- The route that deletes an entry. -/
  | delete (editor : Editor) (idHex : Bytes) (write : WriteOutcome)

/-- What is answered. -/
inductive EntryMetaAnswer
  /-- Under maintenance to anybody but an administrator. -/
  | lockedOut
  /-- Back to the dashboard. -/
  | dashboard
  /-- To the editor of the new entry. -/
  | edit (oid : IdHex)
  | notFound
  | forbidden
  | updateFailed
  | ok
  deriving DecidableEq, Repr

/-- `CATEGORY_LIST_LIMIT`. -/
def categoryListLimit : ℕ := 200

/-- The link of the form. -/
def metaLink (body : Bytes) : Bytes := parseUrlencodedField body (lit "link") 256

/-- The type of the form: an author writes for the blog only. -/
def metaType (role : EditorRole) (body : Bytes) : Bytes :=
  if role = .author then lit "blog"
  else if foundUrlencodedField body (lit "type") then parseUrlencodedField body (lit "type") 16
  else lit "page"

/-- What the form makes of an entry. -/
def savedMeta (role : EditorRole) (body : Bytes) : EntryDoc → EntryDoc :=
  .setMeta (metaLink body) (metaType role body) (foundUrlencodedField body (lit "enabled"))
    (parseUrlencodedMulti body (lit "categories") categoryListLimit)

section

variable (underConstruction : Bool) (entries : Entries)

/-- Under construction the dashboard is open to administrators only. -/
def lockedOut (editor : Editor) : Bool := underConstruction && editor.role != .admin

/-- The route that creates an entry. -/
def entryNewRoute (editor : Editor) (oid : IdHex) (write : WriteOutcome) : Entries × EntryMetaAnswer :=
  let type := if editor.role = .author then lit "blog" else lit "page"
  let created := entries.createEntry oid (some editor.userId) type write
  (created.1, match created.2 with | some id => .edit id | none => .dashboard)

/-- The route that saves the meta data of an entry. -/
def entryMetaRoute (editor : Editor) (idHex body : Bytes) (write : WriteOutcome) : Entries × EntryMetaAnswer :=
  match entries.getEntryForEdit idHex with
  | none => (entries, .notFound)
  | some e =>
    if !canEditEntry editor.role.name editor.userId e then (entries, .forbidden)
    else
      let saved := entries.updateEntry idHex (savedMeta editor.role body) write
      (saved.1, if saved.2 then .ok else .updateFailed)

/-- The route that deletes an entry. -/
def entryDeleteRoute (editor : Editor) (idHex : Bytes) (write : WriteOutcome) : Entries × EntryMetaAnswer :=
  if editor.role = .admin then ((entries.deleteEntry idHex write).1, .dashboard) else (entries, .dashboard)

/-- A request: the session check, then its route. -/
def EntryEvent.step : EntryEvent → Entries × EntryMetaAnswer
  | .create editor oid write =>
    if lockedOut underConstruction editor then (entries, .lockedOut) else entryNewRoute entries editor oid write
  | .saveMeta editor idHex body write =>
    if lockedOut underConstruction editor then (entries, .lockedOut)
    else entryMetaRoute entries editor idHex body write
  | .delete editor idHex write =>
    if lockedOut underConstruction editor then (entries, .lockedOut)
    else entryDeleteRoute entries editor idHex write

/-- The entry whose meta data a request saves, and what it becomes. -/
def EntryEvent.saved : EntryEvent → Option (EntryDoc × EntryDoc)
  | .saveMeta editor idHex body write =>
    (entries.getEntryForEdit idHex).bind fun e =>
      if !lockedOut underConstruction editor ∧ canEditEntry editor.role.name editor.userId e ∧ write ≠ .failed then
        some (e, savedMeta editor.role body e)
      else none
  | _ => none

/-- The entries of a site, from none on. -/
def entriesMachine : Machine Entries EntryEvent EntryMetaAnswer where
  init := []
  step := fun entries event => event.step underConstruction entries

end

/-! ## What a request does -/

section

variable {underConstruction : Bool} {entries : Entries}

/-- An update that is not failed, of an entry that is there. -/
theorem updateEntry_of_getEntryForEdit {idHex : Bytes} {e : EntryDoc} (hids : (entries.map (·.id)).Nodup)
    (h : entries.getEntryForEdit idHex = some e) (set : EntryDoc → EntryDoc) {write : WriteOutcome}
    (hwrite : write ≠ .failed) :
    ∃ a b, entries = a ++ e :: b ∧ (entries.updateEntry idHex set write).1 = a ++ set e :: b := by
  obtain ⟨hoid, hmem⟩ := Entries.of_getEntryForEdit h
  obtain ⟨a, b, rfl⟩ := List.append_of_mem hmem
  refine ⟨a, b, rfl, ?_⟩
  rw [Entries.updateEntry, hoid]
  dsimp only
  rw [if_neg hwrite]
  exact Collection.updateOne_key hids set

/-- **What a request does**: it saves an entry, or adds a new one, or adds none. -/
theorem EntryEvent.step_cases (underConstruction : Bool) (hids : (entries.map (·.id)).Nodup) (event : EntryEvent) :
    (∃ e e' a b, event.saved underConstruction entries = some (e, e') ∧ entries = a ++ e :: b ∧
        (event.step underConstruction entries).1 = a ++ e' :: b) ∨
      event.saved underConstruction entries = none ∧
        ((∃ oid creator type, oid ∉ entries.map (·.id) ∧
            (event.step underConstruction entries).1 = entries ++ [.new oid creator type]) ∨
          (event.step underConstruction entries).1.Sublist entries) := by
  cases event with
  | create editor oid write =>
    refine Or.inr ⟨rfl, ?_⟩
    rw [step, entryNewRoute, Entries.createEntry]
    split_ifs with hlocked hno
    · exact Or.inr (List.Sublist.refl entries)
    · exact Or.inr (List.Sublist.refl entries)
    all_goals
      rw [not_or] at hno
      exact Or.inl ⟨oid, _, _, hno.2, rfl⟩
  | saveMeta editor idHex body write =>
    rw [step, saved, entryMetaRoute]
    cases hget : entries.getEntryForEdit idHex with
    | none =>
      refine Or.inr ⟨rfl, Or.inr ?_⟩
      split_ifs <;> exact List.Sublist.refl entries
    | some e =>
      by_cases hlocked : lockedOut underConstruction editor = true
      · refine Or.inr ⟨by simp [hlocked], Or.inr ?_⟩
        rw [if_pos hlocked]
      · by_cases hedit : canEditEntry editor.role.name editor.userId e = true
        · by_cases hwrite : write = .failed
          · refine Or.inr ⟨by simp [hwrite], Or.inr ?_⟩
            obtain ⟨hoid, -⟩ := Entries.of_getEntryForEdit hget
            simp [hlocked, hedit, hwrite, Entries.updateEntry, hoid]
          · obtain ⟨a, b, hsplit, hsaved⟩ :=
              updateEntry_of_getEntryForEdit hids hget (savedMeta editor.role body) hwrite
            refine Or.inl ⟨e, savedMeta editor.role body e, a, b, by simp [hlocked, hedit, hwrite], hsplit, ?_⟩
            rw [← hsaved]
            simp [hlocked, hedit]
        · refine Or.inr ⟨by simp [hedit], Or.inr ?_⟩
          simp [hlocked, hedit]
  | delete editor idHex write =>
    refine Or.inr ⟨rfl, Or.inr ?_⟩
    have hdelete : (entries.deleteEntry idHex write).1.Sublist entries := by
      rw [Entries.deleteEntry]
      cases oidFromString idHex with
      | none => exact List.Sublist.refl entries
      | some oid =>
        dsimp only
        split_ifs
        · exact List.Sublist.refl entries
        · exact List.eraseP_sublist
    rw [step, entryDeleteRoute]
    split_ifs with hlocked hadmin
    · exact List.Sublist.refl entries
    · exact hdelete
    · exact List.Sublist.refl entries

/-! ## What is stored -/

/-- A link is a C string that fits the buffer of its field. -/
def LinkFits (link : Bytes) : Prop := link.length ≤ 255 ∧ 0 ∉ link

theorem linkFits_metaLink (body : Bytes) : LinkFits (metaLink body) :=
  ⟨Nat.le_of_lt_succ (length_parseUrlencodedField_lt body _ (by decide)),
    zero_notMem_parseUrlencodedField body _ _⟩

/-- What every run keeps: no two entries have one id, and links fit. -/
structure WellStored (entries : Entries) : Prop where
  ids : (entries.map (·.id)).Nodup
  links : ∀ e ∈ entries, LinkFits e.link

/-- What a save leaves of an entry, and what it makes of it. -/
theorem EntryEvent.of_saved {event : EntryEvent} {e e' : EntryDoc}
    (h : event.saved underConstruction entries = some (e, e')) : e'.id = e.id ∧ LinkFits e'.link := by
  cases event with
  | create | delete => cases h
  | saveMeta editor idHex body write =>
    obtain ⟨d, -, hd⟩ := Option.bind_eq_some_iff.mp h
    split_ifs at hd
    obtain ⟨rfl, rfl⟩ := Prod.mk.inj (Option.some.inj hd)
    exact ⟨rfl, linkFits_metaLink body⟩

theorem wellStored_step (h : WellStored entries) (event : EntryEvent) :
    WellStored (event.step underConstruction entries).1 := by
  rcases EntryEvent.step_cases underConstruction h.ids event with
    ⟨e, e', a, b, hsaved, rfl, hstep⟩ | ⟨-, ⟨oid, creator, type, hnew, hstep⟩ | hsub⟩
  · obtain ⟨hid, hlink⟩ := EntryEvent.of_saved hsaved
    rw [hstep]
    refine ⟨?_, fun d hd => ?_⟩
    · have := h.ids
      rw [List.map_append, List.map_cons] at this ⊢
      rwa [hid]
    · rcases List.mem_append.mp hd with hd | hd
      · exact h.links d (List.mem_append_left _ hd)
      · rcases List.mem_cons.mp hd with rfl | hd
        · exact hlink
        · exact h.links d (List.mem_append_right _ (List.mem_cons_of_mem _ hd))
  · rw [hstep]
    refine ⟨Collection.nodup_map_concat.mpr ⟨h.ids, fun e he heq => hnew ?_⟩, fun d hd => ?_⟩
    · exact List.mem_map.mpr ⟨e, he, heq⟩
    · rcases List.mem_append.mp hd with hd | hd
      · exact h.links d hd
      · rw [List.mem_singleton.mp hd]
        exact ⟨Nat.zero_le _, List.not_mem_nil⟩
  · exact ⟨h.ids.sublist (hsub.map _), fun d hd => h.links d (hsub.subset hd)⟩

theorem wellStored_after (run : List EntryEvent) : WellStored ((entriesMachine underConstruction).after run) := by
  apply Machine.after_induction (I := fun _ entries => WellStored entries)
  · exact ⟨List.nodup_nil, fun e he => absurd he List.not_mem_nil⟩
  · exact fun as event h => wellStored_step h event

end

end BoatRudder.WebServer
