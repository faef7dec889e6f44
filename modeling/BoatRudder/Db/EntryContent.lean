import BoatRudder.Db.BsonLang
import BoatRudder.Runs.Calls
import BoatRudder.Runs.Collection

/-! # The content of an entry

The array `content` of a document of `entries` and the three updates the editor makes of it: saving
replaces the array, adding a block pushes one, deleting a block pulls it. With them go the galleries
that gallery blocks point to. -/

namespace BoatRudder.Db

/-! ## Documents -/

/-- A block as it is stored. -/
structure StoredBlock where
  id : IdHex
  type : Bytes
  order : ℤ
  extraData : Bytes
  /-- By language. -/
  text : List (Bytes × Bytes)
  deriving DecidableEq, Repr

/-- `CmsContentBlockEdit`: a block as the editor sends it, with a text for each language. -/
structure ContentBlockEdit where
  id : Bytes
  type : Bytes
  order : ℤ
  extraData : Bytes
  textValues : List Bytes
  deriving DecidableEq, Repr

/-- A document of `media_galleries`. -/
structure MediaGallery where
  id : IdHex
  content : List Bytes
  entryId : IdHex
  deriving DecidableEq, Repr

/-- An entry's content and the galleries, with how many ids `bson_oid_init` has given out. -/
structure EntryStore where
  id : IdHex
  content : List StoredBlock
  galleries : List MediaGallery
  minted : ℕ
  deriving DecidableEq, Repr

/-! ## Updates -/

section

-- the ids `bson_oid_init` gives out
variable (mint : ℕ → IdHex)

/-- The first loop of `cms_update_entry_content`: a block without an id that can be read gets one. -/
def mintIds : ℕ → List ContentBlockEdit → List ContentBlockEdit × ℕ
  | minted, [] => ([], minted)
  | minted, b :: blocks =>
    if (oidFromString b.id).isSome then
      (b :: (mintIds minted blocks).1, (mintIds minted blocks).2)
    else
      ({ b with id := mint minted } :: (mintIds (minted + 1) blocks).1,
        (mintIds (minted + 1) blocks).2)

/-- Every block stays, with the id it has or a new one. -/
theorem length_mintIds (minted : ℕ) (blocks : List ContentBlockEdit) :
    (mintIds mint minted blocks).1.length = blocks.length := by
  induction blocks generalizing minted with
  | nil => rfl
  | cons b blocks ih =>
    rw [mintIds]
    split_ifs
    · exact congrArg Nat.succ (ih minted)
    · exact congrArg Nat.succ (ih (minted + 1))

/-- A block with an id keeps it. -/
theorem mem_mintIds {blocks : List ContentBlockEdit} {b : ContentBlockEdit} (hb : b ∈ blocks)
    (hid : (oidFromString b.id).isSome = true) (minted : ℕ) :
    b ∈ (mintIds mint minted blocks).1 := by
  induction blocks generalizing minted with
  | nil => cases hb
  | cons b' blocks ih =>
    rw [mintIds]
    rcases List.mem_cons.mp hb with rfl | hb
    · rw [if_pos hid]
      exact List.mem_cons_self
    · split_ifs
      · exact List.mem_cons_of_mem _ (ih hb minted)
      · exact List.mem_cons_of_mem _ (ih hb (minted + 1))

/-- The document that is stored of a block. -/
def ContentBlockEdit.toBlock (langs : List Bytes) (b : ContentBlockEdit) : StoredBlock where
  id := (oidFromString b.id).getD []
  type := b.type
  order := b.order
  extraData := b.extraData
  text := langs.zip b.textValues

namespace EntryStore

variable (s : EntryStore)

/-- `cms_update_entry_content`: the store, the blocks with their ids, and whether it returned 0. -/
def updateEntryContent (langs : List Bytes) (blocks : List ContentBlockEdit) (write : WriteOutcome) :
    EntryStore × List ContentBlockEdit × Bool :=
  let withIds := mintIds mint s.minted blocks
  ({ s with
      minted := withIds.2
      content :=
        if write = .failed then s.content
        else withIds.1.map (ContentBlockEdit.toBlock langs) },
    withIds.1, write = .done)

/-- `cms_add_entry_content_block`: the id of the new block, when it returned 0. -/
def addEntryContentBlock (type : Bytes) (order : ℤ) (write : WriteOutcome) :
    EntryStore × Option IdHex :=
  ({ s with
      minted := s.minted + 1
      content :=
        if write = .failed then s.content
        else s.content ++ [⟨mint s.minted, type, order, [], []⟩] },
    if write = .done then some (mint s.minted) else none)

/-- `cms_remove_entry_content_block`: `$pull` takes every block with the id. -/
def removeEntryContentBlock (blockId : Bytes) (write : WriteOutcome) : EntryStore × Bool :=
  match oidFromString blockId with
  | none => (s, false)
  | some oid =>
    ({ s with
        content :=
          if write = .failed then s.content else s.content.filter fun b => b.id ≠ oid },
      write = .done)

/-- The addresses in a text with semicolons: `strtok_r`, and past the blanks before each. -/
def galleryUrls (urls : Bytes) : List Bytes :=
  ((urls.splitOnP (· == 59)).map fun url => url.dropWhile (· = 32)).filter (· ≠ [])

/-- `cms_upsert_media_gallery`: the id of the gallery, when it returned 0. A gallery with an id is
updated (if there is none with it, nothing is), else one is inserted. -/
def upsertMediaGallery (galleryId urls : Bytes) (write : WriteOutcome) :
    EntryStore × Option Bytes :=
  match oidFromString galleryId with
  | some oid =>
    ({ s with
        galleries :=
          if write = .failed then s.galleries
          else
            Collection.updateOne (fun g => g.id = oid)
              (fun g => { g with content := galleryUrls urls }) s.galleries },
      if write = .done then some galleryId else none)
  | none =>
    ({ s with
        minted := s.minted + 1
        galleries :=
          if write = .failed then s.galleries
          else s.galleries ++ [⟨mint s.minted, galleryUrls urls, s.id⟩] },
      if write = .done then some (mint s.minted) else none)

end EntryStore

end

end BoatRudder.Db
