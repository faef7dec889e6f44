import BoatRudder.Runs.FileMap
import BoatRudder.Runs.Machine
import BoatRudder.WebServer.MediaNames

/-! # The media library of an author

Uploads, deletes and moves of one author's items, with the files that they create, unlink and
rename. The programs that `image-optimizer.sh` runs are parameters: what it makes of an upload is up
to them, under which names it does so is not. -/

namespace BoatRudder.WebServer

/-! ## The library -/

/-- What is at a path. -/
inductive DiskFile where
  | regular (content : Bytes)
  | symlink (target : Bytes)
  deriving DecidableEq

/-- The files of the author by directory and name. -/
abbrev Disk : Type := FileMap (Bytes × Bytes) DiskFile

/-- A record of the library, with the upload it was made for: the database does not keep that, but
it says what the files should hold. -/
structure MediaItem where
  id : ℕ
  name : Bytes
  dir : Bytes
  /-- What was uploaded. -/
  source : Bytes
  deriving DecidableEq

/-- The records and the files. -/
structure MediaLibrary where
  items : List MediaItem
  disk : Disk
  /-- The identifier of the next record. -/
  nextId : ℕ

/-- The programs that the optimizer runs. -/
structure ImageTools where
  /-- Whether `file` takes an upload for an image. -/
  isImage : Bytes → Bool
  /-- `is_suitable_for_gif`. -/
  suitableForGif : Bytes → Bool
  /-- What `magick`, `jpegoptim` and `gifsicle` make of an upload, all of it as GIF or not. -/
  render : Bool → Variant → Bytes → Bytes

section

variable (tools : ImageTools) (username : Bytes)

/-! ## The optimizer -/

/-- The extension of `_full`, `_half` and `_small`. -/
def outputExt (data : Bytes) : Bytes := if tools.suitableForGif data then lit ".gif" else lit ".jpg"

/-- `process_image`, for the upload `data` at `filename`: the files after it, and the name of the
largest variant if it made any. -/
def processImage (disk : Disk) (dir filename data : Bytes) : Disk × Option Bytes :=
  let basename := (splitName filename).1
  if tools.isImage data then
    let disk := Variant.all.foldl (fun disk v =>
      disk.write (dir, basename ++ (v.suffix ++ v.ext (outputExt tools data)))
        (.regular (tools.render (tools.suitableForGif data) v data))) disk
    (disk.unlink (dir, filename), some (basename ++ (Variant.full.suffix ++ outputExt tools data)))
  else (disk, none)

/-! ## The routes -/

/-- The names there are in a directory. -/
def present (disk : Disk) (dir name : Bytes) : Bool := (disk (dir, name)).isSome

/-- The upload route: an upload of `data` as `filename` into a directory. -/
def mediaUpload (lib : MediaLibrary) (filename data dir : Bytes) : MediaLibrary :=
  if mediaUsernameValid username && mediaDirNameValid dir then
    match mediaUploadName (present lib.disk dir) filename data with
    | none => lib
    | some name =>
      -- the file is created, never written over
      if present lib.disk dir name then lib
      else
        match processImage tools (lib.disk.write (dir, name) (.regular data)) dir name data with
        | (disk, none) => { lib with disk := disk.unlink (dir, name) }
        | (disk, some basename) =>
          { items := lib.items ++ [⟨lib.nextId, mediaDbName basename, dir, data⟩], disk,
            nextId := lib.nextId + 1 }
  else lib

/-- `media_item_paths_valid`. -/
def MediaItem.pathsValid (item : MediaItem) : Bool :=
  mediaUsernameValid username && mediaDirNameValid item.dir && mediaFileNameValid item.name

/-- `is_symlink`. -/
def isSymlink (disk : Disk) (path : Bytes × Bytes) : Bool :=
  match disk path with
  | some (.symlink _) => true
  | _ => false

/-- `media_delete_variants`. -/
def mediaDeleteVariants (disk : Disk) (item : MediaItem) : Disk :=
  let disk := ((variantPaths item.name).map (item.dir, ·)).foldl FileMap.unlink disk
  (uploadLinkExts.map (mediaLinkPath item.name)).foldl (fun disk path =>
    if isSymlink disk (item.dir, path) then disk.unlink (item.dir, path) else disk) disk

/-- `media_move_variants`. -/
def mediaMoveVariants (disk : Disk) (item : MediaItem) (dest : Bytes) : Disk :=
  let disk := (variantPaths item.name).foldl (FileMap.move item.dir dest) disk
  (uploadLinkExts.map (mediaLinkPath item.name)).foldl (fun disk path =>
    if isSymlink disk (item.dir, path) then FileMap.move item.dir dest disk path else disk) disk

/-- The delete route, for one of the identifiers it is given. -/
def mediaDelete (lib : MediaLibrary) (id : ℕ) : MediaLibrary :=
  match lib.items.find? (·.id = id) with
  | none => lib
  | some item =>
    { lib with
      disk := if item.pathsValid username then mediaDeleteVariants lib.disk item else lib.disk
      items := lib.items.filter (·.id ≠ id) }

/-- The move route, for one of the identifiers it is given. -/
def mediaMove (lib : MediaLibrary) (id : ℕ) (dest : Bytes) : MediaLibrary :=
  if mediaDirNameValid dest then
    match lib.items.find? (·.id = id) with
    | none => lib
    | some item =>
      if item.pathsValid username then
        { lib with
          disk := mediaMoveVariants lib.disk item dest
          items := lib.items.map fun i => if i.id = id then { i with dir := dest } else i }
      else lib
  else lib

/-! ## Runs -/

/-- What the author does. -/
inductive MediaAction where
  | upload (filename data dir : Bytes)
  | delete (id : ℕ)
  | move (id : ℕ) (dest : Bytes)

/-- The library after an action. -/
def MediaLibrary.next (lib : MediaLibrary) : MediaAction → MediaLibrary
  | .upload filename data dir => mediaUpload tools username lib filename data dir
  | .delete id => mediaDelete username lib id
  | .move id dest => mediaMove username lib id dest

/-- The media library, which is empty at first. -/
def mediaLibrary : Machine MediaLibrary MediaAction Unit where
  init := ⟨[], fun _ => none, 0⟩
  step lib action := (lib.next tools username action, ())

/-! ## What should hold -/

/-- Each item has its five variants, as its own upload made them. -/
def Intact (lib : MediaLibrary) : Prop :=
  ∀ item ∈ lib.items, ∀ v : Variant, lib.disk (item.dir, v.path item.name) =
    some (.regular (tools.render (tools.suitableForGif item.source) v item.source))

end

/-! ## Items that do not touch each other's files

The three routes keep the library intact as long as an upload's stem is found again in the name of
its largest variant, the name of an item that is deleted or moved is not that of another item's
variant, and no item moves to where another one has its stem. -/

variable {data dest dir : Bytes} {id : ℕ}
variable (tools : ImageTools) (username : Bytes)

/-! ## The condition on a step -/

/-- No item of the directory has a variant under this name. -/
def NoVariantAt (lib : MediaLibrary) (dir name : Bytes) : Prop :=
  ∀ other ∈ lib.items, other.dir = dir → ∀ v ∈ Variant.all, v.path other.name ≠ name

/-- No item of the directory has this stem. -/
def NoStemAt (lib : MediaLibrary) (dir stem : Bytes) : Prop :=
  ∀ other ∈ lib.items, other.dir = dir → (splitName other.name).1 ≠ stem

/-- The actions that keep to the files of their own item. -/
def Apart (lib : MediaLibrary) : MediaAction → Prop
  | .upload filename data dir => tools.isImage data = true →
      ∀ name ∈ mediaUploadName (present lib.disk dir) filename data, Recoverable (splitName name).1
  | .delete id => ∀ item ∈ lib.items, item.id = id → NoVariantAt lib item.dir item.name
  | .move id dest => ∀ item ∈ lib.items, item.id = id → item.dir ≠ dest →
      NoVariantAt lib item.dir item.name ∧ NoStemAt lib dest (splitName item.name).1

instance (lib : MediaLibrary) (dir name : Bytes) : Decidable (NoVariantAt lib dir name) :=
  inferInstanceAs (Decidable (∀ other ∈ lib.items, _))

instance (lib : MediaLibrary) (dir stem : Bytes) : Decidable (NoStemAt lib dir stem) :=
  inferInstanceAs (Decidable (∀ other ∈ lib.items, _))

instance (lib : MediaLibrary) (action : MediaAction) : Decidable (Apart tools lib action) :=
  match action with
  | .upload _ _ _ => inferInstanceAs (Decidable (_ → ∀ name ∈ mediaUploadName _ _ _, _))
  | .delete _ => inferInstanceAs (Decidable (∀ item ∈ lib.items, _))
  | .move _ _ => inferInstanceAs (Decidable (∀ item ∈ lib.items, _))

/-! ## The invariant -/

/-- The stem of an item. -/
def MediaItem.stem (item : MediaItem) : Bytes := (splitName item.name).1

/-- What is at the path of a variant. -/
def MediaItem.variant (item : MediaItem) (v : Variant) : DiskFile :=
  .regular (tools.render (tools.suitableForGif item.source) v item.source)

/-- A record made by the upload route. -/
structure MediaItem.Recorded (item : MediaItem) : Prop where
  /-- The stem of its name. -/
  isStem : IsStem item.stem
  /-- Its name. -/
  name : item.name = item.stem ++ outputExt tools item.source
  /-- Its path. -/
  paths : item.pathsValid username = true

/-- The invariant: each item has its files, and there are no others. -/
structure MediaInv (lib : MediaLibrary) : Prop where
  /-- Every record was made by the upload route. -/
  recorded : ∀ item ∈ lib.items, item.Recorded tools username
  /-- Identifiers are those given so far. -/
  fresh : ∀ item ∈ lib.items, item.id < lib.nextId
  /-- No two records have one identifier. -/
  ids : ∀ a ∈ lib.items, ∀ b ∈ lib.items, a.id = b.id → a = b
  /-- No two records of a directory have one stem. -/
  stems : ∀ a ∈ lib.items, ∀ b ∈ lib.items, a.dir = b.dir → a.stem = b.stem → a = b
  /-- Every item has its variants. -/
  files : ∀ item ∈ lib.items, ∀ v : Variant,
    lib.disk (item.dir, v.path item.name) = some (item.variant tools v)
  /-- Every file is a variant of an item. -/
  only : ∀ dir name, (lib.disk (dir, name)).isSome = true →
    ∃ item ∈ lib.items, item.dir = dir ∧ ∃ v : Variant, v.path item.name = name

variable {tools username}

theorem outputExt_mem (data : Bytes) : outputExt tools data ∈ variantExts := by
  rw [outputExt]
  split <;> decide

theorem Variant.mem_all (v : Variant) : v ∈ Variant.all := by
  cases v <;> decide

variable {item : MediaItem}

/-- The path of a variant of a record. -/
theorem MediaItem.Recorded.path (h : item.Recorded tools username)
    (v : Variant) : v.path item.name = item.stem ++ (v.suffix ++ v.ext (outputExt tools item.source)) := by
  rw [h.name, h.isStem.variant_path (outputExt_mem _)]

/-- Variants with one name are those of one stem. -/
theorem MediaItem.Recorded.path_inj {a b : MediaItem} (ha : a.Recorded tools username)
    (hb : b.Recorded tools username) {v w : Variant} (h : v.path a.name = w.path b.name) :
    a.stem = b.stem ∧ v = w := by
  rw [ha.path, hb.path] at h
  obtain ⟨hstem, hv, -⟩ := Variant.names_inj (v.ext_mem (outputExt_mem _))
    (w.ext_mem (outputExt_mem _)) h
  exact ⟨hstem, hv⟩

/-- What a delete unlinks and a move renames for a record. -/
theorem MediaItem.Recorded.mem_variantPaths (h : item.Recorded tools username) {path : Bytes} :
    path ∈ variantPaths item.name ↔ path = item.name ∨ ∃ v : Variant, path = v.path item.name := by
  conv_lhs => rw [h.name]
  conv_rhs => rw [h.name]
  exact h.isStem.mem_variantPaths (outputExt_mem _)

variable {lib : MediaLibrary}

/-- No path of the library is a link. -/
theorem MediaInv.not_isSymlink (h : MediaInv tools username lib)
    (path : Bytes × Bytes) : isSymlink lib.disk path = false := by
  obtain ⟨dir, name⟩ := path
  unfold isSymlink
  cases hfile : lib.disk (dir, name) with
  | none => rfl
  | some file =>
    obtain ⟨item, hitem, rfl, v, rfl⟩ := h.only dir name (by simp [hfile])
    rw [h.files item hitem v] at hfile
    obtain rfl := Option.some.inj hfile
    rfl

/-- The library is intact. -/
theorem MediaInv.intact (h : MediaInv tools username lib) : Intact tools lib := h.files

/-- The empty library. -/
theorem mediaInv_init : MediaInv tools username (mediaLibrary tools username).init where
  recorded := by simp [mediaLibrary]
  fresh := by simp [mediaLibrary]
  ids := by simp [mediaLibrary]
  stems := by simp [mediaLibrary]
  files := by simp [mediaLibrary]
  only := by simp [mediaLibrary]

/-! ## Deleting -/

variable {disk : Disk}

/-- Where there are no links, none is unlinked. -/
theorem foldl_unlink_links (h : ∀ path, isSymlink disk path = false) (dir : Bytes)
    (paths : List Bytes) : paths.foldl (fun disk path =>
      if isSymlink disk (dir, path) then disk.unlink (dir, path) else disk) disk = disk := by
  induction paths with
  | nil => rfl
  | cons path paths ih => rw [List.foldl_cons, h, if_neg Bool.false_ne_true, ih]

/-- What is left of a path after the variants of an item are unlinked. -/
theorem mediaDeleteVariants_apply (h : ∀ path, isSymlink disk path = false)
    (item : MediaItem) (dir name : Bytes) : mediaDeleteVariants disk item (dir, name) =
      if dir = item.dir ∧ name ∈ variantPaths item.name then none else disk (dir, name) := by
  have happly : ∀ path : Bytes × Bytes,
      ((variantPaths item.name).map (item.dir, ·)).foldl FileMap.unlink disk path =
        if path.1 = item.dir ∧ path.2 ∈ variantPaths item.name then none else disk path := by
    rintro ⟨d, n⟩
    rw [FileMap.foldl_unlink]
    congr 1
    simp only [List.mem_map, Prod.mk.injEq, eq_iff_iff]
    constructor
    · rintro ⟨a, ha, rfl, rfl⟩
      exact ⟨rfl, ha⟩
    · rintro ⟨rfl, hn⟩
      exact ⟨n, hn, rfl, rfl⟩
  have hlinks : ∀ path, isSymlink
      (((variantPaths item.name).map (item.dir, ·)).foldl FileMap.unlink disk) path = false := by
    intro path
    have := h path
    unfold isSymlink at this ⊢
    rw [happly]
    split_ifs
    · rfl
    · exact this
  simp only [mediaDeleteVariants]
  rw [foldl_unlink_links hlinks, happly]

/-- **A delete unlinks the files of its item only.** -/
theorem MediaInv.delete (h : MediaInv tools username lib) (hapart : Apart tools lib (.delete id)) :
    MediaInv tools username (mediaDelete username lib id) := by
  unfold mediaDelete
  cases hfind : lib.items.find? (·.id = id) with
  | none => exact h
  | some item =>
    have hitem := List.mem_of_find?_eq_some hfind
    have hid : item.id = id := by simpa using List.find?_some hfind
    have hrec := h.recorded item hitem
    have hkept : ∀ {other : MediaItem}, other ∈ lib.items.filter (·.id ≠ id) ↔
        other ∈ lib.items ∧ other.id ≠ id := by simp
    simp only [hrec.paths, if_true]
    refine ⟨?_, ?_, ?_, ?_, ?_, ?_⟩
    · exact fun other ho => h.recorded other (hkept.mp ho).1
    · exact fun other ho => h.fresh other (hkept.mp ho).1
    · exact fun a ha b hb => h.ids a (hkept.mp ha).1 b (hkept.mp hb).1
    · exact fun a ha b hb => h.stems a (hkept.mp ha).1 b (hkept.mp hb).1
    · intro other ho v
      obtain ⟨ho, hne⟩ := hkept.mp ho
      change mediaDeleteVariants lib.disk item _ = _
      rw [mediaDeleteVariants_apply h.not_isSymlink, if_neg, h.files other ho v]
      rintro ⟨hdir, hpath⟩
      rcases hrec.mem_variantPaths.mp hpath with hown | ⟨w, hw⟩
      · exact hapart item hitem hid other ho hdir v v.mem_all hown
      · obtain ⟨hstem, -⟩ := (h.recorded other ho).path_inj hrec hw
        exact hne ((h.stems other ho item hitem hdir hstem) ▸ hid)
    · intro dir name hfile
      change (mediaDeleteVariants lib.disk item (dir, name)).isSome = true at hfile
      rw [mediaDeleteVariants_apply h.not_isSymlink] at hfile
      split_ifs at hfile with hgone
      · simp at hfile
      · obtain ⟨other, ho, rfl, v, rfl⟩ := h.only dir name hfile
        refine ⟨other, hkept.mpr ⟨ho, ?_⟩, rfl, v, rfl⟩
        intro hsame
        obtain rfl := h.ids other ho item hitem (hsame.trans hid.symm)
        exact hgone ⟨rfl, hrec.mem_variantPaths.mpr (Or.inr ⟨v, rfl⟩)⟩

/-! ## Moving -/

/-- Where there are no links, none is renamed. -/
theorem foldl_move_links (h : ∀ path, isSymlink disk path = false) (dir dest : Bytes)
    (paths : List Bytes) : paths.foldl (fun disk path =>
      if isSymlink disk (dir, path) then FileMap.move dir dest disk path else disk) disk = disk := by
  induction paths with
  | nil => rfl
  | cons path paths ih => rw [List.foldl_cons, h, if_neg Bool.false_ne_true, ih]

/-- What is at a path after the variants of an item are renamed. -/
theorem mediaMoveVariants_apply (h : ∀ path, isSymlink disk path = false) (hdest : item.dir ≠ dest)
    (dir name : Bytes) : mediaMoveVariants disk item dest (dir, name) =
      if dir = item.dir ∧ name ∈ variantPaths item.name then none
      else if dir = dest ∧ name ∈ variantPaths item.name ∧ (disk (item.dir, name)).isSome then
        disk (item.dir, name) else disk (dir, name) := by
  have hlinks : ∀ path, isSymlink
      ((variantPaths item.name).foldl (FileMap.move item.dir dest) disk) path = false := by
    rintro ⟨d, n⟩
    have hhere := h (d, n)
    have hthere := h (item.dir, n)
    unfold isSymlink at hhere hthere ⊢
    rw [FileMap.foldl_move disk hdest]
    split_ifs
    · rfl
    · exact hthere
    · exact hhere
  simp only [mediaMoveVariants]
  rw [foldl_move_links hlinks, FileMap.foldl_move disk hdest]
  by_cases hgone : dir = item.dir ∧ name ∈ variantPaths item.name
  · rw [if_pos hgone, if_pos hgone]
  · rw [if_neg hgone, if_neg hgone]
    congr

/-- The records after a move. -/
theorem MediaInv.mem_moved (h : MediaInv tools username lib) (hitem : item ∈ lib.items)
    (hid : item.id = id) {other : MediaItem} :
    other ∈ lib.items.map (fun i => if i.id = id then { i with dir := dest } else i) ↔
      other = { item with dir := dest } ∨ other ∈ lib.items ∧ other.id ≠ id := by
  rw [List.mem_map]
  constructor
  · rintro ⟨i, hi, rfl⟩
    by_cases hsame : i.id = id
    · obtain rfl := h.ids i hi item hitem (hsame.trans hid.symm)
      exact Or.inl (if_pos hsame)
    · exact Or.inr (by simpa only [if_neg hsame] using ⟨hi, hsame⟩)
  · rintro (rfl | ⟨ho, hne⟩)
    · exact ⟨item, hitem, if_pos hid⟩
    · exact ⟨other, ho, if_neg hne⟩

/-- A move to where the item is changes nothing. -/
theorem MediaInv.mediaMove_self (h : MediaInv tools username lib) (hitem : item ∈ lib.items)
    (hid : item.id = id) :
    ({ lib with
        disk := mediaMoveVariants lib.disk item item.dir
        items := lib.items.map fun i => if i.id = id then { i with dir := item.dir } else i } :
      MediaLibrary) = lib := by
  have hdisk : mediaMoveVariants lib.disk item item.dir = lib.disk := by
    simp only [mediaMoveVariants, FileMap.foldl_move_self]
    exact foldl_move_links h.not_isSymlink _ _ _
  have hitems : lib.items.map (fun i => if i.id = id then { i with dir := item.dir } else i) =
      lib.items := by
    conv_rhs => rw [← List.map_id lib.items]
    refine List.map_congr_left fun i hi => ?_
    by_cases hsame : i.id = id
    · obtain rfl := h.ids i hi item hitem (hsame.trans hid.symm)
      exact if_pos hsame
    · exact if_neg hsame
  rw [hdisk, hitems]

/-- Nothing is stored under an item's own name where no variant has that name. -/
theorem MediaInv.own_absent (h : MediaInv tools username lib) (hvariant : NoVariantAt lib item.dir item.name) :
    (lib.disk (item.dir, item.name)).isSome = false := by
  rw [Bool.eq_false_iff]
  intro hsome
  obtain ⟨other, ho, hdir, v, hv⟩ := h.only _ _ hsome
  exact hvariant other ho hdir v v.mem_all hv

/-- **After a move every item has its variants**: the one that moved, and the others. -/
theorem MediaInv.files_move (h : MediaInv tools username lib) (hitem : item ∈ lib.items) (hid : item.id = id)
    (hdest : item.dir ≠ dest) (hvariant : NoVariantAt lib item.dir item.name)
    (hstem : NoStemAt lib dest (splitName item.name).1) {other : MediaItem}
    (ho : other = { item with dir := dest } ∨ other ∈ lib.items ∧ other.id ≠ id) (v : Variant) :
    mediaMoveVariants lib.disk item dest (other.dir, v.path other.name) = some (other.variant tools v) := by
  have hrec := h.recorded item hitem
  rw [mediaMoveVariants_apply h.not_isSymlink hdest]
  rcases ho with rfl | ⟨ho, hne⟩
  · have hfile := h.files item hitem v
    rw [if_neg fun hc => hdest hc.1.symm, if_pos]
    · exact hfile
    · exact ⟨rfl, hrec.mem_variantPaths.mpr (Or.inr ⟨v, rfl⟩), by rw [hfile]; rfl⟩
  · rw [if_neg, if_neg]
    · exact h.files other ho v
    · rintro ⟨hdir, hpath, hsome⟩
      rcases hrec.mem_variantPaths.mp hpath with heq | ⟨w, hw⟩
      · rw [heq, h.own_absent hvariant] at hsome
        cases hsome
      · exact hstem other ho hdir ((h.recorded other ho).path_inj hrec hw).1
    · rintro ⟨hdir, hpath⟩
      rcases hrec.mem_variantPaths.mp hpath with heq | ⟨w, hw⟩
      · exact hvariant other ho hdir v v.mem_all heq
      · obtain ⟨hsame, -⟩ := (h.recorded other ho).path_inj hrec hw
        exact hne (h.stems other ho item hitem hdir hsame ▸ hid)

/-- **After a move every file is a variant of an item.** -/
theorem MediaInv.only_move (h : MediaInv tools username lib) (hitem : item ∈ lib.items) (hid : item.id = id)
    (hdest : item.dir ≠ dest) (hvariant : NoVariantAt lib item.dir item.name) {name : Bytes}
    (hsome : (mediaMoveVariants lib.disk item dest (dir, name)).isSome = true) :
    ∃ other : MediaItem, (other = { item with dir := dest } ∨ other ∈ lib.items ∧ other.id ≠ id) ∧
      other.dir = dir ∧ ∃ v : Variant, v.path other.name = name := by
  have hrec := h.recorded item hitem
  rw [mediaMoveVariants_apply h.not_isSymlink hdest] at hsome
  split_ifs at hsome with hgone hcame
  · simp at hsome
  · obtain ⟨rfl, hpath, hthere⟩ := hcame
    rcases hrec.mem_variantPaths.mp hpath with heq | ⟨w, hw⟩
    · rw [heq, h.own_absent hvariant] at hthere
      cases hthere
    · exact ⟨_, Or.inl rfl, rfl, w, hw.symm⟩
  · obtain ⟨other, ho, rfl, v, rfl⟩ := h.only dir name hsome
    refine ⟨other, Or.inr ⟨ho, ?_⟩, rfl, v, rfl⟩
    intro hsame
    obtain rfl := h.ids other ho item hitem (hsame.trans hid.symm)
    exact hgone ⟨rfl, hrec.mem_variantPaths.mpr (Or.inr ⟨v, rfl⟩)⟩

/-- **A move renames the files of its item only**, and replaces none of another. -/
theorem MediaInv.move (h : MediaInv tools username lib) (hapart : Apart tools lib (.move id dest)) :
    MediaInv tools username (mediaMove username lib id dest) := by
  unfold mediaMove
  split
  · next hvalid =>
      cases hfind : lib.items.find? (·.id = id) with
      | none => exact h
      | some item =>
        have hitem := List.mem_of_find?_eq_some hfind
        have hid : item.id = id := by simpa using List.find?_some hfind
        have hrec := h.recorded item hitem
        simp only [hrec.paths, if_true]
        by_cases hdest : item.dir = dest
        · subst hdest
          rwa [h.mediaMove_self hitem hid]
        · obtain ⟨hnoVariant, hnoStem⟩ := hapart item hitem hid hdest
          have hmoved : ({ item with dir := dest } : MediaItem).Recorded tools username := by
            refine ⟨hrec.isStem, hrec.name, ?_⟩
            have := hrec.paths
            simp only [MediaItem.pathsValid, Bool.and_eq_true] at this ⊢
            exact ⟨⟨this.1.1, hvalid⟩, this.2⟩
          have hmem : ∀ {other : MediaItem},
              other ∈ lib.items.map (fun i => if i.id = id then { i with dir := dest } else i) ↔
                other = { item with dir := dest } ∨ other ∈ lib.items ∧ other.id ≠ id :=
            h.mem_moved hitem hid
          refine ⟨?_, ?_, ?_, ?_, ?_, ?_⟩
          · intro other ho
            rcases hmem.mp ho with rfl | ⟨ho, -⟩
            · exact hmoved
            · exact h.recorded other ho
          · intro other ho
            rcases hmem.mp ho with rfl | ⟨ho, -⟩
            · exact h.fresh item hitem
            · exact h.fresh other ho
          · intro a ha b hb hab
            rcases hmem.mp ha with rfl | ⟨ha, hane⟩ <;> rcases hmem.mp hb with rfl | ⟨hb, hbne⟩
            · rfl
            · exact absurd (hab.symm.trans hid) hbne
            · exact absurd (hab.trans hid) hane
            · exact h.ids a ha b hb hab
          · intro a ha b hb hdir hstem
            rcases hmem.mp ha with rfl | ⟨ha, hane⟩ <;> rcases hmem.mp hb with rfl | ⟨hb, hbne⟩
            · rfl
            · exact absurd hstem.symm (hnoStem b hb hdir.symm)
            · exact absurd hstem (hnoStem a ha hdir)
            · exact h.stems a ha b hb hdir hstem
          · exact fun other ho v => h.files_move hitem hid hdest hnoVariant hnoStem (hmem.mp ho) v
          · intro dir name hsome
            obtain ⟨other, ho, hdir, hname⟩ := h.only_move hitem hid hdest hnoVariant hsome
            exact ⟨other, hmem.mpr ho, hdir, hname⟩
  · exact h

/-! ## Uploading -/

/-- The variant of a stored upload is not the upload. -/
theorem variant_ne_upload (stem ext e : Bytes) (v : Variant) :
    stem ++ (v.suffix ++ ext) ≠ stem ++ 46 :: e := by
  intro heq
  have := List.append_cancel_left heq
  cases v <;> simp [Variant.suffix, lit] at this

/-- What is at a path after an upload is taken. -/
theorem processImage_apply {stem e : Bytes} (he : 46 ∉ e)
    (himage : tools.isImage data = true) (hfree : disk (dir, stem ++ 46 :: e) = none) :
    ∃ disk', processImage tools (disk.write (dir, stem ++ 46 :: e) (.regular data)) dir
        (stem ++ 46 :: e) data =
          (disk', some (stem ++ (Variant.full.suffix ++ outputExt tools data))) ∧
      (∀ v : Variant, disk' (dir, stem ++ (v.suffix ++ v.ext (outputExt tools data))) =
        some (.regular (tools.render (tools.suitableForGif data) v data))) ∧
      ∀ path, (∀ v : Variant, path ≠ (dir, stem ++ (v.suffix ++ v.ext (outputExt tools data)))) →
        disk' path = disk path := by
  simp only [processImage, splitName_append stem he, himage, if_true]
  refine ⟨_, rfl, ?_, ?_⟩
  · intro v
    rw [FileMap.unlink_apply, if_neg]
    · refine FileMap.foldl_write_of_mem _ _ ?_ v.mem_all
      rintro v - w - hkey
      exact (Variant.names_inj (v.ext_mem (outputExt_mem _)) (w.ext_mem (outputExt_mem _))
        (congrArg Prod.snd hkey)).2.1
    · intro heq
      exact variant_ne_upload _ _ _ v (congrArg Prod.snd heq)
  · intro path hpath
    rw [FileMap.unlink_apply]
    split_ifs with hraw
    · rw [hraw, hfree]
    · rw [FileMap.foldl_write_of_notMem _ _ _ _ fun v _ => hpath v, FileMap.write_of_ne _ _ hraw]

/-- An item's stem is taken in its directory. -/
theorem MediaInv.stemTaken (h : MediaInv tools username lib) (hitem : item ∈ lib.items) :
    mediaStemTaken (present lib.disk item.dir) item.stem = true := by
  have hfull := h.files item hitem .full
  rw [(h.recorded item hitem).path] at hfull
  have hthere : present lib.disk item.dir
      (item.stem ++ (Variant.full.suffix ++ outputExt tools item.source)) = true := by
    rw [present]
    exact Option.isSome_of_eq_some hfull
  rw [mediaStemTaken, List.any_eq_true]
  by_cases hgif : tools.suitableForGif item.source = true
  · refine ⟨"_full.gif", by decide, ?_⟩
    rw [outputExt, if_pos hgif] at hthere
    exact hthere
  · refine ⟨"_full.jpg", by decide, ?_⟩
    rw [outputExt, if_neg hgif] at hthere
    exact hthere

/-- The library with the record of an upload, and its files. -/
theorem MediaInv.insert (h : MediaInv tools username lib)
    {stem : Bytes} {disk' : Disk} (hstem : IsStem stem)
    (hvalid : (mediaUsernameValid username && mediaDirNameValid dir) = true)
    (hfree : mediaStemTaken (present lib.disk dir) stem = false)
    (hnew : ∀ v : Variant, disk' (dir, stem ++ (v.suffix ++ v.ext (outputExt tools data))) =
      some (.regular (tools.render (tools.suitableForGif data) v data)))
    (hold : ∀ path, (∀ v : Variant,
      path ≠ (dir, stem ++ (v.suffix ++ v.ext (outputExt tools data)))) →
      disk' path = lib.disk path) : MediaInv tools username
      { items := lib.items ++ [⟨lib.nextId, stem ++ outputExt tools data, dir, data⟩]
        disk := disk', nextId := lib.nextId + 1 } := by
  set item : MediaItem := ⟨lib.nextId, stem ++ outputExt tools data, dir, data⟩ with hitem
  have hsplit : item.stem = stem := by rw [MediaItem.stem, IsStem.split (outputExt_mem data)]
  have hrec : item.Recorded tools username := by
    refine ⟨by rwa [hsplit], by rw [hsplit], ?_⟩
    rw [MediaItem.pathsValid, hvalid, Bool.true_and]
    refine hstem.fileNameValid ?_
    have hexts : ∀ ext ∈ variantExts, ∀ b ∈ ext, (isPathByte b || b == 46) = true := by
      decide
    exact hexts _ (outputExt_mem data)
  -- the stem was free, so it is no other item's
  have hother : ∀ other ∈ lib.items, other.dir = dir → other.stem ≠ stem := by
    rintro other ho rfl heq
    have := h.stemTaken ho
    rw [heq, hfree] at this
    cases this
  have hmem : ∀ {other : MediaItem}, other ∈ lib.items ++ [item] ↔
      other ∈ lib.items ∨ other = item := by simp
  refine ⟨?_, ?_, ?_, ?_, ?_, ?_⟩
  · intro other ho
    rcases hmem.mp ho with ho | rfl
    · exact h.recorded other ho
    · exact hrec
  · intro other ho
    rcases hmem.mp ho with ho | rfl
    · exact (h.fresh other ho).trans (Nat.lt_succ_self _)
    · exact Nat.lt_succ_self _
  · intro a ha b hb hab
    rcases hmem.mp ha with ha | rfl <;> rcases hmem.mp hb with hb | rfl
    · exact h.ids a ha b hb hab
    · exact absurd hab (h.fresh a ha).ne
    · exact absurd hab (h.fresh b hb).ne'
    · rfl
  · intro a ha b hb hdir hsame
    rcases hmem.mp ha with ha | rfl <;> rcases hmem.mp hb with hb | rfl
    · exact h.stems a ha b hb hdir hsame
    · exact absurd (hsame.trans hsplit) (hother a ha hdir)
    · exact absurd (hsame.symm.trans hsplit) (hother b hb hdir.symm)
    · rfl
  · intro other ho v
    rcases hmem.mp ho with ho | rfl
    · change disk' _ = _
      rw [hold, h.files other ho v]
      intro w heq
      obtain ⟨hdir, hpath⟩ := Prod.mk.inj heq
      rw [(h.recorded other ho).path] at hpath
      exact hother other ho hdir (Variant.names_inj (v.ext_mem (outputExt_mem _))
        (w.ext_mem (outputExt_mem _)) hpath).1
    · have := hnew v
      rw [hrec.path, hsplit]
      exact this
  · intro d name hsome
    by_cases hnewPath : ∃ v : Variant,
        (d, name) = (dir, stem ++ (v.suffix ++ v.ext (outputExt tools data)))
    · obtain ⟨v, heq⟩ := hnewPath
      obtain ⟨rfl, rfl⟩ := Prod.mk.inj heq
      refine ⟨item, hmem.mpr (Or.inr rfl), rfl, v, ?_⟩
      rw [hrec.path, hsplit]
    · change (disk' (d, name)).isSome = true at hsome
      rw [hold _ (not_exists.mp hnewPath)] at hsome
      obtain ⟨other, ho, hdir, v, hv⟩ := h.only d name hsome
      exact ⟨other, hmem.mpr (Or.inl ho), hdir, v, hv⟩

/-- **An upload writes the files of a new item only.** -/
theorem MediaInv.upload (h : MediaInv tools username lib)
    {filename : Bytes} (hapart : Apart tools lib (.upload filename data dir)) :
    MediaInv tools username (mediaUpload tools username lib filename data dir) := by
  unfold mediaUpload
  split
  · next hvalid =>
      cases hname : mediaUploadName (present lib.disk dir) filename data with
      | none => exact h
      | some name =>
        obtain ⟨stem, e, hstem, rfl, he, hfree⟩ := uploadName_shape hname
        by_cases hpresent : present lib.disk dir (stem ++ 46 :: e) = true
        · simp only [hpresent, if_true]
          exact h
        · simp only [hpresent, Bool.false_eq_true, if_false]
          have hnone : lib.disk (dir, stem ++ 46 :: e) = none := by
            simpa [present] using hpresent
          by_cases himage : tools.isImage data = true
          · obtain ⟨disk', hproc, hnew, hold⟩ := processImage_apply he himage hnone
            have hrecover : Recoverable stem := by
              simpa [splitName_append stem he] using hapart himage _ hname
            simp only [hproc, hrecover.dbName (outputExt_mem data)]
            exact h.insert hstem hvalid hfree hnew hold
          · have hdisk : (lib.disk.write (dir, stem ++ 46 :: e) (.regular data)).unlink
                (dir, stem ++ 46 :: e) = lib.disk := by
              funext path
              rw [FileMap.unlink_apply]
              split_ifs with hraw
              · rw [hraw, hnone]
              · rw [FileMap.write_of_ne _ _ hraw]
            simp only [processImage, himage, Bool.false_eq_true, if_false, hdisk]
            exact h
  · exact h

/-! ## Runs -/

/-- What an action that keeps apart leaves intact. -/
theorem MediaInv.next (h : MediaInv tools username lib) {action : MediaAction}
    (hapart : Apart tools lib action) :
    MediaInv tools username (lib.next tools username action) := by
  cases action with
  | upload filename data dir => exact h.upload hapart
  | delete id => exact h.delete hapart
  | move id dest => exact h.move hapart

/-- **In every run whose steps keep apart, no item loses its files or has them replaced.** -/
theorem media_intact (tools : ImageTools) (username : Bytes) (run : List MediaAction)
    (hapart : ∀ before action after, run = before ++ action :: after →
      Apart tools ((mediaLibrary tools username).after before) action) :
    Intact tools ((mediaLibrary tools username).after run) := by
  have hinv := @Machine.after_induction _ _ _ (mediaLibrary tools username)
    (fun run lib => (∀ before action after, run = before ++ action :: after →
      Apart tools ((mediaLibrary tools username).after before) action) →
      MediaInv tools username lib) (fun _ => mediaInv_init) (by
        intro run action ih hrun
        exact (ih fun before a after heq =>
          hrun before a (after ++ [action]) (by rw [heq]; simp)).next (hrun run action [] rfl)) run
  exact (hinv hapart).intact

/-- Programs that take everything for a photograph. -/
def photoTools : ImageTools where
  isImage _ := true
  suitableForGif _ := false
  render _ v data := v.suffix ++ data

/-- The beginning of a JPEG file. -/
def photoData : Bytes := [0xFF, 0xD8, 0xFF]

/-- Two photographs of one name, of which the first moves and the second is deleted. -/
def photoRun : List MediaAction :=
  [.upload (lit "photo.jpg") photoData (lit "travel"),
    .upload (lit "photo.jpg") (photoData ++ [1]) (lit "travel"),
    .move 0 (lit "archive"), .delete 1]

theorem media_intact_photoRun :
    Intact photoTools ((mediaLibrary photoTools (lit "ana")).after photoRun) := by
  refine media_intact photoTools (lit "ana") photoRun ?_
  intro before action after h
  rw [photoRun] at h
  rcases before with _ | ⟨a, _ | ⟨b, _ | ⟨c, _ | ⟨d, before⟩⟩⟩⟩
  all_goals simp only [List.nil_append, List.cons_append, List.cons.injEq] at h
  · obtain ⟨rfl, -⟩ := h
    decide
  · obtain ⟨rfl, rfl, -⟩ := h
    decide +kernel
  · obtain ⟨rfl, rfl, rfl, -⟩ := h
    decide +kernel
  · obtain ⟨rfl, rfl, rfl, rfl, -⟩ := h
    decide +kernel
  · exact absurd h.2.2.2.2.symm (by simp)

/-- A delete, a move and an upload that leave an item without its files: the name of one item is
that of a variant of another, the stem of one is the stem of another where it moves to, and the
first `_full` of a name is not the one the optimizer added. -/
theorem media_not_intact :
    ¬ Intact photoTools ((mediaLibrary photoTools (lit "ana")).after
        [.upload (lit "photo_full.jpg") photoData (lit "travel"),
          .upload (lit "photo.jpg") (photoData ++ [1]) (lit "travel"), .delete 0]) ∧
      ¬ Intact photoTools ((mediaLibrary photoTools (lit "ana")).after
        [.upload (lit "photo.jpg") photoData (lit "travel"),
          .upload (lit "photo.jpg") (photoData ++ [1]) (lit "archive"), .move 1 (lit "travel")]) ∧
      ¬ Intact photoTools ((mediaLibrary photoTools (lit "ana")).after
        [.upload (lit "my_fullscreen.jpg") photoData (lit "travel")]) := by
  refine ⟨?_, ?_, ?_⟩
  · intro h
    have hfile := h ⟨1, lit "photo.jpg", lit "travel", photoData ++ [1]⟩ (by decide) .full
    revert hfile
    decide
  · intro h
    have hfile := h ⟨0, lit "photo.jpg", lit "travel", photoData⟩ (by decide) .full
    revert hfile
    decide
  · intro h
    have hfile := h ⟨0, lit "myscreen_full.jpg", lit "travel", photoData⟩ (by decide) .full
    revert hfile
    decide

end BoatRudder.WebServer
