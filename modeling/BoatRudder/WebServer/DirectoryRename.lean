import BoatRudder.Runs.FileMap
import BoatRudder.WebServer.MediaNames

/-! # Renaming a media directory

The route that renames the directory on the disk and then the record. What each step answers is given
from outside. The two stay in step exactly when no step fails behind the one that renamed the
directory, and none behind the record of a directory that was never created. -/

namespace BoatRudder.WebServer

open FileMap

/-! ## The two stores -/

/-- The id of a document. -/
abbrev MediaId : Type := ℕ

/-- What is read of a document of `media_directories`. -/
structure MediaDirectory where
  name : Bytes
  authorId : MediaId
deriving DecidableEq, Repr

/-- The directories under `./html/content/posts`, by owner and name, with the files in each. -/
abbrev DirectoryTree : Type := FileMap (Bytes × Bytes) (List Bytes)

/-- The records and the disk. -/
structure DirectoryStore where
  directories : List (MediaId × MediaDirectory)
  /-- What `cms_get_username_by_id` gives for an author. -/
  usernames : FileMap MediaId Bytes
  disk : DirectoryTree

/-- `cms_get_media_directory_by_id`. -/
def DirectoryStore.directory (s : DirectoryStore) (id : MediaId) : Option MediaDirectory :=
  (s.directories.find? (·.1 = id)).map (·.2)

/-- `cms_get_media_directory_by_name`: whether an author has a directory of this name. -/
def DirectoryStore.nameUsed (s : DirectoryStore) (name : Bytes) (authorId : MediaId) : Bool :=
  s.directories.any fun d => d.2.name = name && d.2.authorId = authorId

/-- `cms_rename_media_directory` on the records: the first with this id. -/
def setName (id : MediaId) (name : Bytes) : List (MediaId × MediaDirectory) →
    List (MediaId × MediaDirectory)
  | [] => []
  | d :: ds => if d.1 = id then (d.1, { d.2 with name := name }) :: ds else d :: setName id name ds

theorem find_setName {ds : List (MediaId × MediaDirectory)} {id : MediaId} {p : MediaId × MediaDirectory}
    (h : ds.find? (·.1 = id) = some p) (name : Bytes) :
    (setName id name ds).find? (·.1 = id) = some (p.1, { p.2 with name := name }) := by
  induction ds with
  | nil => cases h
  | cons d ds ih =>
    rw [setName]
    by_cases hd : d.1 = id
    · rw [List.find?_cons_of_pos (by simpa using hd)] at h
      cases h
      rw [if_pos hd, List.find?_cons_of_pos (by simpa using hd)]
    · rw [List.find?_cons_of_neg (by simpa using hd)] at h
      rw [if_neg hd, List.find?_cons_of_neg (by simpa using hd)]
      exact ih h

/-- A record given the name it has. -/
theorem setName_self {ds : List (MediaId × MediaDirectory)} {id : MediaId} {p : MediaId × MediaDirectory}
    (h : ds.find? (·.1 = id) = some p) : setName id p.2.name ds = ds := by
  induction ds with
  | nil => rfl
  | cons d ds ih =>
    rw [setName]
    by_cases hd : d.1 = id
    · rw [List.find?_cons_of_pos (by simpa using hd)] at h
      cases h
      rw [if_pos hd]
    · rw [List.find?_cons_of_neg (by simpa using hd)] at h
      rw [if_neg hd, ih h]

/-! ## The route -/

/-- What is read of the session and the body. -/
structure RenameRequest where
  role : Bytes
  userId : MediaId
  /-- `id`, if it is an id. -/
  dirId : Option MediaId
  newname : Bytes

/-- What the steps answer: false where one fails that could have succeeded. -/
structure RenameOutcomes where
  /-- The record is read. -/
  found : Bool
  /-- The owner is read. -/
  owned : Bool
  /-- The records are searched for the new name. -/
  searched : Bool
  /-- `stat` looks at the new path. -/
  looked : Bool
  /-- `rename` is let. -/
  renamed : Bool
  /-- The record is updated. -/
  updated : Bool
  /-- The record is read again and shown. -/
  rendered : Bool

/-- `send_simple`, or the fragment that shows the directory. -/
inductive RenameResponse where
  | simple (status text : Bytes)
  | fragment
deriving DecidableEq, Repr

/-- `errno`, as far as the route tells one from another. -/
inductive RenameErrno where
  | enoent
  | other
deriving DecidableEq, Repr

/-- `media_can_manage`. -/
def mediaCanManage (role : Bytes) (userId ownerId : MediaId) : Bool :=
  role = lit "admin" || userId = ownerId

/-- `rename` of directories; only an empty one is replaced. -/
def renameDirectory (disk : DirectoryTree) (old new : Bytes × Bytes) (renamed : Bool) :
    Except RenameErrno DirectoryTree :=
  if !renamed then .error .other
  else
    match disk old, disk new with
    | none, _ => .error .enoent
    | some _, some (_ :: _) => .error .other
    | some files, _ => .ok ((disk.unlink old).write new files)

/-- The disk after the step on it; none where the route gives up. -/
def renameOnDisk (disk : DirectoryTree) (owner old new : Bytes) (out : RenameOutcomes) :
    Option DirectoryTree :=
  if old = new then some disk
  else if out.looked && (disk (owner, new)).isSome then none
  else
    match renameDirectory disk (owner, old) (owner, new) out.renamed with
    | .ok disk' => some disk'
    -- never created on disk: only the record changes
    | .error .enoent => some disk
    | .error .other => none

/-- An answer that says why nothing is renamed. -/
def conflict (text : String) : RenameResponse := .simple (lit "409 Conflict") (lit text)

/-- An answer that says that something failed. -/
def serverError (text : String) : RenameResponse :=
  .simple (lit "500 Internal Server Error") (lit text)

/-- The record the request is about, its name and its owner, if everything about them is in order. -/
def renameChecks (s : DirectoryStore) (req : RenameRequest) (out : RenameOutcomes) :
    Except RenameResponse (MediaId × MediaDirectory × Bytes) :=
  match req.dirId, if out.found then req.dirId.bind s.directory else none with
  | some id, some dir =>
    if !mediaCanManage req.role req.userId dir.authorId then
      .error (.simple (lit "403 Forbidden") (lit "You can only rename your own directories"))
    else if !mediaDirNameValid req.newname then
      .error (.simple (lit "400 Bad Request")
        (lit "Invalid directory name (3-60 chars, a-z 0-9 _ -)"))
    else
      match if out.owned then s.usernames dir.authorId else none with
      | none => .error (conflict "This directory cannot be renamed")
      | some owner =>
        if !mediaUsernameValid owner || !mediaDirNameValid dir.name then
          .error (conflict "This directory cannot be renamed")
        else if dir.name ≠ req.newname && (out.searched && s.nameUsed req.newname dir.authorId) then
          .error (conflict "A directory with that name already exists")
        else .ok (id, dir, owner)
  | _, _ => .error (.simple (lit "404 Not Found") (lit "Unknown directory"))

/-- What is done once everything is in order: the disk, the record, the answer. -/
def renameSteps (s : DirectoryStore) (id : MediaId) (old new owner : Bytes) (out : RenameOutcomes) :
    DirectoryStore × RenameResponse :=
  match renameOnDisk s.disk owner old new out with
  | none => (s, serverError "Could not rename directory")
  | some disk =>
    if !out.updated then ({ s with disk := disk }, serverError "Could not rename directory")
    else
      ({ s with disk := disk, directories := setName id new s.directories },
        if out.rendered then .fragment else serverError "Render error")

/-- The rename route. -/
def mediaDirectoryRename (s : DirectoryStore) (req : RenameRequest) (out : RenameOutcomes) :
    DirectoryStore × RenameResponse :=
  match renameChecks s req out with
  | .error response => (s, response)
  | .ok (id, dir, owner) => renameSteps s id dir.name req.newname owner out

/-! ## In step -/

variable {s : DirectoryStore} {req : RenameRequest} {out : RenameOutcomes} {id : MediaId}
  {dir : MediaDirectory} {owner : Bytes}

/-- The route's work leaves the record of the directory with the name under which its files are on the
disk, and nothing has changed when it answers with an error. -/
structure InStep (s : DirectoryStore) (req : RenameRequest) (r : DirectoryStore × RenameResponse) :
    Prop where
  failed : r.2 ≠ .fragment → r.1 = s
  files : ∀ id dir owner, req.dirId = some id → s.directory id = some dir →
    s.usernames dir.authorId = some owner →
      ∃ dir', r.1.directory id = some dir' ∧ r.1.disk (owner, dir'.name) = s.disk (owner, dir.name)

/-- The request passes the checks with another name, the new path is not seen and `rename` is let. -/
structure Renames (s : DirectoryStore) (req : RenameRequest) (out : RenameOutcomes) (id : MediaId)
    (dir : MediaDirectory) (owner : Bytes) : Prop where
  checks : renameChecks s req out = .ok (id, dir, owner)
  differ : dir.name ≠ req.newname
  unseen : (out.looked && (s.disk (owner, req.newname)).isSome) = false
  renamed : out.renamed = true

/-- A directory can be renamed to this path: there is nothing there, or an empty one. -/
def DirectoryStore.free (s : DirectoryStore) (path : Bytes × Bytes) : Prop :=
  s.disk path = none ∨ s.disk path = some []

/-- The condition: a directory that is moved on the disk has its record updated and shown; the record of
one that was never created, when it is updated, is shown, and no directory is at the new path. -/
def RenameSafe (s : DirectoryStore) (req : RenameRequest) (out : RenameOutcomes) : Prop :=
  ∀ id dir owner, Renames s req out id dir owner →
    ((s.disk (owner, dir.name)).isSome = true → s.free (owner, req.newname) →
      out.updated = true ∧ out.rendered = true) ∧
    (s.disk (owner, dir.name) = none → out.updated = true →
      out.rendered = true ∧ s.disk (owner, req.newname) = none)

/-! ## The checks and the disk -/

/-- What has passed the checks is the record of the request, with its owner. -/
theorem of_renameChecks (h : renameChecks s req out = .ok (id, dir, owner)) :
    req.dirId = some id ∧ s.directory id = some dir ∧ s.usernames dir.authorId = some owner := by
  rw [renameChecks] at h
  split at h
  · rename_i id' dir' hid hdir
    have hdirectory : s.directory id' = some dir' := by
      cases hf : out.found with
      | false => simp [hf] at hdir
      | true => simpa [hf, hid] using hdir
    by_cases hmanage : (!mediaCanManage req.role req.userId dir'.authorId) = true
    · rw [if_pos hmanage] at h
      cases h
    by_cases hnew : (!mediaDirNameValid req.newname) = true
    · rw [if_neg hmanage, if_pos hnew] at h
      cases h
    rw [if_neg hmanage, if_neg hnew] at h
    split at h
    · cases h
    · rename_i owner' howner
      have husername : s.usernames dir'.authorId = some owner' := by
        cases ho : out.owned with
        | false => simp [ho] at howner
        | true => simpa [ho] using howner
      split_ifs at h with hvalid hclash
      cases h
      exact ⟨hid, hdirectory, husername⟩
  · cases h

/-- What the disk step does to a directory that gets another name. -/
theorem renameOnDisk_of_renames (h : Renames s req out id dir owner) :
    renameOnDisk s.disk owner dir.name req.newname out =
      match s.disk (owner, dir.name), s.disk (owner, req.newname) with
      | none, _ => some s.disk
      | some _, some (_ :: _) => none
      | some files, _ => some ((s.disk.unlink (owner, dir.name)).write (owner, req.newname) files) := by
  rw [renameOnDisk, if_neg h.differ, if_neg (by simp [h.unseen]), renameDirectory,
    if_neg (by simp [h.renamed])]
  cases s.disk (owner, dir.name) with
  | none => rfl
  | some files => rcases s.disk (owner, req.newname) with _ | _ | ⟨f, fs⟩ <;> rfl

/-- Nothing changed is in step. -/
theorem inStep_of_unchanged {r : DirectoryStore × RenameResponse} (h : r.1 = s) : InStep s req r where
  failed := fun _ => h
  files := by
    intro id dir owner _ hdir _
    exact ⟨dir, by rw [h, hdir], by rw [h]⟩

/-- A request that is not of this kind changes nothing. -/
theorem unchanged_of_not_renames (h : ¬ ∃ id dir owner, Renames s req out id dir owner) :
    (mediaDirectoryRename s req out).1 = s := by
  rw [mediaDirectoryRename]
  cases hchecks : renameChecks s req out with
  | error response => rfl
  | ok r =>
    obtain ⟨id, dir, owner⟩ := r
    show (renameSteps s id dir.name req.newname owner out).1 = s
    rw [renameSteps]
    by_cases hname : dir.name = req.newname
    · -- the same name: the record is written as it is
      obtain ⟨p, hp, rfl⟩ := Option.map_eq_some_iff.mp (of_renameChecks hchecks).2.1
      rw [renameOnDisk, if_pos hname, ← hname, setName_self hp]
      show (if !out.updated then (s, _) else (s, _)).1 = s
      split_ifs <;> rfl
    · have hnone : renameOnDisk s.disk owner dir.name req.newname out = none := by
        rw [renameOnDisk, if_neg hname]
        by_cases hseen : (out.looked && (s.disk (owner, req.newname)).isSome) = true
        · rw [if_pos hseen]
        · have hlet : out.renamed = false := by
            by_contra hrenamed
            exact h ⟨id, dir, owner, hchecks, hname, by simpa using hseen, by simpa using hrenamed⟩
          rw [if_neg hseen, renameDirectory, if_pos (by simp [hlet])]
      rw [hnone]

/-! ## When they stay in step -/

theorem directory_setName {t : DirectoryTree} (h : s.directory id = some dir) (name : Bytes) :
    DirectoryStore.directory { s with disk := t, directories := setName id name s.directories } id =
      some { dir with name := name } := by
  obtain ⟨p, hp, rfl⟩ := Option.map_eq_some_iff.mp h
  rw [DirectoryStore.directory, find_setName hp name]
  rfl

/-- A record with another name is another record. -/
theorem setName_ne (h : s.directory id = some dir) {name : Bytes} (hname : dir.name ≠ name)
    (disk : DirectoryTree) :
    { s with disk := disk, directories := setName id name s.directories } ≠ s := by
  intro heq
  have hdir := directory_setName (t := disk) h name
  rw [heq, h] at hdir
  exact hname (congrArg MediaDirectory.name (Option.some.inj hdir))

/-- A directory that is not on the disk: the record alone is changed. -/
theorem inStep_of_missing (h : Renames s req out id dir owner) (hold : s.disk (owner, dir.name) = none) :
    InStep s req (mediaDirectoryRename s req out) ↔
      (out.updated = true → out.rendered = true ∧ s.disk (owner, req.newname) = none) := by
  obtain ⟨hid, hdir, hown⟩ := of_renameChecks h.checks
  have hroute : mediaDirectoryRename s req out =
      if !out.updated then (s, serverError "Could not rename directory")
      else
        ({ s with disk := s.disk, directories := setName id req.newname s.directories },
          if out.rendered then .fragment else serverError "Render error") := by
    rw [mediaDirectoryRename, h.checks]
    show renameSteps s id dir.name req.newname owner out = _
    rw [renameSteps, renameOnDisk_of_renames h, hold]
  rw [hroute]
  cases hupdated : out.updated with
  | false => exact iff_of_true (inStep_of_unchanged rfl) nofun
  | true =>
    constructor
    · intro hstep _
      refine ⟨?_, ?_⟩
      · by_contra hrendered
        refine setName_ne hdir h.differ s.disk (hstep.failed ?_)
        simp [hrendered, serverError]
      · obtain ⟨dir', hdir', hfiles⟩ := hstep.files id dir owner hid hdir hown
        have hnew := (directory_setName hdir req.newname).symm.trans hdir'
        rw [← Option.some.inj hnew] at hfiles
        exact hfiles.trans hold
    · intro hcond
      obtain ⟨hrendered, hnew⟩ := hcond rfl
      refine ⟨fun hfailed => absurd (by simp [hrendered]) hfailed, ?_⟩
      intro id' dir' owner' hid' hdir' hown'
      obtain rfl := Option.some.inj (hid.symm.trans hid')
      obtain rfl := Option.some.inj (hdir.symm.trans hdir')
      obtain rfl := Option.some.inj (hown.symm.trans hown')
      exact ⟨_, directory_setName hdir req.newname, hnew.trans hold.symm⟩

/-- A directory that cannot be moved to where another one is: nothing changes. -/
theorem unchanged_of_taken (h : Renames s req out id dir owner) {files : List Bytes}
    (hold : s.disk (owner, dir.name) = some files) (htaken : ¬ s.free (owner, req.newname)) :
    (mediaDirectoryRename s req out).1 = s := by
  rw [mediaDirectoryRename, h.checks]
  show (renameSteps s id dir.name req.newname owner out).1 = s
  rw [renameSteps, renameOnDisk_of_renames h, hold]
  rcases hnew : s.disk (owner, req.newname) with _ | _ | ⟨f, fs⟩
  · exact absurd (Or.inl hnew) htaken
  · exact absurd (Or.inr hnew) htaken
  · rfl

/-- A directory that is moved on the disk. -/
theorem inStep_of_moved (h : Renames s req out id dir owner) {files : List Bytes}
    (hold : s.disk (owner, dir.name) = some files) (hfree : s.free (owner, req.newname)) :
    InStep s req (mediaDirectoryRename s req out) ↔ out.updated = true ∧ out.rendered = true := by
  obtain ⟨hid, hdir, hown⟩ := of_renameChecks h.checks
  have hne : ((owner, req.newname) : Bytes × Bytes) ≠ (owner, dir.name) :=
    fun heq => h.differ (congrArg Prod.snd heq).symm
  have hroute : mediaDirectoryRename s req out =
      if !out.updated then
        ({ s with disk := (s.disk.unlink (owner, dir.name)).write (owner, req.newname) files },
          serverError "Could not rename directory")
      else
        ({ s with
            disk := (s.disk.unlink (owner, dir.name)).write (owner, req.newname) files
            directories := setName id req.newname s.directories },
          if out.rendered then .fragment else serverError "Render error") := by
    rw [mediaDirectoryRename, h.checks]
    show renameSteps s id dir.name req.newname owner out = _
    rw [renameSteps, renameOnDisk_of_renames h, hold]
    rcases hfree with hnew | hnew <;> rw [hnew]
  rw [hroute]
  cases hupdated : out.updated with
  | false =>
    refine iff_of_false (fun hstep => ?_) (by simp)
    -- the directory is gone from where the record says it is
    have hsame := congrArg (fun t : DirectoryStore => t.disk (owner, dir.name))
      (hstep.failed (by simp [serverError]))
    simp only [Bool.not_false, if_true] at hsame
    rw [write_of_ne _ _ hne.symm, unlink_apply, if_pos rfl, hold] at hsame
    cases hsame
  | true =>
    constructor
    · intro hstep
      refine ⟨rfl, ?_⟩
      by_contra hrendered
      refine setName_ne hdir h.differ _ (hstep.failed ?_)
      simp [hrendered, serverError]
    · rintro ⟨-, hrendered⟩
      refine ⟨fun hfailed => absurd (by simp [hrendered]) hfailed, ?_⟩
      intro id' dir' owner' hid' hdir' hown'
      obtain rfl := Option.some.inj (hid.symm.trans hid')
      obtain rfl := Option.some.inj (hdir.symm.trans hdir')
      obtain rfl := Option.some.inj (hown.symm.trans hown')
      refine ⟨_, directory_setName hdir req.newname, ?_⟩
      rw [hold]
      exact write_self _ _ _

/-- **The disk and the record stay in step exactly on the condition.** -/
theorem directoryRename_inStep_iff (s : DirectoryStore) (req : RenameRequest) (out : RenameOutcomes) :
    InStep s req (mediaDirectoryRename s req out) ↔ RenameSafe s req out := by
  by_cases hex : ∃ id dir owner, Renames s req out id dir owner
  · obtain ⟨id, dir, owner, h⟩ := hex
    have honly : ∀ {id' dir' owner'}, Renames s req out id' dir' owner' →
        id' = id ∧ dir' = dir ∧ owner' = owner := by
      intro id' dir' owner' h'
      have heq := Except.ok.inj (h'.checks.symm.trans h.checks)
      simpa using heq
    have hsafe : RenameSafe s req out ↔
        ((s.disk (owner, dir.name)).isSome = true → s.free (owner, req.newname) →
          out.updated = true ∧ out.rendered = true) ∧
        (s.disk (owner, dir.name) = none → out.updated = true →
          out.rendered = true ∧ s.disk (owner, req.newname) = none) := by
      refine ⟨fun hsafe => hsafe id dir owner h, fun hcond id' dir' owner' h' => ?_⟩
      obtain ⟨rfl, rfl, rfl⟩ := honly h'
      exact hcond
    rw [hsafe]
    cases hold : s.disk (owner, dir.name) with
    | none =>
      rw [inStep_of_missing h hold]
      simp
    | some files =>
      by_cases hfree : s.free (owner, req.newname)
      · rw [inStep_of_moved h hold hfree]
        simp [hfree]
      · refine iff_of_true (inStep_of_unchanged (unchanged_of_taken h hold hfree)) ?_
        simp [hfree]
  · refine iff_of_true (inStep_of_unchanged (unchanged_of_not_renames hex)) ?_
    intro id dir owner h
    exact absurd ⟨id, dir, owner, h⟩ hex

/-- A directory with a photo, and its author. -/
def photoStore : DirectoryStore where
  directories := [(1, ⟨lit "holidays", 7⟩)]
  usernames := fun id => if id = 7 then some (lit "ana") else none
  disk := fun path => if path = (lit "ana", lit "holidays") then some [lit "sea.jpg"] else none

/-- Its author renames it. -/
def renameHolidays : RenameRequest := ⟨lit "author", 7, some 1, lit "summer"⟩

/-- The database cannot be written to once the directory has been renamed. -/
def updateFails : RenameOutcomes := ⟨true, true, true, true, true, false, true⟩

/-- The route reports a failure, and the photos are where no record says they are. -/
theorem directoryRename_out_of_step :
    ¬ InStep photoStore renameHolidays (mediaDirectoryRename photoStore renameHolidays updateFails) := by
  intro h
  have hsame := congrArg (fun t : DirectoryStore => t.disk (lit "ana", lit "holidays"))
    (h.failed (by decide))
  exact absurd hsame (by decide)

end BoatRudder.WebServer
