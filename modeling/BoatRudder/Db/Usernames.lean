import BoatRudder.Db.AccountRequests

/-! # A username for every user

`cms_users_ensure_usernames`: at the start of the server every user without a username gets one, the
name of the folder that holds their media directories, else one made from their email. The suffixes
of a name from an email are tried up to `-999`, and the last is taken as it is: usernames end up
distinct exactly when they were, and none of the searches runs out (**`usernamesEnsured_iff`**). -/

namespace BoatRudder.Db

open Collection

/-! ## The collection -/

/-- A document of `users`, as the migration reads and writes it. -/
structure NamedUser where
  oid : Oid
  /-- The string, when there is one. -/
  username : Option Bytes
  email : Option Bytes
  deriving DecidableEq, Repr

/-- What the query of a batch finds: a user whose username is missing or empty. -/
def NamedUser.unnamed (u : NamedUser) : Bool := u.username = none || u.username = some []

/-- The collection, in the order of `_id`. -/
structure NamedUsers where
  docs : List NamedUser
  sorted : (docs.map (·.oid)).Pairwise (· < ·)

namespace NamedUsers

variable (users : NamedUsers)

/-- `username_taken`, when the database answers. -/
def taken (username : Bytes) : Bool := users.docs.any fun u => u.username = some username

/-- The update of a batch: `username` of the user with this `_id` is set. -/
def setUsername (oid : Oid) (username : Bytes) : NamedUsers where
  docs := updateOne (fun u => u.oid = oid) (fun u => { u with username := some username }) users.docs
  sorted := by
    have hoids := map_updateOne (f := NamedUser.oid) (g := fun u => { u with username := some username })
      (fun _ => rfl) (fun u => u.oid = oid) users.docs
    rw [hoids]
    exact users.sorted

/-- The users without a username, oldest first, with their emails as a batch copies them. -/
def usernameless : List (Oid × Bytes) :=
  (users.docs.filter (·.unnamed)).map fun u => (u.oid, (cstr (u.email.getD [])).take 255)

end NamedUsers

/-! ## Names from emails -/

/-- The characters `cms_username_from_email` keeps, and those of a media folder. -/
def isNameChar (c : UInt8) : Bool := isAlnum c || c == 45 || c == 95 || c == 46

/-- `cms_username_from_email`, into `outSize` bytes. -/
def usernameFromEmail (email : Bytes) (outSize : ℕ) : Bytes :=
  (((cstr email).takeWhile (· ≠ 64)).take (outSize - 1)).map fun c => if isNameChar c then c else 45

/-- The name `username_for_email` begins with. -/
def usernameBase (email : Bytes) : Bytes :=
  let base := (lower (usernameFromEmail email 64)).dropWhile (· = 46)
  let base := if base.length < 3 then lit "user-" ++ base else base
  -- room for "-NNN"
  base.take 28

/-- The name with a suffix. -/
def suffixed (base : Bytes) (n : ℕ) : Bytes := base ++ lit "-" ++ decimal n

/-- The loop of `username_for_email`, with so many rounds left. -/
def searchUsername (taken : Bytes → Bool) (base : Bytes) : ℕ → ℕ → Bytes → Bytes
  | 0, _, out => out
  | rounds + 1, n, out =>
    if taken out then searchUsername taken base rounds (n + 1) (suffixed base n) else out

/-- `username_for_email`. -/
def NamedUsers.usernameForEmail (users : NamedUsers) (email : Bytes) : Bytes :=
  searchUsername users.taken (usernameBase email) 998 2 (usernameBase email)

/-! ## Names from folders -/

/-- A document of `media_directories`. -/
structure MediaDirectoryDoc where
  authorId : Oid
  name : Option Bytes
  deriving DecidableEq, Repr

/-- The folder `MEDIA_POSTS_ROOT`. -/
structure PostsFolder where
  /-- What `readdir` gives. -/
  entries : List Bytes
  named : ∀ f ∈ entries, f ≠ []
  /-- Whether there is a directory at a path. -/
  isDir : Bytes → Bool

/-- A site whose server starts: its users, its media directories with the order in which a query for
those of a user finds them, its media folder. -/
structure NamingSite where
  users : NamedUsers
  directories : List MediaDirectoryDoc
  order : Oid → FindOrder MediaDirectoryDoc
  folder : PostsFolder

namespace NamingSite

variable (site : NamingSite)

/-- The names of a user's media directories, as `media_folder_of` copies them: 32 at most. -/
def dirNames (oid : Oid) : List Bytes :=
  ((((site.order oid).arrange site.directories).filter (·.authorId = oid)).filterMap (·.name)).take 32
    |>.map fun name => (cstr name).take 127

/-- How many of these directories a folder holds. -/
def hits (dirs : List Bytes) (folder : Bytes) : ℕ :=
  dirs.countP fun dir =>
    site.folder.isDir (lit "./html/content/posts/" ++ folder.take 255 ++ lit "/" ++ dir)

/-- A round of `media_folder_of` over the folders: the most hits so far, and where. -/
def folderRound (users : NamedUsers) (dirs : List Bytes) (best : ℕ × Bytes) (folder : Bytes) :
    ℕ × Bytes :=
  if folder.head? = some 46 ∨ 64 ≤ folder.length then best
  else if !folder.all isNameChar then best
  else if 0 < site.hits dirs folder ∧ users.taken folder then best
  else if best.1 < site.hits dirs folder then (site.hits dirs folder, folder)
  else best

/-- `media_folder_of`. -/
def mediaFolderOf (users : NamedUsers) (oid : Oid) : Option Bytes :=
  if site.dirNames oid = [] then none
  else
    let best := site.folder.entries.foldl (site.folderRound users (site.dirNames oid)) (0, [])
    if 0 < best.1 then some best.2 else none

/-! ## Batches -/

/-- The username a batch finds for a user. -/
def usernameOf (users : NamedUsers) (u : Oid × Bytes) : Bytes :=
  (site.mediaFolderOf users u.1).getD (users.usernameForEmail u.2)

/-- A user gets a username. -/
def nameUser (users : NamedUsers) (u : Oid × Bytes) : NamedUsers :=
  users.setUsername u.1 (site.usernameOf users u)

/-- `ensure_usernames_batch`: the users, how many of them got a username, how many were seen. Every
update succeeds. -/
def ensureUsernamesBatch (users : NamedUsers) : NamedUsers × ℕ × ℕ :=
  let batch := users.usernameless.take 100
  (batch.foldl site.nameUser users, batch.length, batch.length)

end NamingSite

/-! ## What the searches find -/

/-- The names the search tries, in their order. -/
def candidate (base : Bytes) (i : ℕ) : Bytes := if i = 0 then base else suffixed base (i + 1)

/-- One of the names that `username_for_email` may return is free. -/
def NamedUsers.SomeFree (users : NamedUsers) (email : Bytes) : Prop :=
  ∃ i < 999, users.taken (candidate (usernameBase email) i) = false

/-- A search passes over names that are taken, and stops at one that is not or at the last. -/
theorem searchUsername_eq (taken : Bytes → Bool) (base : Bytes) (rounds i : ℕ) :
    ∃ j ≤ rounds, searchUsername taken base rounds (i + 2) (candidate base i) = candidate base (i + j) ∧
      (∀ k < j, taken (candidate base (i + k)) = true) ∧
      (j < rounds → taken (candidate base (i + j)) = false) := by
  induction rounds generalizing i with
  | zero => exact ⟨0, le_rfl, rfl, by simp, by simp⟩
  | succ rounds ih =>
    cases htaken : taken (candidate base i) with
    | false => exact ⟨0, Nat.zero_le _, by simp [searchUsername, htaken], by simp, fun _ => htaken⟩
    | true =>
      obtain ⟨j, hj, heq, hpassed, hstop⟩ := ih (i + 1)
      have hindex : ∀ k, i + (k + 1) = i + 1 + k := fun k => by omega
      refine ⟨j + 1, Nat.succ_le_succ hj, ?_, fun k hk => ?_, fun hlt => ?_⟩
      · rw [searchUsername, htaken, if_pos rfl, hindex j, ← heq]
        rfl
      · cases k with
        | zero => exact htaken
        | succ k =>
          rw [hindex]
          exact hpassed k (Nat.lt_of_succ_lt_succ hk)
      · rw [hindex]
        exact hstop (Nat.lt_of_succ_lt_succ hlt)

section

variable {users : NamedUsers} {email : Bytes}

/-- The name that is given is the first candidate that nobody has. -/
theorem usernameForEmail_eq_candidate (users : NamedUsers) (email : Bytes) :
    ∃ j < 999, users.usernameForEmail email = candidate (usernameBase email) j ∧
      (∀ k < j, users.taken (candidate (usernameBase email) k) = true) ∧
      (j < 998 → users.taken (candidate (usernameBase email) j) = false) := by
  obtain ⟨j, hj, heq, hpassed, hstop⟩ := searchUsername_eq users.taken (usernameBase email) 998 0
  simp only [Nat.zero_add] at heq hpassed hstop
  exact ⟨j, Nat.lt_succ_of_le hj, heq, hpassed, hstop⟩

/-- **A name from an email is free exactly when one of the names it may be is.** -/
theorem taken_usernameForEmail :
    users.taken (users.usernameForEmail email) = false ↔ users.SomeFree email := by
  obtain ⟨j, hj, heq, hpassed, hstop⟩ := usernameForEmail_eq_candidate users email
  rw [heq]
  constructor
  · exact fun hfree => ⟨j, hj, hfree⟩
  · rintro ⟨i, hi, hfree⟩
    by_cases hlast : j < 998
    · exact hstop hlast
    · -- every name before the last is taken
      have hij : i = j := by
        by_contra hne
        rw [hpassed i (by omega)] at hfree
        exact absurd hfree (by simp)
      rwa [← hij]

/-- The characters of `cms_username_valid`. -/
def isUsernameChar (c : UInt8) : Bool :=
  (97 ≤ c && c ≤ 122) || isDigit c || c == 45 || c == 95 || c == 46

theorem isUsernameChar_toLower {c : UInt8} (h : isNameChar c = true) :
    isUsernameChar (toLower c) = true := by
  have hall : ∀ b, isNameChar b = true → isUsernameChar (toLower b) = true := by decide +kernel
  exact hall c h

theorem isUsernameChar_of_mem_base {c : UInt8} (h : c ∈ usernameBase email) : isUsernameChar c = true := by
  have hmail : ∀ b ∈ (lower (usernameFromEmail email 64)).dropWhile (· = 46), isUsernameChar b = true := by
    intro b hb
    obtain ⟨d, hd, rfl⟩ := List.mem_map.mp ((List.dropWhile_suffix _).subset hb)
    obtain ⟨e, -, rfl⟩ := List.mem_map.mp hd
    refine isUsernameChar_toLower ?_
    split_ifs with he
    · exact he
    · rfl
  have hmem := List.mem_of_mem_take h
  split_ifs at hmem with hshort
  · rcases List.mem_append.mp hmem with huser | hrest
    · exact (show ∀ b ∈ lit "user-", isUsernameChar b = true by decide) c huser
    · exact hmail c hrest
  · exact hmail c hmem

/-- A name has three signs at least, and room for a number. -/
theorem length_usernameBase (email : Bytes) :
    3 ≤ (usernameBase email).length ∧ (usernameBase email).length ≤ 28 := by
  unfold usernameBase
  simp only [List.length_take]
  split_ifs with hshort
  · rw [List.length_append, show (lit "user-").length = 5 from rfl]
    omega
  · omega

theorem head?_usernameBase : (usernameBase email).head? ≠ some 46 := by
  unfold usernameBase
  simp only [List.head?_take, if_neg (show ¬ (28 = 0) by decide)]
  split_ifs with hshort
  · simp [lit]
  · intro hhead
    have := List.head?_dropWhile_not (fun b : UInt8 => decide (b = 46)) (lower (usernameFromEmail email 64))
    rw [hhead] at this
    simp at this

/-- **A name from an email is a username.** -/
theorem usernameValid_usernameForEmail (users : NamedUsers) (email : Bytes) :
    usernameValid (users.usernameForEmail email) = true := by
  obtain ⟨j, hj, heq, -, -⟩ := usernameForEmail_eq_candidate users email
  obtain ⟨hmin, hmax⟩ := length_usernameBase email
  rw [heq, candidate]
  split_ifs with hzero
  · simp only [usernameValid, Bool.and_eq_true, decide_eq_true_eq, List.all_eq_true]
    exact ⟨⟨⟨hmin, by omega⟩, head?_usernameBase⟩, fun c hc => isUsernameChar_of_mem_base hc⟩
  · have hdigits : (decimal (j + 1)).length ≤ 3 := (length_decimal_le_iff (by decide)).mpr (by omega)
    have hlength : (suffixed (usernameBase email) (j + 1)).length =
        (usernameBase email).length + 1 + (decimal (j + 1)).length := by
      rw [suffixed, List.length_append, List.length_append]
      rfl
    have hhead : (suffixed (usernameBase email) (j + 1)).head? = (usernameBase email).head? := by
      cases hbase : usernameBase email with
      | nil => simp [hbase] at hmin
      | cons c base => rfl
    simp only [usernameValid, Bool.and_eq_true, decide_eq_true_eq, List.all_eq_true, hlength, hhead]
    refine ⟨⟨⟨by omega, by omega⟩, head?_usernameBase⟩, fun c hc => ?_⟩
    rw [suffixed, List.append_assoc] at hc
    rcases List.mem_append.mp hc with hbase | hsuffix
    · exact isUsernameChar_of_mem_base hbase
    · rcases List.mem_append.mp hsuffix with hdash | hdigit
      · obtain rfl := List.mem_singleton.mp hdash
        rfl
      · simp [isDigit_of_mem_decimal hdigit]

/-- A media folder that is found has a name, and no user has it. -/
theorem NamingSite.of_mediaFolderOf {site : NamingSite} {oid : Oid} {folder : Bytes}
    (h : site.mediaFolderOf users oid = some folder) : folder ≠ [] ∧ users.taken folder = false := by
  -- so far, the best folder is one
  have hround : ∀ fs : List Bytes, (∀ f ∈ fs, f ≠ []) → ∀ best : ℕ × Bytes,
      (0 < best.1 → best.2 ≠ [] ∧ users.taken best.2 = false) →
      0 < (fs.foldl (site.folderRound users (site.dirNames oid)) best).1 →
      (fs.foldl (site.folderRound users (site.dirNames oid)) best).2 ≠ [] ∧
        users.taken (fs.foldl (site.folderRound users (site.dirNames oid)) best).2 = false := by
    intro fs
    induction fs with
    | nil => exact fun _ best hbest => hbest
    | cons f fs ih =>
      intro hnamed best hbest
      refine ih (fun g hg => hnamed g (List.mem_cons_of_mem _ hg)) _ ?_
      unfold folderRound
      split_ifs with hskip hchars htaken hmore
      · exact hbest
      · exact hbest
      · exact hbest
      · intro hpos
        refine ⟨hnamed f List.mem_cons_self, ?_⟩
        by_contra htrue
        exact htaken ⟨hpos, by simpa using htrue⟩
      · exact hbest
  simp only [mediaFolderOf] at h
  split_ifs at h with hdirs hpos
  obtain rfl := Option.some.inj h
  exact hround _ site.folder.named (0, []) (by simp) hpos

/-- A username that is found is not empty. -/
theorem NamingSite.usernameOf_ne_nil (site : NamingSite) (users : NamedUsers) (u : Oid × Bytes) :
    site.usernameOf users u ≠ [] := by
  rw [usernameOf]
  cases hfolder : site.mediaFolderOf users u.1 with
  | some folder => exact (of_mediaFolderOf hfolder).1
  | none =>
    intro hnil
    have hvalid := usernameValid_usernameForEmail users u.2
    rw [Option.getD_none] at hnil
    rw [hnil] at hvalid
    exact absurd hvalid (by decide)

/-- A user's name from a folder is free; a name from an email is when one of the names it may be
is. -/
theorem NamingSite.taken_usernameOf (site : NamingSite) (u : Oid × Bytes) :
    users.taken (site.usernameOf users u) = false ↔
      (site.mediaFolderOf users u.1 = none → users.SomeFree u.2) := by
  rw [usernameOf]
  cases hfolder : site.mediaFolderOf users u.1 with
  | some folder => exact iff_of_true (of_mediaFolderOf hfolder).2 (by simp)
  | none =>
    rw [Option.getD_none, taken_usernameForEmail]
    exact ⟨fun h _ => h, fun h => h rfl⟩

end

/-! ## One user after the other -/

section

variable {site : NamingSite} {users : NamedUsers} {u : Oid × Bytes} {rest : List (Oid × Bytes)}

/-- The username of a user who has one. -/
def NamedUser.name? (u : NamedUser) : Option Bytes := u.username.filter (· ≠ [])

/-- The usernames there are. -/
def NamedUsers.names (users : NamedUsers) : List Bytes := users.docs.filterMap (·.name?)

theorem NamedUser.name?_eq_some {d : NamedUser} {name : Bytes} :
    d.name? = some name ↔ d.username = some name ∧ name ≠ [] := by
  rw [name?, Option.filter_eq_some_iff, decide_eq_true_eq]

theorem NamedUser.unnamed_eq_false {d : NamedUser} :
    d.unnamed = false ↔ ∃ name, d.username = some name ∧ name ≠ [] := by
  rw [unnamed, Bool.or_eq_false_iff, decide_eq_false_iff_not, decide_eq_false_iff_not]
  constructor
  · rintro ⟨hsome, hne⟩
    obtain ⟨name, hname⟩ := Option.ne_none_iff_exists'.mp hsome
    exact ⟨name, hname, fun h => hne (by rw [hname, h])⟩
  · rintro ⟨name, hname, hne⟩
    rw [hname]
    exact ⟨by simp, by simpa using hne⟩

theorem NamedUsers.taken_eq_false {name : Bytes} (hname : name ≠ []) :
    users.taken name = false ↔ name ∉ users.names := by
  rw [taken, List.any_eq_false, names, List.mem_filterMap]
  constructor
  · rintro h ⟨d, hd, hdname⟩
    exact h d hd (by simpa using (NamedUser.name?_eq_some.mp hdname).1)
  · intro h d hd hdname
    exact h ⟨d, hd, NamedUser.name?_eq_some.mpr ⟨by simpa using hdname, hname⟩⟩

/-- **What a batch does to a user**: the first user without a username gets the one that was found. -/
theorem NamingSite.nameUser_docs (site : NamingSite) (h : users.usernameless = u :: rest) :
    ∃ a d b, users.docs = a ++ d :: b ∧ d.unnamed = true ∧ (∀ e ∈ a, e.unnamed = false) ∧
      (site.nameUser users u).docs =
        a ++ { d with username := some (site.usernameOf users u) } :: b := by
  obtain ⟨d, ds, hfilter, rfl, -⟩ := List.map_eq_cons_iff.mp h
  obtain ⟨a, b, hdocs, ha, hd, -⟩ := List.filter_eq_cons_iff.mp hfilter
  refine ⟨a, d, b, hdocs, hd, fun e he => by simpa using ha e he, ?_⟩
  have hnodup : (users.docs.map (·.oid)).Nodup := users.sorted.imp ne_of_lt
  rw [hdocs] at hnodup
  show updateOne _ _ users.docs = _
  rw [hdocs]
  exact updateOne_key hnodup _

theorem unnamed_named {d : NamedUser} {name : Bytes} (hname : name ≠ []) :
    ({ d with username := some name } : NamedUser).unnamed = false := by
  simp [NamedUser.unnamed, hname]

/-- The others are left to name. -/
theorem NamingSite.usernameless_nameUser (h : users.usernameless = u :: rest) :
    (site.nameUser users u).usernameless = rest := by
  obtain ⟨a, d, b, hdocs, hd, ha, hnamed⟩ := site.nameUser_docs h
  have hskip : a.filter (·.unnamed) = [] := List.filter_eq_nil_iff.mpr fun e he => by simp [ha e he]
  rw [NamedUsers.usernameless, hdocs, List.filter_append, hskip, List.nil_append,
    List.filter_cons_of_pos hd, List.map_cons] at h
  rw [NamedUsers.usernameless, hnamed, List.filter_append, hskip, List.nil_append,
    List.filter_cons_of_neg (by simp [unnamed_named (site.usernameOf_ne_nil users u)])]
  exact (List.cons.inj h).2

/-- A batch of users leaves the others to name. -/
theorem NamingSite.usernameless_foldl {batch : List (Oid × Bytes)}
    (h : users.usernameless = batch ++ rest) :
    (batch.foldl site.nameUser users).usernameless = rest := by
  induction batch generalizing users with
  | nil => exact h
  | cons v batch ih => exact ih (usernameless_nameUser h)

theorem NamingSite.usernameless_batch :
    (site.ensureUsernamesBatch users).1.usernameless = users.usernameless.drop 100 :=
  usernameless_foldl (List.take_append_drop 100 _).symm

end

/-! ## All of them -/

/-- `cms_users_ensure_usernames`, up to the index: batches until one is not full. Each leaves fewer
users to name. -/
def NamingSite.ensureUsernames (site : NamingSite) (users : NamedUsers) : NamedUsers :=
  let batch := site.ensureUsernamesBatch users
  if 0 < batch.2.1 ∧ batch.2.2 = 100 then site.ensureUsernames batch.1 else batch.1
termination_by users.usernameless.length
decreasing_by
  rename_i hfull
  rw [usernameless_batch, List.length_drop]
  have hseen : (users.usernameless.take 100).length = 100 := hfull.2
  rw [List.length_take] at hseen
  omega

/-- The users in the end. -/
def NamingSite.ensured (site : NamingSite) : NamedUsers := site.ensureUsernames site.users

/-- **Every user ends up with their own username.** -/
structure NamingSite.UsernamesEnsured (site : NamingSite) : Prop where
  /-- The users are still the same ones. -/
  oids : site.ensured.docs.map (·.oid) = site.users.docs.map (·.oid)
  /-- Who had a username keeps it. -/
  kept : ∀ u ∈ site.users.docs, u.unnamed = false → u ∈ site.ensured.docs
  /-- The others have got one. -/
  gave : ∀ u ∈ site.users.docs, u.unnamed = true →
    ∃ name, name ≠ [] ∧ { u with username := some name } ∈ site.ensured.docs
  /-- No two share one. -/
  own : site.ensured.docs.Pairwise fun u v => u.username ≠ v.username

/-- `username_for_email` finds a name that is a username and that no user has. -/
def FreshUsername (users : NamedUsers) (email : Bytes) : Prop :=
  usernameValid (users.usernameForEmail email) = true ∧
    users.taken (users.usernameForEmail email) = false

/-- **The condition**: when a user is named from their email, one of the names it may be is free. -/
def NamingSite.FindsFree (site : NamingSite) : Prop :=
  ∀ pre u post, site.users.usernameless = pre ++ u :: post →
    site.mediaFolderOf (pre.foldl site.nameUser site.users) u.1 = none →
      (pre.foldl site.nameUser site.users).SomeFree u.2

section

variable {site : NamingSite} {users : NamedUsers}

/-- **The batches name one user after the other.** -/
theorem NamingSite.ensureUsernames_eq :
    site.ensureUsernames users = users.usernameless.foldl site.nameUser users := by
  induction users using NamingSite.ensureUsernames.induct site with
  | case1 users batch hfull ih =>
    rw [ensureUsernames, if_pos hfull, ih, usernameless_batch]
    show List.foldl _ (List.foldl site.nameUser users (users.usernameless.take 100)) _ = _
    rw [← List.foldl_append, List.take_append_drop]
  | case2 users batch hlast =>
    have hall : users.usernameless.take 100 = users.usernameless := by
      refine List.take_of_length_le ?_
      have hseen : ¬ (0 < (users.usernameless.take 100).length ∧
        (users.usernameless.take 100).length = 100) := hlast
      rw [List.length_take] at hseen
      omega
    rw [ensureUsernames, if_neg hlast]
    show List.foldl site.nameUser users (users.usernameless.take 100) = _
    rw [hall]

/-- No two users share a username, among those who have one. -/
def NamedUsers.Apart (users : NamedUsers) : Prop :=
  users.docs.Pairwise fun u v => u.unnamed = false → u.username ≠ v.username

/-- Users are apart when no name occurs twice. -/
theorem NamedUsers.apart_iff : users.Apart ↔ users.names.Nodup := by
  rw [Apart, names, List.Nodup, List.pairwise_filterMap]
  refine List.Pairwise.iff fun u v => ?_
  constructor
  · rintro h name hname _ hname' rfl
    obtain ⟨hu, hne⟩ := NamedUser.name?_eq_some.mp hname
    obtain ⟨hv, -⟩ := NamedUser.name?_eq_some.mp hname'
    exact h (NamedUser.unnamed_eq_false.mpr ⟨name, hu, hne⟩) (hu.trans hv.symm)
  · rintro h hu heq
    obtain ⟨name, hname, hne⟩ := NamedUser.unnamed_eq_false.mp hu
    exact h name (NamedUser.name?_eq_some.mpr ⟨hname, hne⟩) name
      (NamedUser.name?_eq_some.mpr ⟨heq ▸ hname, hne⟩) rfl

/-- The names when another user has been named. -/
theorem NamingSite.names_nameUser {u : Oid × Bytes} {rest : List (Oid × Bytes)}
    (h : users.usernameless = u :: rest) :
    (site.nameUser users u).names.Perm (site.usernameOf users u :: users.names) := by
  obtain ⟨a, d, b, hdocs, hd, -, hnamed⟩ := site.nameUser_docs h
  have hold : d.name? = none := by
    cases hname : d.name? with
    | none => rfl
    | some name =>
      rw [NamedUser.unnamed_eq_false.mpr ⟨name, NamedUser.name?_eq_some.mp hname⟩] at hd
      cases hd
  have hnew : ({ d with username := some (site.usernameOf users u) } : NamedUser).name? =
      some (site.usernameOf users u) := NamedUser.name?_eq_some.mpr ⟨rfl, site.usernameOf_ne_nil users u⟩
  rw [NamedUsers.names, NamedUsers.names, hnamed, hdocs, List.filterMap_append, List.filterMap_append,
    List.filterMap_cons_some hnew, List.filterMap_cons_none hold]
  exact List.perm_middle

/-- **A user who is named keeps the usernames apart** exactly when they were and the name is free. -/
theorem NamingSite.apart_nameUser {u : Oid × Bytes} {rest : List (Oid × Bytes)}
    (h : users.usernameless = u :: rest) :
    (site.nameUser users u).Apart ↔
      users.Apart ∧ (site.mediaFolderOf users u.1 = none → users.SomeFree u.2) := by
  rw [NamedUsers.apart_iff, NamedUsers.apart_iff, (names_nameUser h).nodup_iff, List.nodup_cons,
    ← NamedUsers.taken_eq_false (site.usernameOf_ne_nil users u), site.taken_usernameOf, and_comm]

/-- The same for all who are left to name. -/
theorem NamingSite.apart_foldl {us : List (Oid × Bytes)} (h : users.usernameless = us) :
    (us.foldl site.nameUser users).Apart ↔ users.Apart ∧ ∀ pre u post, us = pre ++ u :: post →
      site.mediaFolderOf (pre.foldl site.nameUser users) u.1 = none →
        (pre.foldl site.nameUser users).SomeFree u.2 := by
  induction us generalizing users with
  | nil => exact (and_iff_left fun pre u post heq => absurd heq.symm (by simp)).symm
  | cons v us ih =>
    rw [List.foldl_cons, ih (usernameless_nameUser h), apart_nameUser h, and_assoc]
    refine and_congr_right fun _ => ⟨?_, fun hall => ⟨?_, ?_⟩⟩
    · rintro ⟨hfirst, hrest⟩ (_ | ⟨w, pre⟩) u post heq
      · obtain ⟨rfl, -⟩ := List.cons.inj heq
        exact hfirst
      · obtain ⟨rfl, htail⟩ := List.cons.inj heq
        exact hrest pre u post htail
    · exact hall [] v us rfl
    · exact fun pre u post heq => hall (v :: pre) u post (by rw [heq, List.cons_append])

/-- Who has a username keeps it. -/
theorem NamingSite.mem_nameUser {u : Oid × Bytes} {rest : List (Oid × Bytes)}
    (h : users.usernameless = u :: rest) {d : NamedUser} (hd : d ∈ users.docs)
    (hnamed : d.unnamed = false) : d ∈ (site.nameUser users u).docs := by
  obtain ⟨a, e, b, hdocs, he, -, hdocs'⟩ := site.nameUser_docs h
  rw [hdocs, List.mem_append, List.mem_cons] at hd
  rw [hdocs', List.mem_append, List.mem_cons]
  rcases hd with ha | rfl | hb
  · exact Or.inl ha
  · rw [hnamed] at he
    cases he
  · exact Or.inr (Or.inr hb)

/-- Naming the users who are left keeps the names there are and gives the others one. -/
theorem NamingSite.named_foldl (site : NamingSite) {us : List (Oid × Bytes)} (h : users.usernameless = us) :
    (us.foldl site.nameUser users).docs.map (·.oid) = users.docs.map (·.oid) ∧
      (∀ d ∈ users.docs, d.unnamed = false → d ∈ (us.foldl site.nameUser users).docs) ∧
      ∀ d ∈ users.docs, d.unnamed = true →
        ∃ name, name ≠ [] ∧ { d with username := some name } ∈ (us.foldl site.nameUser users).docs := by
  induction us generalizing users with
  | nil =>
    refine ⟨rfl, fun d hd _ => hd, fun d hd hunnamed => ?_⟩
    have hmem : d ∈ users.docs.filter (·.unnamed) := List.mem_filter.mpr ⟨hd, hunnamed⟩
    rw [List.map_eq_nil_iff.mp h] at hmem
    exact absurd hmem List.not_mem_nil
  | cons u us ih =>
    obtain ⟨hoids, hkept, hgave⟩ := ih (usernameless_nameUser h)
    obtain ⟨a, e, b, hdocs, he, -, hdocs'⟩ := site.nameUser_docs h
    refine ⟨?_, fun d hd hnamed => hkept d (mem_nameUser h hd hnamed) hnamed, fun d hd hunnamed => ?_⟩
    · rw [List.foldl_cons, hoids, hdocs', hdocs]
      simp
    · rw [hdocs, List.mem_append, List.mem_cons] at hd
      rcases hd with ha | rfl | hb
      · exact hgave d (by simp [hdocs', ha]) hunnamed
      · have hne := site.usernameOf_ne_nil users u
        exact ⟨_, hne, hkept _ (by simp [hdocs']) (unnamed_named hne)⟩
      · exact hgave d (by simp [hdocs', hb]) hunnamed

/-- When nobody is left to name, usernames apart are usernames of their own. -/
theorem NamedUsers.apart_iff_own (h : users.usernameless = []) :
    users.Apart ↔ users.docs.Pairwise fun u v => u.username ≠ v.username := by
  refine List.Pairwise.iff_of_mem fun {u v} hu _ => ?_
  have hnamed : u.unnamed = false := by
    by_contra hunnamed
    have hmem : u ∈ users.docs.filter (·.unnamed) := List.mem_filter.mpr ⟨hu, by simpa using hunnamed⟩
    rw [List.map_eq_nil_iff.mp h] at hmem
    exact absurd hmem List.not_mem_nil
  exact ⟨fun himp => himp hnamed, fun hne _ => hne⟩

/-- **Usernames are ensured** exactly when those there were differed and every search finds a name
that is free. -/
theorem NamingSite.usernamesEnsured_iff (site : NamingSite) :
    site.UsernamesEnsured ↔ site.users.Apart ∧ site.FindsFree := by
  have hdone : site.ensured = site.users.usernameless.foldl site.nameUser site.users := ensureUsernames_eq
  obtain ⟨hoids, hkept, hgave⟩ := site.named_foldl (Eq.refl site.users.usernameless)
  have hleft : site.ensured.usernameless = [] := by
    rw [hdone]
    exact usernameless_foldl (List.append_nil _).symm
  have hown := NamedUsers.apart_iff_own hleft
  rw [← hdone] at hoids hkept hgave
  rw [FindsFree, ← apart_foldl rfl, ← hdone, hown]
  exact ⟨fun h => h.own, fun h => ⟨hoids, hkept, hgave, h⟩⟩

/-- **Fresh usernames**, from emails too: exactly when those there were differed and every search
finds a name that is free. -/
theorem usernames_ensured_fresh (site : NamingSite) (users : NamedUsers) (email : Bytes) :
    site.UsernamesEnsured ∧ FreshUsername users email ↔
      (site.users.Apart ∧ site.FindsFree) ∧ users.SomeFree email :=
  and_congr site.usernamesEnsured_iff
    ((and_iff_right (usernameValid_usernameForEmail _ _)).trans taken_usernameForEmail)

end

/-! ## When the suffixes run out -/

/-- Users who have all the names that an email beginning with `ana@` may give, and one without. -/
def manyAnas : NamedUsers where
  docs := (List.range 999).map (fun i => ⟨i, some (candidate (lit "ana") i), none⟩) ++
    [⟨999, none, some (lit "ana@a.org")⟩]
  sorted := by
    rw [List.map_append, List.map_map]
    show (((List.range 999).map fun i => i) ++ [999]).Pairwise _
    rw [List.map_id', ← List.range_succ]
    exact List.pairwise_lt_range

theorem usernameBase_ana : usernameBase (lit "ana@a.org") = lit "ana" := by decide

theorem candidate_ana_ne_nil (i : ℕ) : candidate (lit "ana") i ≠ [] := by
  unfold candidate suffixed
  split_ifs <;> simp [lit]

theorem usernameless_manyAnas : manyAnas.usernameless = [(999, lit "ana@a.org")] := by
  have hnamed : ((List.range 999).map fun i =>
      (⟨i, some (candidate (lit "ana") i), none⟩ : NamedUser)).filter (·.unnamed) = [] := by
    refine List.filter_eq_nil_iff.mpr fun d hd => ?_
    obtain ⟨i, -, rfl⟩ := List.mem_map.mp hd
    exact ne_true_of_eq_false (NamedUser.unnamed_eq_false.mpr ⟨_, rfl, candidate_ana_ne_nil i⟩)
  rw [NamedUsers.usernameless, manyAnas, List.filter_append, hnamed]
  decide

theorem not_someFree_manyAnas : ¬ manyAnas.SomeFree (lit "ana@a.org") := by
  rintro ⟨i, hi, hfree⟩
  rw [usernameBase_ana, NamedUsers.taken, List.any_eq_false] at hfree
  exact hfree ⟨i, some (candidate (lit "ana") i), none⟩
    (List.mem_append_left _ (List.mem_map.mpr ⟨i, List.mem_range.mpr hi, rfl⟩)) (by simp)

/-- A site with these users and no media. -/
def anaSite : NamingSite where
  users := manyAnas
  directories := []
  order := fun _ => .natural
  folder := ⟨[], by simp, fun _ => false⟩

/-- The one without a username gets the name of another. -/
theorem usernames_not_ensured :
    ¬ anaSite.UsernamesEnsured ∧ ¬ FreshUsername manyAnas (lit "ana@a.org") := by
  constructor
  · intro h
    have hfinds := ((NamingSite.usernamesEnsured_iff anaSite).mp h).2 [] _ [] usernameless_manyAnas
    exact not_someFree_manyAnas (hfinds rfl)
  · intro h
    exact not_someFree_manyAnas (taken_usernameForEmail.mp h.2)

end BoatRudder.Db
