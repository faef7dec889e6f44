import BoatRudder.WebServer.MediaNames
import Mathlib.Data.List.Find

/-! # Where an upload is written

The route makes a name out of the one that was sent, in several buffers, and with it a path and the
command line of the optimizer. What comes out is a name of plain characters under a free stem, and
nothing on the way was too long for its buffer. -/

namespace BoatRudder.WebServer

variable {dirpath stem : Bytes} {lstat : Bytes → Bool}

/-- `snprintf` into a buffer of so many bytes. -/
def printed (size : ℕ) (s : Bytes) : Bytes := s.take (size - 1)

theorem printed_of_lt {size : ℕ} {s : Bytes} (h : s.length < size) : printed size s = s :=
  List.take_of_length_le (by omega)

/-- `media_stem_taken`, with the paths it looks at in `path`. -/
def stemTakenIn (lstat : Bytes → Bool) (dirpath stem : Bytes) : Bool :=
  mediaStemTaken (fun name => lstat (printed 1024 (dirpath ++ 47 :: name))) stem

/-- `media_unique_name`, with its buffers `stem`, `ext` and `candidate`. -/
def uniqueNameIn (lstat : Bytes → Bool) (dirpath name : Bytes) : Option Bytes :=
  let stem := (splitName name).1.take mediaUploadStemMax
  let ext := printed 32 (splitName name).2
  if stemTakenIn lstat dirpath stem then
    match ((List.range 9998).map (· + 2)).find? fun n =>
        !stemTakenIn lstat dirpath (printed (mediaUploadStemMax + 8) (stemCandidate stem n)) with
    | none => none
    | some n =>
      let written := printed (mediaUploadStemMax + 8) (stemCandidate stem n) ++ ext
      if written.length < 256 then some written else none
  else some name

/-- What the route writes to, and then runs. -/
structure UploadTarget where
  dirpath : Bytes
  name : Bytes
  filepath : Bytes
  command : Bytes
deriving DecidableEq, Repr

/-- The command line of the optimizer. -/
def optimizerCommand (dirpath filepath : Bytes) : Bytes :=
  lit "./scripts/image-optimizer.sh '" ++ dirpath ++ lit "' '" ++ dirpath ++ lit "' '" ++ filepath ++ lit "'"

/-- The media upload route up to where it opens the file, `dirName` being the directory that was resolved
and `lstat` telling what there is. -/
def mediaUploadTarget (lstat : Bytes → Bool) (username dirName filename data : Bytes) : Option UploadTarget :=
  let username := printed 64 username
  if filename = [] then none
  else
    match mediaImageExtension data with
    | none => none
    | some ext =>
      match mediaNameWithExtension (mediaSanitizeUploadName filename) ext with
      | none => none
      | some name =>
        if !mediaFileNameValid name || !mediaUsernameValid username || !mediaDirNameValid dirName then none
        else
          let dirpath := printed 512 (lit "./html/content/posts/" ++ username ++ 47 :: dirName)
          (uniqueNameIn lstat dirpath name).map fun name =>
            let filepath := printed 1024 (dirpath ++ 47 :: name)
            ⟨dirpath, name, filepath, printed 4096 (optimizerCommand dirpath filepath)⟩

/-! ## What is to be written to -/

/-- A name that is safe and fresh: a stem of plain characters and the extension of the content, whole and
free, in paths and a command line that are whole too and have only the quotes put there. -/
structure SafeTarget (lstat : Bytes → Bool) (username dirName filename data : Bytes) (u : UploadTarget) :
    Prop where
  name : ∃ stem e format, u.name = stem ++ 46 :: e ∧ stem ≠ [] ∧ (∀ b ∈ stem, isPathByte b = true) ∧
    46 ∉ e ∧ mediaImageExtension data = some format ∧ Spells format (46 :: e) ∧
      (stem = uploadStem filename ∨ ∃ n, 2 ≤ n ∧ n < 10000 ∧ stem = stemCandidate (uploadStem filename) n) ∧
        stemTakenIn lstat u.dirpath stem = false ∧
          mediaStemTaken (fun name => lstat (u.dirpath ++ 47 :: name)) stem = false
  head : u.name.head? ≠ some 46
  quotes : 34 ∉ u.filepath ∧ 39 ∉ u.filepath ∧ 34 ∉ u.dirpath ∧
    39 ∉ u.dirpath
  dirpath : u.dirpath = lit "./html/content/posts/" ++ printed 64 username ++ 47 :: dirName
  filepath : u.filepath = u.dirpath ++ 47 :: u.name
  command : u.command = optimizerCommand u.dirpath u.filepath

/-! ## The buffers -/

theorem length_stemCandidate_lt (h : stem.length ≤ mediaUploadStemMax) {n : ℕ} (hn : n < 10000) :
    (stemCandidate stem n).length < mediaUploadStemMax + 8 := by
  have hdigits := (length_decimal_le_iff (n := n) (k := 4) (by decide)).mpr hn
  rw [stemCandidate, List.length_append, List.length_cons]
  omega

/-- The buffers of `media_unique_name` hold what is put into them. -/
theorem uniqueNameIn_eq (lstat : Bytes → Bool) (dirpath name : Bytes) : uniqueNameIn lstat dirpath name =
    mediaUniqueName (fun name => lstat (printed 1024 (dirpath ++ 47 :: name))) name := by
  have hstem : ((splitName name).1.take mediaUploadStemMax).length ≤ mediaUploadStemMax :=
    List.length_take_le _ _
  have hwhole : ∀ n ∈ (List.range 9998).map (· + 2),
      printed (mediaUploadStemMax + 8) (stemCandidate ((splitName name).1.take mediaUploadStemMax) n) =
        stemCandidate ((splitName name).1.take mediaUploadStemMax) n := by
    intro n hn
    obtain ⟨k, hk, rfl⟩ := List.mem_map.mp hn
    have hk : k < 9998 := List.mem_range.mp hk
    exact printed_of_lt (length_stemCandidate_lt hstem (by omega))
  have hfirst : (((List.range 9998).map (· + 2)).find? fun n => !stemTakenIn lstat dirpath
        (printed (mediaUploadStemMax + 8) (stemCandidate ((splitName name).1.take mediaUploadStemMax) n))) =
      ((List.range 9998).map (· + 2)).find? fun n => !mediaStemTaken
        (fun name => lstat (printed 1024 (dirpath ++ 47 :: name)))
        (stemCandidate ((splitName name).1.take mediaUploadStemMax) n) :=
    List.find?_congr fun n hn => by rw [hwhole n hn]; rfl
  rw [uniqueNameIn, mediaUniqueName, hfirst]
  by_cases htaken : stemTakenIn lstat dirpath ((splitName name).1.take mediaUploadStemMax) = true
  · rw [if_pos htaken, if_pos (c := mediaStemTaken _ _ = true) htaken]
    cases hfind : ((List.range 9998).map (· + 2)).find? fun n =>
        !mediaStemTaken (fun name => lstat (printed 1024 (dirpath ++ 47 :: name)))
          (stemCandidate ((splitName name).1.take mediaUploadStemMax) n) with
    | none => rfl
    | some n =>
      simp only [hwhole n (List.mem_of_find?_eq_some hfind)]
      rfl
  · rw [if_neg htaken, if_neg (c := mediaStemTaken _ _ = true) htaken]

/-- A stem that is asked for in whole paths is asked for in the buffer. -/
theorem stemTakenIn_eq (h : dirpath.length + stem.length < 1000) :
    stemTakenIn lstat dirpath stem = mediaStemTaken (fun name => lstat (dirpath ++ 47 :: name)) stem := by
  have hwhole : ∀ suffix : Bytes, suffix.length ≤ 9 →
      printed 1024 (dirpath ++ 47 :: (stem ++ suffix)) = dirpath ++ 47 :: (stem ++ suffix) := fun suffix hlen =>
    printed_of_lt (by simp only [List.length_append, List.length_cons]; omega)
  have hshort : ∀ suffix ∈ [".jpg", ".jpeg", ".png", ".gif", ".webp", "_full.jpg", "_full.gif", "_half.jpg",
      "_half.gif"], (lit suffix).length ≤ 9 := by
    decide
  rw [stemTakenIn, mediaStemTaken, mediaStemTaken, Bool.eq_iff_iff, List.any_eq_true, List.any_eq_true]
  refine exists_congr fun suffix => and_congr_right fun hsuffix => ?_
  rw [hwhole _ (hshort suffix hsuffix)]

/-! ## The target -/

theorem isPathByte_plain {b : UInt8} (h : isPathByte b = true) : b ≠ 34 ∧ b ≠ 39 ∧ b ≠ 46 := by
  refine ⟨?_, ?_, ?_⟩ <;>
    · rintro rfl
      exact absurd h (by decide)

/-- No spelling of a format has a quote. -/
theorem Spells.plain {format ext : Bytes} (h : Spells format ext)
    (hformat : format ∈ [lit ".jpg", lit ".png", lit ".gif", lit ".webp"]) : ∀ b ∈ ext, b ≠ 34 ∧ b ≠ 39 := by
  have hmem : ∀ {f : Bytes}, eqNoCase ext f = true → 34 ∉ lower f → 39 ∉ lower f →
      ∀ b ∈ ext, b ≠ 34 ∧ b ≠ 39 := by
    intro f hf h34 h39 b hb
    have hlower : toLower b ∈ lower f := eqNoCase_iff.mp hf ▸ List.mem_map_of_mem hb
    refine ⟨?_, ?_⟩ <;> rintro rfl
    · exact h34 hlower
    · exact h39 hlower
  rcases h with h | ⟨-, h⟩
  · simp only [List.mem_cons, List.not_mem_nil, or_false] at hformat
    rcases hformat with rfl | rfl | rfl | rfl <;> exact hmem h (by decide) (by decide)
  · exact hmem h (by decide) (by decide)

/-- The directory of the upload, whole: there is room for it many times over. -/
theorem length_dirpath {username dirName : Bytes} (h : mediaDirNameValid dirName = true) :
    (lit "./html/content/posts/" ++ printed 64 username ++ 47 :: dirName).length ≤ 145 := by
  have hlit : (lit "./html/content/posts/").length = 21 := by decide
  have husername : (printed 64 username).length ≤ 63 := List.length_take_le _ _
  simp only [mediaDirNameValid, Bool.and_eq_true, decide_eq_true_eq] at h
  simp only [List.length_append, List.length_cons, hlit]
  omega

/-- Its characters are none of quotes. -/
theorem dirpath_unquoted {username dirName : Bytes} (husername : mediaUsernameValid (printed 64 username) = true)
    (hdir : mediaDirNameValid dirName = true) :
    ∀ b ∈ lit "./html/content/posts/" ++ printed 64 username ++ 47 :: dirName, b ≠ 34 ∧ b ≠ 39 := by
  simp only [mediaUsernameValid, Bool.and_eq_true, List.all_eq_true, Bool.or_eq_true, beq_iff_eq] at husername
  simp only [mediaDirNameValid, Bool.and_eq_true, List.all_eq_true] at hdir
  intro b hb
  rcases List.mem_append.mp hb with hb | hb
  · rcases List.mem_append.mp hb with hb | hb
    · have hlit : ∀ c ∈ lit "./html/content/posts/", c ≠ 34 ∧ c ≠ 39 := by decide
      exact hlit b hb
    · rcases husername.2 b hb with hname | rfl
      · exact ⟨(isPathByte_plain hname).1, (isPathByte_plain hname).2.1⟩
      · exact ⟨by decide, by decide⟩
  · rcases List.mem_cons.mp hb with rfl | hb
    · exact ⟨by decide, by decide⟩
    · have hname := hdir.2 b hb
      exact ⟨(isPathByte_plain hname).1, (isPathByte_plain hname).2.1⟩

/-- The name, from one function to the next. -/
theorem uniqueNameIn_spec {filename data format named name : Bytes}
    (hformat : mediaImageExtension data = some format)
    (hnamed : mediaNameWithExtension (mediaSanitizeUploadName filename) format = some named)
    (hname : uniqueNameIn lstat dirpath named = some name) :
    ∃ stem e, name = stem ++ 46 :: e ∧ IsStem stem ∧ 46 ∉ e ∧ Spells format (46 :: e) ∧
      (stem = uploadStem filename ∨ ∃ n, 2 ≤ n ∧ n < 10000 ∧ stem = stemCandidate (uploadStem filename) n) ∧
        stemTakenIn lstat dirpath stem = false := by
  obtain ⟨x, hshape, hx⟩ := sanitize_shape filename
  have hstem := isStem_uploadStem filename
  have hlen := length_uploadStem_le filename
  have hformats := mediaImageExtension_shape hformat
  rw [hshape] at hnamed
  obtain ⟨e, rfl, he, hspells⟩ := nameWithExtension_spells hstem hx hformats hnamed
  rw [uniqueNameIn_eq] at hname
  obtain ⟨stem, rfl, hfree, hcases⟩ := uniqueName_cases hlen he (hspells.length_le hformats) hname
  refine ⟨stem, e, rfl, ?_, he, hspells, hcases, hfree⟩
  rcases hcases with rfl | ⟨n, -, hn, rfl⟩
  · exact hstem
  · exact hstem.candidate hlen hn

/-- **The buffers hold the path and the command line.** -/
theorem safeTarget_of_name {username dirName filename data format e : Bytes}
    (hdirpath : dirpath = lit "./html/content/posts/" ++ printed 64 username ++ 47 :: dirName)
    (hdirlen : dirpath.length ≤ 145) (hunquoted : ∀ b ∈ dirpath, b ≠ 34 ∧ b ≠ 39)
    (hformat : mediaImageExtension data = some format) (hstem : IsStem stem) (he : 46 ∉ e)
    (hspells : Spells format (46 :: e)) (hcases : stem = uploadStem filename ∨
      ∃ n, 2 ≤ n ∧ n < 10000 ∧ stem = stemCandidate (uploadStem filename) n)
    (hfree : stemTakenIn lstat dirpath stem = false) :
    SafeTarget lstat username dirName filename data ⟨dirpath, stem ++ 46 :: e,
      printed 1024 (dirpath ++ 47 :: (stem ++ 46 :: e)),
      printed 4096 (optimizerCommand dirpath (printed 1024 (dirpath ++ 47 :: (stem ++ 46 :: e))))⟩ := by
  have hshort := hstem.short
  have hformats := mediaImageExtension_shape hformat
  have helen := hspells.length_le hformats
  have hfilepath : printed 1024 (dirpath ++ 47 :: (stem ++ 46 :: e)) = dirpath ++ 47 :: (stem ++ 46 :: e) := by
    refine printed_of_lt ?_
    simp only [List.length_append, List.length_cons]
    omega
  have hplain : ∀ b ∈ dirpath ++ 47 :: (stem ++ 46 :: e), b ≠ 34 ∧ b ≠ 39 := by
    intro b hb
    rcases List.mem_append.mp hb with hb | hb
    · exact hunquoted b hb
    rcases List.mem_cons.mp hb with rfl | hb
    · exact ⟨by decide, by decide⟩
    rcases List.mem_append.mp hb with hb | hb
    · exact ⟨(isPathByte_plain (hstem.plain b hb)).1, (isPathByte_plain (hstem.plain b hb)).2.1⟩
    · exact hspells.plain hformats b hb
  rw [hfilepath]
  refine ⟨⟨stem, e, format, rfl, hstem.nonempty, hstem.plain, he, hformat, hspells, hcases, hfree, ?_⟩, ?_,
    ⟨fun hq => (hplain 34 hq).1 rfl, fun hq => (hplain 39 hq).2 rfl, fun hq => (hunquoted 34 hq).1 rfl,
      fun hq => (hunquoted 39 hq).2 rfl⟩, hdirpath, rfl, ?_⟩
  · have hroom : dirpath.length + stem.length < 1000 := by omega
    exact stemTakenIn_eq hroom ▸ hfree
  · intro hdot
    rw [List.head?_append_of_ne_nil _ hstem.nonempty] at hdot
    exact hstem.dot_notMem (List.mem_of_head? hdot)
  · have h1 : (lit "./scripts/image-optimizer.sh '").length = 30 := by decide
    have h2 : (lit "' '").length = 3 := by decide
    have h3 : (lit "'").length = 1 := by decide
    refine printed_of_lt ?_
    simp only [optimizerCommand, List.length_append, List.length_cons, h1, h2, h3]
    omega

/-- **A target is safe and fresh.** -/
theorem mediaUploadTarget_safe {lstat : Bytes → Bool} {username dirName filename data : Bytes}
    {u : UploadTarget} (h : mediaUploadTarget lstat username dirName filename data = some u) :
    SafeTarget lstat username dirName filename data u := by
  simp only [mediaUploadTarget] at h
  split at h
  · cases h
  · split at h
    · cases h
    · next format hformat =>
        split at h
        · cases h
        · next named hnamed =>
            split at h
            · cases h
            · next hvalid =>
                obtain ⟨name, hname, rfl⟩ := Option.map_eq_some_iff.mp h
                simp only [Bool.or_eq_true, Bool.not_eq_true', not_or, Bool.not_eq_false] at hvalid
                obtain ⟨⟨-, husername⟩, hdir⟩ := hvalid
                have hdirlen := @length_dirpath username _ hdir
                have hdirpath := printed_of_lt (hdirlen.trans_lt (by decide : 145 < 512))
                rw [hdirpath] at hname ⊢
                obtain ⟨stem, e, rfl, hstem, he, hspells, hcases, hfree⟩ := uniqueNameIn_spec hformat hnamed hname
                exact safeTarget_of_name rfl hdirlen (dirpath_unquoted husername hdir) hformat hstem he hspells
                  hcases hfree

/-- A second photo goes under the stem that is still free. -/
theorem mediaUploadTarget_safe_photo :
    mediaUploadTarget (fun path => path == lit "./html/content/posts/ann/default/photo.jpg") (lit "ann")
        (lit "default") (lit "photo.png") [0xFF, 0xD8, 0xFF] =
      some ⟨lit "./html/content/posts/ann/default", lit "photo_2.jpg",
        lit "./html/content/posts/ann/default/photo_2.jpg",
        optimizerCommand (lit "./html/content/posts/ann/default")
          (lit "./html/content/posts/ann/default/photo_2.jpg")⟩ ∧
    SafeTarget (fun path => path == lit "./html/content/posts/ann/default/photo.jpg") (lit "ann")
      (lit "default") (lit "photo.png") [0xFF, 0xD8, 0xFF]
      ⟨lit "./html/content/posts/ann/default", lit "photo_2.jpg",
        lit "./html/content/posts/ann/default/photo_2.jpg",
        optimizerCommand (lit "./html/content/posts/ann/default")
          (lit "./html/content/posts/ann/default/photo_2.jpg")⟩ := by
  have hrun : mediaUploadTarget (fun path => path == lit "./html/content/posts/ann/default/photo.jpg")
      (lit "ann") (lit "default") (lit "photo.png") [0xFF, 0xD8, 0xFF] =
      some ⟨lit "./html/content/posts/ann/default", lit "photo_2.jpg",
        lit "./html/content/posts/ann/default/photo_2.jpg",
        optimizerCommand (lit "./html/content/posts/ann/default")
          (lit "./html/content/posts/ann/default/photo_2.jpg")⟩ := by
    decide +kernel
  exact ⟨hrun, mediaUploadTarget_safe hrun⟩

end BoatRudder.WebServer
