import BoatRudder.Text.Bytes

/-! # Names of media files

An upload is stored under a name made of its file name, and its five variants under names made of
that one. The name that is recorded is made back out of the name of the largest variant. -/

namespace BoatRudder.WebServer

/-! ## Parts of a name -/

variable {name stem : Bytes}

/-- A name before its last dot, and from there on (`strrchr`). -/
def splitName (name : Bytes) : Bytes × Bytes :=
  if 46 ∈ name then
    ((name.reverse.dropWhile (· ≠ 46)).reverse.dropLast,
      46 :: (name.reverse.takeWhile (· ≠ 46)).reverse)
  else (name, [])

/-- The variants that the optimizer makes of an upload. -/
inductive Variant where
  | full
  | half
  | small
  | medium
  | micro
  deriving DecidableEq

/-- All the variants. -/
def Variant.all : List Variant := [.full, .half, .small, .medium, .micro]

/-- What the name of a variant adds. -/
def Variant.suffix : Variant → Bytes
  | .full => lit "_full"
  | .half => lit "_half"
  | .small => lit "_small"
  | .medium => lit "_medium"
  | .micro => lit "_micro"

/-- The variants for old browsers, which are GIF always. -/
def Variant.forceGif : Variant → Bool
  | .medium | .micro => true
  | _ => false

/-- `media_variant_path`, in the directory of the file. -/
def mediaVariantPath (name suffix : Bytes) (forceGif : Bool) : Bytes :=
  (splitName name).1.take 255 ++ suffix ++ if forceGif then lit ".gif" else (splitName name).2

/-- Where the site asks for a variant of a recorded item. -/
def Variant.path (v : Variant) (name : Bytes) : Bytes := mediaVariantPath name v.suffix v.forceGif

/-- The paths `media_delete_variants` unlinks and `media_move_variants` renames. -/
def variantPaths (name : Bytes) : List Bytes :=
  [[], lit "_full", lit "_half", lit "_small"].map (mediaVariantPath name · false) ++
    [lit "_medium", lit "_micro"].map (mediaVariantPath name · true)

/-- `media_link_path`, in the directory of the file. -/
def mediaLinkPath (name ext : Bytes) : Bytes := (splitName name).1.take 255 ++ ext

/-- `media_upload_link_exts`. -/
def uploadLinkExts : List Bytes :=
  [".jpg", ".jpeg", ".png", ".gif", ".webp", ".JPG", ".JPEG", ".PNG", ".GIF", ".WEBP"].map lit

/-! ## The name of an upload -/

/-- Letters, digits, dash and underscore. -/
def isPathByte (b : UInt8) : Bool := isAlnum b || b == 45 || b == 95

/-- `media_dir_name_valid`. -/
def mediaDirNameValid (name : Bytes) : Bool :=
  3 ≤ name.length && name.length ≤ 60 && name.all isPathByte

/-- `media_username_valid`. -/
def mediaUsernameValid (username : Bytes) : Bool :=
  username ≠ [] && username.head? ≠ some 46 && username.all (fun b => isPathByte b || b == 46)

/-- `media_file_name_valid`. -/
def mediaFileNameValid (name : Bytes) : Bool := mediaUsernameValid name

/-- `MEDIA_UPLOAD_STEM_MAX`. -/
def mediaUploadStemMax : ℕ := 120

/-- `media_sanitize_upload_name`, into 256 bytes. -/
def mediaSanitizeUploadName (raw : Bytes) : Bytes :=
  let (stem, ext) := splitName raw
  let kept := (stem.filterMap fun b =>
    if b == 32 || b == 46 then some 95 else if isPathByte b then some b else none).take
      mediaUploadStemMax
  let kept := if kept = [] then lit "image" else kept
  let tail := ((ext.drop 1).filter isAlnum).take (255 - (kept.length + 1))
  if ext = [] ∨ tail = [] then kept else kept ++ 46 :: tail

/-- `media_image_extension`: the extension of the format that the content shows. -/
def mediaImageExtension (data : Bytes) : Option Bytes :=
  if [0xFF, 0xD8, 0xFF] <+: data then some (lit ".jpg")
  else if (0x89 :: lit "PNG\r\n" ++ [0x1A, 0x0A]) <+: data then some (lit ".png")
  else if lit "GIF87a" <+: data ∨ lit "GIF89a" <+: data then some (lit ".gif")
  else if 12 ≤ data.length ∧ lit "RIFF" <+: data ∧ lit "WEBP" <+: data.drop 8 then
    some (lit ".webp")
  else none

/-- `media_name_with_extension`, in 256 bytes. -/
def mediaNameWithExtension (name ext : Bytes) : Option Bytes :=
  let (stem, dot) := splitName name
  if dot ≠ [] ∧ stem ≠ [] then
    if eqNoCase dot ext ∨ (ext = lit ".jpg" ∧ eqNoCase dot (lit ".jpeg")) then some name
    else if 256 < stem.length + ext.length + 1 then none
    else some (stem ++ ext)
  else if 256 < name.length + ext.length + 1 then none
  else some (name ++ ext)

/-- `media_stem_taken`, `present` telling what names there are in the directory. -/
def mediaStemTaken (present : Bytes → Bool) (stem : Bytes) : Bool :=
  [".jpg", ".jpeg", ".png", ".gif", ".webp", "_full.jpg", "_full.gif", "_half.jpg", "_half.gif"].any
    fun suffix => present (stem ++ lit suffix)

/-- The stem of the `n`th try. -/
def stemCandidate (stem : Bytes) (n : ℕ) : Bytes := stem ++ 95 :: decimal n

/-- `media_unique_name`, in 256 bytes. -/
def mediaUniqueName (present : Bytes → Bool) (name : Bytes) : Option Bytes :=
  let stem := (splitName name).1.take mediaUploadStemMax
  let ext := (splitName name).2.take 31
  if mediaStemTaken present stem then
    match ((List.range 9998).map (· + 2)).find?
        (fun n => !mediaStemTaken present (stemCandidate stem n)) with
    | none => none
    | some n =>
      if (stemCandidate stem n ++ ext).length < 256 then some (stemCandidate stem n ++ ext) else none
  else some name

/-- The name an upload is stored under, if it is taken. -/
def mediaUploadName (present : Bytes → Bool) (filename data : Bytes) : Option Bytes :=
  if filename = [] then none
  else
    match mediaImageExtension data with
    | none => none
    | some ext =>
      match mediaNameWithExtension (mediaSanitizeUploadName filename) ext with
      | none => none
      | some name => if mediaFileNameValid name then mediaUniqueName present name else none

/-- The string without its first `_full`. -/
def dropFullTag (s : Bytes) : Bytes :=
  match findSub (lit "_full") s with
  | some i => s.take i ++ s.drop (i + 5)
  | none => s

/-- The name that is recorded for an upload whose largest variant is `basename`. -/
def mediaDbName (basename : Bytes) : Bytes :=
  if 46 ∈ basename then
    match findSub (lit "_full") basename with
    | some i => if i < (splitName basename).1.length then dropFullTag basename else basename
    | none => basename
  else basename

/-! ## Stems -/

/-- What a stored name starts with: letters, digits, dashes and underscores, and room for what is
added to it. -/
structure IsStem (stem : Bytes) : Prop where
  /-- There is something of it. -/
  nonempty : stem ≠ []
  /-- No dot is in it. -/
  plain : ∀ b ∈ stem, isPathByte b = true
  /-- Its length. -/
  short : stem.length ≤ 125

/-- A stem has no dot. -/
theorem IsStem.dot_notMem (h : IsStem stem) : 46 ∉ stem := fun hdot =>
  absurd (h.plain 46 hdot) (by decide)

/-- A name splits at its last dot. -/
theorem splitName_append (stem : Bytes) {ext : Bytes} (h : 46 ∉ ext) :
    splitName (stem ++ 46 :: ext) = (stem, 46 :: ext) := by
  have hrev : (stem ++ 46 :: ext).reverse = ext.reverse ++ 46 :: stem.reverse := by simp
  have hno : 46 ∉ ext.reverse := by simpa using h
  rw [splitName, if_pos (by simp), hrev, dropWhile_ne_append hno, takeWhile_ne_append hno]
  simp

/-- A name without a dot is all stem. -/
theorem splitName_of_notMem (h : 46 ∉ name) : splitName name = (name, []) :=
  if_neg h

/-- A stem with an extension is the name of a file. -/
theorem IsStem.fileNameValid {ext : Bytes} (h : IsStem stem)
    (hext : ∀ b ∈ ext, (isPathByte b || b == 46) = true) :
    mediaFileNameValid (stem ++ ext) = true := by
  obtain ⟨b, rest, rfl⟩ := List.exists_cons_of_ne_nil h.nonempty
  have hb : b ≠ 46 := by
    rintro rfl
    exact h.dot_notMem (by simp)
  have hall : ∀ c ∈ b :: rest ++ ext, (isPathByte c || c == 46) = true := by
    intro c hc
    rcases List.mem_append.mp hc with hc | hc
    · simp [h.plain c hc]
    · exact hext c hc
  simp only [mediaFileNameValid, mediaUsernameValid, List.all_eq_true.mpr hall]
  simp [hb]

/-! ## The stored name -/

/-- What an upload is called before the dot: what is kept of its name, or `image`. -/
def uploadStem (raw : Bytes) : Bytes :=
  let kept := ((splitName raw).1.filterMap fun b =>
    if b == 32 || b == 46 then some 95 else if isPathByte b then some b else none).take
      mediaUploadStemMax
  if kept = [] then lit "image" else kept

theorem length_uploadStem_le (raw : Bytes) : (uploadStem raw).length ≤ mediaUploadStemMax := by
  rw [uploadStem]
  split
  · decide
  · exact List.length_take_le _ _

theorem isStem_uploadStem (raw : Bytes) : IsStem (uploadStem raw) := by
  refine ⟨?_, ?_, (length_uploadStem_le raw).trans (by decide)⟩
  · rw [uploadStem]
    split
    · decide
    · next hne => exact hne
  · rw [uploadStem]
    split
    · decide
    · intro b hb
      obtain ⟨a, -, ha⟩ := List.mem_filterMap.mp (List.mem_of_mem_take hb)
      split at ha
      · obtain rfl := Option.some.inj ha
        decide
      · split at ha
        · next hname => exact Option.some.inj ha ▸ hname
        · cases ha

/-- A sanitized name is a stem, and possibly an extension. -/
theorem sanitize_shape (raw : Bytes) : ∃ ext,
    mediaSanitizeUploadName raw = uploadStem raw ++ ext ∧
      (ext = [] ∨ ∃ e, ext = 46 :: e ∧ 46 ∉ e) := by
  set tail := (((splitName raw).2.drop 1).filter isAlnum).take (255 - ((uploadStem raw).length + 1))
    with htail
  have hout : mediaSanitizeUploadName raw =
      if (splitName raw).2 = [] ∨ tail = [] then uploadStem raw else uploadStem raw ++ 46 :: tail := rfl
  by_cases hnone : (splitName raw).2 = [] ∨ tail = []
  · exact ⟨[], by rw [hout, if_pos hnone, List.append_nil], Or.inl rfl⟩
  · refine ⟨46 :: tail, by rw [hout, if_neg hnone], Or.inr ⟨tail, rfl, ?_⟩⟩
    intro hdot
    have := (List.mem_filter.mp (List.mem_of_mem_take hdot)).2
    revert this
    decide

/-- The extensions of the formats. -/
theorem mediaImageExtension_shape {data ext : Bytes} (h : mediaImageExtension data = some ext) :
    ext ∈ [lit ".jpg", lit ".png", lit ".gif", lit ".webp"] := by
  unfold mediaImageExtension at h
  grind

/-- The extension of a format, or a spelling of it. -/
def Spells (format ext : Bytes) : Prop :=
  eqNoCase ext format = true ∨ format = lit ".jpg" ∧ eqNoCase ext (lit ".jpeg") = true

/-- A format starts with its only dot. -/
theorem format_shape {format : Bytes} (h : format ∈ [lit ".jpg", lit ".png", lit ".gif", lit ".webp"]) :
    ∃ e, format = 46 :: e ∧ 46 ∉ e ∧ e.length ≤ 4 := by
  simp only [List.mem_cons, List.not_mem_nil, or_false] at h
  rcases h with rfl | rfl | rfl | rfl <;> exact ⟨_, rfl, by decide, by decide⟩

/-- No spelling of a format is longer than five. -/
theorem Spells.length_le {format e : Bytes} (h : Spells format (46 :: e))
    (hformat : format ∈ [lit ".jpg", lit ".png", lit ".gif", lit ".webp"]) : e.length ≤ 4 := by
  have hlen : ∀ {a b : Bytes}, eqNoCase a b = true → a.length = b.length := by
    intro a b hab
    simpa [lower] using congrArg List.length (eqNoCase_iff.mp hab)
  obtain ⟨f, rfl, -, hf⟩ := format_shape hformat
  rcases h with h | ⟨-, h⟩
  · have := hlen h
    simp only [List.length_cons] at this
    omega
  · have := hlen h
    rw [show (lit ".jpeg").length = 5 by decide, List.length_cons] at this
    omega

/-- The name for the format of the content is a stem and an extension, which spells it. -/
theorem nameWithExtension_spells {x ext : Bytes} (hstem : IsStem stem)
    (hx : x = [] ∨ ∃ e, x = 46 :: e ∧ 46 ∉ e)
    (hext : ext ∈ [lit ".jpg", lit ".png", lit ".gif", lit ".webp"])
    (h : mediaNameWithExtension (stem ++ x) ext = some name) :
    ∃ e, name = stem ++ 46 :: e ∧ 46 ∉ e ∧ Spells ext (46 :: e) := by
  obtain ⟨f, rfl, hf, -⟩ := format_shape hext
  rcases hx with rfl | ⟨e, rfl, he⟩
  · rw [List.append_nil] at h
    simp only [mediaNameWithExtension, splitName_of_notMem hstem.dot_notMem] at h
    split at h
    · next hdot => exact absurd rfl hdot.1
    · split at h
      · cases h
      · exact ⟨f, (Option.some.inj h).symm, hf, Or.inl (eqNoCase_refl _)⟩
  · simp only [mediaNameWithExtension, splitName_append stem he] at h
    rw [if_pos ⟨by simp, hstem.nonempty⟩] at h
    split at h
    · next hsame => exact ⟨e, (Option.some.inj h).symm, he, hsame⟩
    · split at h
      · cases h
      · exact ⟨f, (Option.some.inj h).symm, hf, Or.inl (eqNoCase_refl _)⟩

/-- A candidate is a stem. -/
theorem IsStem.candidate (h : IsStem stem) (hlen : stem.length ≤ mediaUploadStemMax)
    {n : ℕ} (hn : n < 10000) : IsStem (stemCandidate stem n) := by
  have hdigits := (length_decimal_le_iff (n := n) (k := 4) (by decide)).mpr hn
  refine ⟨by simp [stemCandidate], ?_, ?_⟩
  · intro b hb
    rcases List.mem_append.mp hb with hb | hb
    · exact h.plain b hb
    · rcases List.mem_cons.mp hb with rfl | hb
      · decide
      · simp [isPathByte, isAlnum, isDigit_of_mem_decimal hb]
  · simp only [stemCandidate, List.length_append, List.length_cons]
    have : mediaUploadStemMax = 120 := rfl
    omega

/-- The name that is free is the stem or one of its candidates, whichever is free first, with the
extension. -/
theorem uniqueName_cases {present : Bytes → Bool} {e : Bytes}
    (hlen : stem.length ≤ mediaUploadStemMax) (he : 46 ∉ e) (helen : e.length ≤ 4)
    (h : mediaUniqueName present (stem ++ 46 :: e) = some name) :
    ∃ stem', name = stem' ++ 46 :: e ∧ mediaStemTaken present stem' = false ∧
      (stem' = stem ∨ ∃ n, 2 ≤ n ∧ n < 10000 ∧ stem' = stemCandidate stem n) := by
  have hext : (46 :: e).take 31 = 46 :: e :=
    List.take_of_length_le (by rw [List.length_cons]; omega)
  simp only [mediaUniqueName, splitName_append stem he, List.take_of_length_le hlen, hext] at h
  split at h
  · split at h
    · cases h
    · next n hfind =>
        split at h
        · have hfree := List.find?_some hfind
          obtain ⟨k, hk, rfl⟩ := List.mem_map.mp (List.mem_of_find?_eq_some hfind)
          have hk : k < 9998 := List.mem_range.mp hk
          exact ⟨_, (Option.some.inj h).symm, by simpa using hfree, Or.inr ⟨k + 2, by omega, by omega, rfl⟩⟩
        · cases h
  · next hfree => exact ⟨stem, (Option.some.inj h).symm, by simpa using hfree, Or.inl rfl⟩

/-- **An upload is stored under a free stem**, with an extension. -/
theorem uploadName_shape {present : Bytes → Bool} {filename data : Bytes}
    (h : mediaUploadName present filename data = some name) :
    ∃ stem e, IsStem stem ∧ name = stem ++ 46 :: e ∧ 46 ∉ e ∧
      mediaStemTaken present stem = false := by
  unfold mediaUploadName at h
  split at h
  · cases h
  · split at h
    · cases h
    · next ext hext =>
        obtain ⟨x, hshape, hx⟩ := sanitize_shape filename
        have hstem := isStem_uploadStem filename
        have hlen := length_uploadStem_le filename
        rw [hshape] at h
        split at h
        · cases h
        · next named hnamed =>
            have hformat := mediaImageExtension_shape hext
            obtain ⟨e, rfl, he, hspells⟩ := nameWithExtension_spells hstem hx hformat hnamed
            split at h
            · obtain ⟨stem', hname, hfree, hcases⟩ :=
                uniqueName_cases hlen he (hspells.length_le hformat) h
              refine ⟨stem', e, ?_, hname, he, hfree⟩
              rcases hcases with rfl | ⟨n, -, hn, rfl⟩
              · exact hstem
              · exact hstem.candidate hlen hn
            · cases h

/-! ## The names of variants -/

/-- The extensions of variants. -/
def variantExts : List Bytes := [lit ".jpg", lit ".gif"]

/-- The extensions of variants start with their only dot. -/
theorem variantExts_shape {ext : Bytes} (h : ext ∈ variantExts) :
    ext.length = 4 ∧ ∃ e, ext = 46 :: e ∧ 46 ∉ e := by
  simp only [variantExts, List.mem_cons, List.not_mem_nil, or_false] at h
  rcases h with rfl | rfl <;> exact ⟨by decide, _, rfl, by decide⟩

/-- The extension of a variant of an item with the extension `ext`. -/
def Variant.ext (v : Variant) (ext : Bytes) : Bytes := if v.forceGif then lit ".gif" else ext

theorem Variant.ext_mem (v : Variant) {ext : Bytes} (h : ext ∈ variantExts) : v.ext ext ∈ variantExts := by
  rw [Variant.ext]
  split
  · decide
  · exact h

/-- A recorded name splits into its stem and its extension. -/
theorem IsStem.split {ext : Bytes} (h : ext ∈ variantExts) : splitName (stem ++ ext) = (stem, ext) := by
  obtain ⟨-, e, rfl, he⟩ := variantExts_shape h
  exact splitName_append stem he

/-- The path of a variant. -/
theorem IsStem.variant_path {ext : Bytes} (hstem : IsStem stem) (h : ext ∈ variantExts)
    (v : Variant) : v.path (stem ++ ext) = stem ++ (v.suffix ++ v.ext ext) := by
  have hshort := hstem.short
  rw [Variant.path, mediaVariantPath, IsStem.split h,
    List.take_of_length_le (show stem.length ≤ 255 by omega), List.append_assoc]
  rfl

/-- What is unlinked or renamed for an item: its variants, and the path of its own name. -/
theorem IsStem.mem_variantPaths {ext : Bytes} (hstem : IsStem stem) (h : ext ∈ variantExts)
    {path : Bytes} : path ∈ variantPaths (stem ++ ext) ↔
      path = stem ++ ext ∨ ∃ v : Variant, path = v.path (stem ++ ext) := by
  have hshort := hstem.short
  have hown : mediaVariantPath (stem ++ ext) [] false = stem ++ ext := by
    rw [mediaVariantPath, IsStem.split h,
      List.take_of_length_le (show stem.length ≤ 255 by omega), List.append_nil]
    rfl
  simp only [variantPaths, List.map_cons, List.map_nil, List.cons_append, List.nil_append,
    List.mem_cons, List.not_mem_nil, or_false, hown]
  constructor
  · rintro (rfl | rfl | rfl | rfl | rfl | rfl)
    · exact Or.inl rfl
    · exact Or.inr ⟨.full, rfl⟩
    · exact Or.inr ⟨.half, rfl⟩
    · exact Or.inr ⟨.small, rfl⟩
    · exact Or.inr ⟨.medium, rfl⟩
    · exact Or.inr ⟨.micro, rfl⟩
  · rintro (rfl | ⟨v, rfl⟩)
    · exact Or.inl rfl
    · cases v
      · exact Or.inr (Or.inl rfl)
      · exact Or.inr (Or.inr (Or.inl rfl))
      · exact Or.inr (Or.inr (Or.inr (Or.inl rfl)))
      · exact Or.inr (Or.inr (Or.inr (Or.inr (Or.inl rfl))))
      · exact Or.inr (Or.inr (Or.inr (Or.inr (Or.inr rfl))))

/-- No suffix ends in another one. -/
theorem Variant.suffix_suffix {v w : Variant} (h : v.suffix <:+ w.suffix) : v = w := by
  revert h
  cases v <;> cases w <;> decide

/-- **Variants of different stems, or different variants, have different names.** -/
theorem Variant.names_inj {stem' ext ext' : Bytes} {v w : Variant} (hext : ext ∈ variantExts)
    (hext' : ext' ∈ variantExts) (h : stem ++ (v.suffix ++ ext) = stem' ++ (w.suffix ++ ext')) :
    stem = stem' ∧ v = w ∧ ext = ext' := by
  have hlen : ext.length = ext'.length := by
    rw [(variantExts_shape hext).1, (variantExts_shape hext').1]
  rw [← List.append_assoc, ← List.append_assoc] at h
  obtain ⟨hfront, rfl⟩ := List.append_inj' h hlen
  have hv : v = w := by
    have hends : v.suffix <:+ stem' ++ w.suffix := hfront ▸ List.suffix_append stem v.suffix
    rcases List.suffix_or_suffix_of_suffix hends (List.suffix_append stem' w.suffix) with hle | hle
    · exact Variant.suffix_suffix hle
    · exact (Variant.suffix_suffix hle).symm
  subst hv
  exact ⟨List.append_cancel_right hfront, rfl, rfl⟩

/-- A stem that is found again when the first `_full` is taken out of the name of the largest
variant. -/
def Recoverable (stem : Bytes) : Prop := dropFullTag (stem ++ lit "_full") = stem

instance (stem : Bytes) : Decidable (Recoverable stem) := inferInstanceAs (Decidable (_ = _))

/-- The name recorded for an upload: what is left of the stem with the tag, and the extension. -/
theorem mediaDbName_full (stem : Bytes) {ext : Bytes} (hext : ext ∈ variantExts) :
    mediaDbName (stem ++ (Variant.full.suffix ++ ext)) = dropFullTag (stem ++ lit "_full") ++ ext := by
  rw [show Variant.full.suffix = lit "_full" from rfl, ← List.append_assoc]
  have hsplit : splitName (stem ++ lit "_full" ++ ext) = (stem ++ lit "_full", ext) :=
    IsStem.split hext
  have hdot : 46 ∈ stem ++ lit "_full" ++ ext := by
    obtain ⟨-, e, rfl, -⟩ := variantExts_shape hext
    simp
  cases hfind : findSub (lit "_full") (stem ++ lit "_full") with
  | none =>
    exact absurd (List.suffix_append stem (lit "_full")).isInfix (findSub_eq_none_iff.mp hfind)
  | some i =>
    have hlen : (lit "_full").length = 5 := by decide
    have hle : i + 5 ≤ (stem ++ lit "_full").length := by
      have := (findSub_add_le hfind).resolve_right (by decide)
      rwa [hlen] at this
    simp only [mediaDbName, if_pos hdot, hsplit, findSub_append hfind ext, dropFullTag, hfind]
    -- the tag is taken out before the extension
    rw [if_pos (by omega), List.take_append_of_le_length (by omega),
      List.drop_append_of_le_length hle, ← List.append_assoc]

/-- The recorded name is the stem with the extension, where the stem is found again. -/
theorem Recoverable.dbName {ext : Bytes} (h : Recoverable stem) (hext : ext ∈ variantExts) :
    mediaDbName (stem ++ (Variant.full.suffix ++ ext)) = stem ++ ext := by
  rw [mediaDbName_full stem hext, h]

end BoatRudder.WebServer
