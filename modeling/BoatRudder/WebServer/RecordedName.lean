import BoatRudder.WebServer.MediaFiles

/-! # The name an upload is recorded under

The route takes the first `_full` out of the path that the optimizer prints, and the site makes the
paths of the variants out of what is left. They are the paths of the files exactly when nothing in the
stem but its end is a `_full` (**`recordedName_iff`**). -/

namespace BoatRudder.WebServer

/-! ## Stems that end in tags -/

/-- So many `_full`. -/
def fullTags (k : ℕ) : Bytes := (List.replicate k (lit "_full")).flatten

theorem fullTags_succ (k : ℕ) : fullTags (k + 1) = lit "_full" ++ fullTags k := rfl

/-- A tag before tags is one behind them. -/
theorem fullTags_append_full (k : ℕ) : fullTags k ++ lit "_full" = lit "_full" ++ fullTags k := by
  induction k with
  | zero => rfl
  | succ k ih => rw [fullTags_succ, List.append_assoc, ih]

/-- **A stem holds `_full` at its end only**, if at all. -/
def FullAtEnd (stem : Bytes) : Prop :=
  ∃ front k, ¬ lit "_full" <:+: front ∧ stem = front ++ fullTags k

/-- A tag begins with its only underscore. -/
theorem full_ne_underscore {j : ℕ} (hpos : 0 < j) (hlt : j < 5) : (lit "_full")[j]? ≠ some 95 := by
  obtain rfl | rfl | rfl | rfl : j = 1 ∨ j = 2 ∨ j = 3 ∨ j = 4 := by omega
  all_goals decide

/-- A tag does not begin in what has none and end behind it. -/
theorem not_prefix_append_full {front : Bytes} (hne : front ≠ []) (hfront : ¬ lit "_full" <:+: front)
    (t : Bytes) : ¬ lit "_full" <+: front ++ (lit "_full" ++ t) := by
  intro h
  by_cases hlong : 5 ≤ front.length
  · have hprefix : lit "_full" <+: front :=
      List.prefix_of_prefix_length_le h (List.prefix_append front _) hlong
    exact hfront hprefix.isInfix
  · have hlt : front.length < (lit "_full").length := Nat.lt_of_not_le hlong
    apply full_ne_underscore (List.length_pos_iff.mpr hne) (Nat.lt_of_not_le hlong)
    obtain ⟨rest, hrest⟩ := h
    have hleft : (lit "_full" ++ rest)[front.length]? = (lit "_full")[front.length]? :=
      List.getElem?_append_left hlt
    rw [← hleft, hrest, List.getElem?_append_right le_rfl, Nat.sub_self]
    rfl

theorem findSub_front {front : Bytes} (hfront : ¬ lit "_full" <:+: front) (t : Bytes) :
    findSub (lit "_full") (front ++ (lit "_full" ++ t)) = some front.length := by
  induction front with
  | nil => rfl
  | cons c front ih =>
    have hrest : ¬ lit "_full" <:+: front := fun h => hfront (h.trans (List.suffix_cons c front).isInfix)
    have hhere := not_prefix_append_full (List.cons_ne_nil c front) hfront t
    rw [List.cons_append, findSub, if_neg (by simpa using hhere), ih hrest]
    rfl

/-- What a tag can be moved over consists of tags. -/
theorem eq_fullTags_of_commutes {r : Bytes} (h : lit "_full" ++ r = r ++ lit "_full") :
    ∃ k, r = fullTags k := by
  induction hn : r.length using Nat.strong_induction_on generalizing r with
  | _ n ih =>
    by_cases hlong : 5 ≤ r.length
    · have hprefix : lit "_full" <+: r :=
        List.prefix_of_prefix_length_le ⟨r, h⟩ (List.prefix_append r _) hlong
      obtain ⟨s, rfl⟩ := hprefix
      have hs : lit "_full" ++ s = s ++ lit "_full" := by
        rw [List.append_assoc] at h
        exact List.append_cancel_left h
      have hlength : (lit "_full").length = 5 := by decide
      obtain ⟨k, rfl⟩ := ih s.length (by rw [List.length_append] at hn; omega) hs rfl
      exact ⟨k + 1, rfl⟩
    · by_cases hnil : r = []
      · exact ⟨0, hnil⟩
      · have hlt : r.length < (lit "_full").length := Nat.lt_of_not_le hlong
        refine absurd ?_ (full_ne_underscore (List.length_pos_iff.mpr hnil) (Nat.lt_of_not_le hlong))
        have hleft : (lit "_full" ++ r)[r.length]? = (lit "_full")[r.length]? :=
          List.getElem?_append_left hlt
        rw [← hleft, h, List.getElem?_append_right le_rfl, Nat.sub_self]
        rfl

/-- **A stem is found again** exactly when its tags are at its end. -/
theorem recoverable_iff {stem : Bytes} : Recoverable stem ↔ FullAtEnd stem := by
  constructor
  · intro h
    rw [Recoverable, dropFullTag] at h
    cases hfind : findSub (lit "_full") (stem ++ lit "_full") with
    | none =>
      exact absurd (List.suffix_append stem (lit "_full")).isInfix (findSub_eq_none_iff.mp hfind)
    | some i =>
      rw [hfind] at h
      have hfront := not_infix_take_of_findSub (by decide) hfind
      have hsplit : stem ++ lit "_full" = (stem ++ lit "_full").take i ++
          (lit "_full" ++ (stem ++ lit "_full").drop (i + 5)) :=
        findSub_split hfind
      set front := (stem ++ lit "_full").take i
      set rest := (stem ++ lit "_full").drop (i + 5)
      have hstem : stem = front ++ rest := h.symm
      rw [hstem, List.append_assoc] at hsplit
      obtain ⟨k, hk⟩ := eq_fullTags_of_commutes (List.append_cancel_left hsplit).symm
      exact ⟨front, k, hfront, by rw [hstem, hk]⟩
  · rintro ⟨front, k, hfront, rfl⟩
    have htags : front ++ fullTags k ++ lit "_full" = front ++ (lit "_full" ++ fullTags k) := by
      rw [List.append_assoc, fullTags_append_full]
    have hdrop : (front ++ (lit "_full" ++ fullTags k)).drop (front.length + 5) = fullTags k := by
      rw [← List.drop_drop, List.drop_left]
      rfl
    rw [Recoverable, htags, dropFullTag, findSub_front hfront]
    show (front ++ (lit "_full" ++ fullTags k)).take front.length ++ _ = _
    rw [List.take_left, hdrop]

theorem length_dropFullTag_le (s : Bytes) : (dropFullTag s).length ≤ s.length := by
  unfold dropFullTag
  split
  · rename_i i _
    rw [List.length_append, List.length_take, List.length_drop]
    omega
  · exact le_rfl

/-! ## The recorded name -/

section

variable {tools : ImageTools} {username : Bytes}

/-- The files that the optimizer writes for an upload stored as `name`. -/
def writtenNames (tools : ImageTools) (name data : Bytes) : List Bytes :=
  Variant.all.map fun v => (splitName name).1 ++ (v.suffix ++ v.ext (outputExt tools data))

theorem variantPaths_eq_iff {name data : Bytes} (hstem : IsStem (splitName name).1) :
    Variant.all.map (·.path (mediaDbName ((splitName name).1 ++
        (Variant.full.suffix ++ outputExt tools data)))) = writtenNames tools name data ↔
      FullAtEnd (splitName name).1 := by
  have hext : outputExt tools data ∈ variantExts := outputExt_mem data
  set stem := (splitName name).1 with hstemDef
  rw [← recoverable_iff]
  constructor
  · intro h
    have hfull : Variant.full.path (mediaDbName (stem ++ (Variant.full.suffix ++ outputExt tools data))) =
        stem ++ (Variant.full.suffix ++ Variant.full.ext (outputExt tools data)) :=
      (List.map_inj_left.mp h) .full (Variant.mem_all _)
    rw [mediaDbName_full stem hext, Variant.path, mediaVariantPath, IsStem.split hext, List.append_assoc] at hfull
    have hshort : (dropFullTag (stem ++ lit "_full")).take 255 = stem := List.append_cancel_right hfull
    have hlength : (dropFullTag (stem ++ lit "_full")).length ≤ 255 := by
      refine (length_dropFullTag_le _).trans ?_
      rw [List.length_append]
      exact Nat.add_le_add hstem.short (by decide : (lit "_full").length ≤ 130)
    rwa [List.take_of_length_le hlength] at hshort
  · intro h
    refine List.map_congr_left fun v _ => ?_
    rw [h.dbName hext, hstem.variant_path hext]

/-- The item that an upload adds is recorded under the name made of the largest variant. -/
theorem name_of_upload {lib : MediaLibrary} {filename data dir name : Bytes} {item : MediaItem}
    (hname : mediaUploadName (present lib.disk dir) filename data = some name)
    (hitem : (mediaUpload tools username lib filename data dir).items = lib.items ++ [item]) :
    item.name = mediaDbName ((splitName name).1 ++ (Variant.full.suffix ++ outputExt tools data)) := by
  have hself : lib.items ≠ lib.items ++ [item] := fun h => by simpa using congrArg List.length h
  unfold mediaUpload at hitem
  split at hitem
  · rw [hname] at hitem
    dsimp only at hitem
    split_ifs at hitem with hpresent
    · exact absurd hitem hself
    · unfold processImage at hitem
      split_ifs at hitem with himage
      · obtain rfl := List.cons.inj (List.append_cancel_left hitem) |>.1
        rfl
      · exact absurd hitem hself
  · exact absurd hitem hself

/-- **The record of an upload names the files that the optimizer wrote** exactly when nothing but the
end of their stem is a `_full`. -/
theorem recordedName_iff {lib : MediaLibrary} {filename data dir name : Bytes} {item : MediaItem}
    (hname : mediaUploadName (present lib.disk dir) filename data = some name)
    (hitem : (mediaUpload tools username lib filename data dir).items = lib.items ++ [item]) :
    Variant.all.map (·.path item.name) = writtenNames tools name data ↔ FullAtEnd (splitName name).1 := by
  obtain ⟨stem, e, hstem, rfl, he, -⟩ := uploadName_shape hname
  have hsplit : IsStem (splitName (stem ++ 46 :: e)).1 := by rwa [splitName_append stem he]
  rw [name_of_upload hname hitem]
  exact variantPaths_eq_iff hsplit

end

/-- A library without items. -/
def emptyLibrary : MediaLibrary := (mediaLibrary photoTools (lit "ana")).init

theorem recordedName_photoFull :
    Variant.all.map (·.path (lit "photo_full.jpg")) =
      [lit "photo_full_full.jpg", lit "photo_full_half.jpg", lit "photo_full_small.jpg",
        lit "photo_full_medium.gif", lit "photo_full_micro.gif"] := by
  have hname : mediaUploadName (present emptyLibrary.disk (lit "travel")) (lit "photo_full.png") photoData =
      some (lit "photo_full.jpg") := by
    decide
  have hitem : (mediaUpload photoTools (lit "ana") emptyLibrary (lit "photo_full.png") photoData
      (lit "travel")).items = emptyLibrary.items ++ [⟨0, lit "photo_full.jpg", lit "travel", photoData⟩] := by
    decide
  have htags : FullAtEnd (splitName (lit "photo_full.jpg")).1 :=
    ⟨lit "photo", 1, findSub_eq_none_iff.mp (by decide), by decide⟩
  rw [(recordedName_iff hname hitem).mpr htags]
  decide

/-- **The record of `my_fullscreen.jpg`** names files that the optimizer did not write. -/
theorem recordedName_fullscreen :
    mediaUploadName (present emptyLibrary.disk (lit "travel")) (lit "my_fullscreen.jpg") photoData =
        some (lit "my_fullscreen.jpg") ∧
      (mediaUpload photoTools (lit "ana") emptyLibrary (lit "my_fullscreen.jpg") photoData
        (lit "travel")).items = [⟨0, lit "myscreen_full.jpg", lit "travel", photoData⟩] ∧
      ¬ Variant.all.map (·.path (lit "myscreen_full.jpg")) =
        writtenNames photoTools (lit "my_fullscreen.jpg") photoData := by
  refine ⟨?_, ?_, ?_⟩ <;> decide

end BoatRudder.WebServer
