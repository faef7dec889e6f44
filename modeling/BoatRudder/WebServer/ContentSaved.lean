import BoatRudder.Db.CmsLanguages
import BoatRudder.WebServer.ContentForm
import BoatRudder.WebServer.ContentRoute
import BoatRudder.WebServer.RequestReading

/-! # What is stored of the posted content

When the content route answers `ok`, the array holds the blocks it read (`contentRoute_keeps`), and it
reads the posted blocks, up to its cap, where they fit its buffers: **`contentRoute_saves`**. A gallery
block then holds the id of its gallery. -/

namespace BoatRudder.WebServer

open Db

/-! ## What is stored -/

variable {body : Bytes} {i : ℕ}

/-- A block holds what was posted, with this extra data. -/
structure Holds (langs : List Bytes) (p : PostedBlock) (b : StoredBlock) (extra : Bytes → Prop) :
    Prop where
  type : b.type = p.type
  order : b.order = p.order
  extraData : extra b.extraData
  text : b.text = langs.map fun code => (code, p.text code)

/-- The content is the posted blocks, one by one, with extra data as `extra` says. -/
def HoldsAll (langs : List Bytes) (posted : List PostedBlock) (content : List StoredBlock)
    (extra : PostedBlock → Bytes → Prop) : Prop :=
  content.length = posted.length ∧
    ∀ (i : ℕ) p b, posted[i]? = some p → content[i]? = some b → Holds langs p b (extra p)

/-- A posted block with photos in its first language that names no gallery. -/
def PostedBlock.needsGallery (langs : List Bytes) (p : PostedBlock) : Prop :=
  p.type = lit "gallery" ∧ oidFromString p.extraData = none ∧ ∃ code ∈ langs.head?, p.text code ≠ []

/-- The extra data of a posted block, or the id of a gallery where the block needs one. -/
def GalleryExtra (mint : ℕ → IdHex) (langs : List Bytes) (p : PostedBlock) (extra : Bytes) : Prop :=
  extra = p.extraData ∨ p.needsGallery langs ∧ ∃ k, extra = mint k

/-- A value that fits `value[8192]` and ends nowhere before its end. -/
def FitsValue (v : Bytes) : Prop := v.length < valueSize ∧ 0 ∉ v

/-- What the route can take: content languages, orders of an `int`, values that fit. -/
structure Takes (langs : List Bytes) (posted : List PostedBlock) : Prop where
  languages : ∀ code ∈ langs, (languageCatalogName code).isSome = true
  order : ∀ p ∈ posted, -2 ^ 31 ≤ p.order ∧ p.order < 2 ^ 31
  type : ∀ p ∈ posted, FitsValue p.type
  extraData : ∀ p ∈ posted, FitsValue p.extraData
  text : ∀ p ∈ posted, ∀ code ∈ langs, FitsValue (p.text code)

/-! ## What is read is stored -/

section

variable {s : EntryStore}
variable {mint : ℕ → IdHex} {langs : List Bytes} {read blocks : List ContentBlockEdit}

/-- A block that was read, with photos in its first text, that names no gallery. -/
def readNeedsGallery (r : ContentBlockEdit) : Prop :=
  r.type = lit "gallery" ∧ oidFromString r.extraData = none ∧ ∃ urls ∈ r.textValues.head?, urls ≠ []

/-- A block is what was read, but for its id and the id of its gallery. -/
structure Keeps (mint : ℕ → IdHex) (r b : ContentBlockEdit) : Prop where
  type : b.type = r.type
  order : b.order = r.order
  extraData : b.extraData = r.extraData ∨ readNeedsGallery r ∧ ∃ k, b.extraData = mint k
  textValues : b.textValues = r.textValues

/-- The blocks are those that were read. -/
def KeepsAll (mint : ℕ → IdHex) (read blocks : List ContentBlockEdit) : Prop :=
  blocks.length = read.length ∧
    ∀ (i : ℕ) r b, read[i]? = some r → blocks[i]? = some b → Keeps mint r b

/-- A block without its id. -/
def withoutId (b : ContentBlockEdit) : ContentBlockEdit := { b with id := [] }

/-- Minting changes nothing but ids. -/
theorem map_withoutId_mintIds (minted : ℕ) (blocks : List ContentBlockEdit) :
    (mintIds mint minted blocks).1.map withoutId = blocks.map withoutId := by
  induction blocks generalizing minted with
  | nil => rfl
  | cons b blocks ih =>
    rw [mintIds]
    split_ifs
    · rw [List.map_cons, List.map_cons, ih]
    · rw [List.map_cons, List.map_cons, ih]
      rfl

theorem KeepsAll.refl (mint : ℕ → IdHex) (read : List ContentBlockEdit) : KeepsAll mint read read := by
  refine ⟨rfl, fun i r b hr hb => ?_⟩
  obtain rfl := Option.some.inj (hr.symm.trans hb)
  exact ⟨rfl, rfl, Or.inl rfl, rfl⟩

/-- The blocks stay what they are when they get ids. -/
theorem KeepsAll.mintIds (h : KeepsAll mint read blocks) (minted : ℕ) :
    KeepsAll mint read (Db.mintIds mint minted blocks).1 := by
  have hmap := @map_withoutId_mintIds mint minted blocks
  constructor
  · have hlen := congrArg List.length hmap
    rw [List.length_map, List.length_map] at hlen
    exact hlen.trans h.1
  · intro i r b' hr hb'
    have hi := congrArg (fun l => l[i]?) hmap
    simp only [List.getElem?_map, hb', Option.map_some] at hi
    obtain ⟨b, hb, hsame⟩ := Option.map_eq_some_iff.mp hi.symm
    have hkeeps := h.2 i r b hr hb
    rw [withoutId, withoutId, ContentBlockEdit.mk.injEq] at hsame
    obtain ⟨-, htype, horder, hextra, htext⟩ := hsame
    exact ⟨htype ▸ hkeeps.type, horder ▸ hkeeps.order, hextra ▸ hkeeps.extraData,
      htext ▸ hkeeps.textValues⟩

/-- A block gets the id of its gallery. -/
theorem KeepsAll.set (h : KeepsAll mint read blocks) {i : ℕ} {b : ContentBlockEdit}
    (hb : blocks[i]? = some b) {galleryId : Bytes}
    (hid : ∀ r, read[i]? = some r →
      galleryId = r.extraData ∨ readNeedsGallery r ∧ ∃ k, galleryId = mint k) :
    KeepsAll mint read (blocks.set i { b with extraData := galleryId }) := by
  have hi := (List.getElem?_eq_some_iff.mp hb).1
  refine ⟨by rw [List.length_set, h.1], fun j r b' hr hb' => ?_⟩
  by_cases hij : i = j
  · subst hij
    rw [List.getElem?_set_self hi] at hb'
    obtain rfl := Option.some.inj hb'
    have hkeeps := h.2 i r b hr hb
    exact ⟨hkeeps.type, hkeeps.order, hid r hr, hkeeps.textValues⟩
  · rw [List.getElem?_set_ne hij] at hb'
    exact h.2 j r b' hr hb'

/-- What is stored is blocks as they were read. -/
def StoresRead (mint : ℕ → IdHex) (langs : List Bytes) (read : List ContentBlockEdit)
    (content : List StoredBlock) : Prop :=
  ∃ blocks, KeepsAll mint read blocks ∧ content = blocks.map (ContentBlockEdit.toBlock langs)

/-- The blocks in hand and those stored are the ones that were read. -/
def SavedSoFar (mint : ℕ → IdHex) (langs : List Bytes) (read : List ContentBlockEdit)
    (st : EntryStore × List ContentBlockEdit) : Prop :=
  StoresRead mint langs read st.1.content ∧ KeepsAll mint read st.2

/-- A save that is made stores the blocks, and one that is not leaves what was stored. -/
theorem savedSoFar_update (h : KeepsAll mint read blocks) {write : WriteOutcome}
    (hs : write = .failed → StoresRead mint langs read s.content) :
    SavedSoFar mint langs read ((s.updateEntryContent mint langs blocks write).1,
      (s.updateEntryContent mint langs blocks write).2.1) := by
  refine ⟨?_, h.mintIds s.minted⟩
  simp only [EntryStore.updateEntryContent]
  by_cases hwrite : write = .failed
  · rw [if_pos hwrite]
    exact hs hwrite
  · rw [if_neg hwrite]
    exact ⟨_, h.mintIds s.minted, rfl⟩

/-- The gallery of a block has the id the block names, or a new one where it names none. -/
theorem upsertMediaGallery_cases {galleryId urls : Bytes} {write : WriteOutcome}
    {id : Bytes} (h : (s.upsertMediaGallery mint galleryId urls write).2 = some id) :
    id = galleryId ∨ oidFromString galleryId = none ∧ ∃ k, id = mint k := by
  unfold EntryStore.upsertMediaGallery at h
  cases hoid : oidFromString galleryId with
  | some oid =>
    rw [hoid] at h
    simp only at h
    split_ifs at h
    exact Or.inl (Option.some.inj h).symm
  | none =>
    rw [hoid] at h
    simp only at h
    split_ifs at h
    exact Or.inr ⟨rfl, s.minted, (Option.some.inj h).symm⟩

theorem content_upsertMediaGallery (s : EntryStore) (galleryId urls : Bytes) (write : WriteOutcome) :
    (s.upsertMediaGallery mint galleryId urls write).1.content = s.content := by
  unfold EntryStore.upsertMediaGallery
  cases oidFromString galleryId <;> rfl

/-- **One turn of the loop over the galleries keeps what was read.** -/
theorem savedSoFar_galleryTurn {req : ContentRequest} {st : EntryStore × List ContentBlockEdit}
    (h : SavedSoFar mint langs read st) (i : ℕ) :
    SavedSoFar mint langs read (galleryTurn mint langs req st i) := by
  unfold galleryTurn
  cases hb : st.2[i]? with
  | none => exact h
  | some b =>
    cases hurls : b.textValues.head? with
    | none =>
      simp only [hurls]
      exact h
    | some urls =>
      by_cases hgallery : b.type = lit "gallery" ∧ urls ≠ []
      · simp only [hurls, if_pos hgallery]
        have hcontent := @content_upsertMediaGallery mint st.1 b.extraData urls (req.gallery i)
        cases hid : (st.1.upsertMediaGallery mint b.extraData urls (req.gallery i)).2 with
        | none => exact ⟨by simpa only [hcontent] using h.1, h.2⟩
        | some galleryId =>
          refine savedSoFar_update (h.2.set hb fun r hr => ?_) fun _ => by
            rw [hcontent]
            exact h.1
          have hkeeps := h.2.2 i r b hr hb
          have hneeds : oidFromString r.extraData = none → readNeedsGallery r := by
            intro hnone
            exact ⟨hkeeps.type ▸ hgallery.1, hnone, urls, hkeeps.textValues ▸ hurls, hgallery.2⟩
          rcases upsertMediaGallery_cases hid with rfl | ⟨hnone, k, rfl⟩
          · exact hkeeps.extraData
          · rcases hkeeps.extraData with hextra | ⟨hneeded, -⟩
            · exact Or.inr ⟨hneeds (hextra ▸ hnone), k, rfl⟩
            · exact Or.inr ⟨hneeded, k, rfl⟩
      · simp only [hurls, if_neg hgallery]
        exact h

/-- **What is read is stored** when the route answers `ok`. -/
theorem contentRoute_keeps {req : ContentRequest} {ids : List Bytes}
    (hok : (contentRoute mint langs req s).2 = .ok ids) :
    StoresRead mint langs (readBlocks req.body langs) (contentRoute mint langs req s).1.content := by
  unfold contentRoute at hok ⊢
  by_cases hfound : (!req.found) = true
  · simp [hfound] at hok
  by_cases hmayEdit : (!req.mayEdit) = true
  · simp [hfound, hmayEdit] at hok
  rw [if_neg hfound, if_neg hmayEdit] at hok ⊢
  by_cases hdone : (s.updateEntryContent mint langs (readBlocks req.body langs) req.write).2.2 = true
  · have hwrite : req.write ≠ .failed := by
      intro hfailed
      simp [EntryStore.updateEntryContent, hfailed] at hdone
    simp only [if_pos hdone]
    have hfold : ∀ turns : List ℕ, ∀ st, SavedSoFar mint langs (readBlocks req.body langs) st →
        SavedSoFar mint langs (readBlocks req.body langs)
          (turns.foldl (galleryTurn mint langs req) st) := by
      intro turns
      induction turns with
      | nil => exact fun st hst => hst
      | cons i turns ih => exact fun st hst => ih _ (savedSoFar_galleryTurn hst i)
    exact (hfold _ _ (savedSoFar_update (KeepsAll.refl mint _)
      fun hfailed => absurd hfailed hwrite)).1
  · simp [hdone] at hok

end

/-! ## Reading the form -/

/-- The codes of the catalog are short and plain. -/
theorem code_of_catalog {code : Bytes} (h : (languageCatalogName code).isSome = true) :
    code.length = 2 ∧ 38 ∉ code := by
  have hall : ∀ e ∈ languageCatalog, e.1.length = 2 ∧ 38 ∉ e.1 := by decide
  rw [languageCatalogName, Option.isSome_map, List.find?_isSome] at h
  obtain ⟨e, he, hcode⟩ := h
  obtain rfl : e.1 = code := by simpa using hcode
  exact hall e he

/-- Up to the cap the name of a field is not cut, and holds no ampersand. -/
theorem fieldName_eq (hi : i < 200) {suffix : Bytes} (hlen : suffix.length ≤ 10)
    (hamp : 38 ∉ suffix) :
    fieldName i suffix = blockField i suffix ∧ 38 ∉ blockField i suffix := by
  have hdecimal : ∀ i < 200, (decimal i).length ≤ 3 := by decide +kernel
  constructor
  · rw [fieldName, blockField, List.take_of_length_le]
    have hprefix : (lit "content_").length = 8 := rfl
    have hline : (lit "_").length = 1 := rfl
    have := hdecimal i hi
    simp only [List.length_append]
    omega
  · simp only [blockField, List.mem_append, not_or]
    refine ⟨⟨⟨by decide, fun h => ?_⟩, by decide⟩, hamp⟩
    exact absurd (isDigit_of_mem_decimal h) (by decide)

/-- A field is read as it was posted. -/
theorem readField_eq {v : Bytes} (hi : i < 200) {suffix : Bytes}
    (hlen : suffix.length ≤ 10) (hamp : 38 ∉ suffix)
    (h : formValue body (blockField i suffix) = some v) (hfits : FitsValue v) :
    parseUrlencodedField body (fieldName i suffix) valueSize = v := by
  obtain ⟨hname, hplain⟩ := fieldName_eq hi hlen hamp
  rw [hname]
  exact parseUrlencodedField_of_formValue hplain h hfits.2 hfits.1

/-- The digits of a number that fits an `int` fit any buffer here. -/
theorem fitsValue_signed {n : ℤ} (hlo : -2 ^ 31 ≤ n) (hhi : n < 2 ^ 31) : FitsValue (signed n) := by
  have hdigits : (decimal n.natAbs).length ≤ 10 := (length_decimal_le_iff (by decide)).mpr (by omega)
  have hplain : 0 ∉ decimal n.natAbs := fun h =>
    absurd (isDigit_of_mem_decimal h) (by decide)
  unfold FitsValue valueSize signed
  split_ifs
  · refine ⟨by simp only [List.length_cons]; omega, fun h => ?_⟩
    exact hplain ((List.mem_cons.mp h).resolve_left (by decide))
  · exact ⟨by omega, hplain⟩

/-- The number of blocks is read as it was posted, up to the cap. -/
theorem blockCount_eq {n : ℕ} (hn : n < 2 ^ 31)
    (h : formValue body (lit "content_count") = some (decimal n)) : blockCount body = min 200 n := by
  have hdigits : (decimal n).length ≤ 10 := (length_decimal_le_iff (by decide)).mpr (by omega)
  have hplain : 0 ∉ decimal n := fun h0 => absurd (isDigit_of_mem_decimal h0) (by decide)
  have hkey : 38 ∉ lit "content_count" := by decide
  have hsize : (decimal n).length < 16 := by omega
  have hread := parseUrlencodedField_of_formValue hkey h hplain hsize
  have hatoi : atoi (decimal n) = n := by
    rw [← signed_natCast]
    exact atoi_signed (by omega) (by omega)
  rw [blockCount, hread, hatoi]
  omega

/-- **The blocks are read as they were posted**, the first 200. -/
theorem readBlocks_eq {langs : List Bytes} {posted : List PostedBlock}
    (h : PostsContent langs body posted) (hn : posted.length < 2 ^ 31)
    (ht : Takes langs (posted.take 200)) {p : PostedBlock} {r : ContentBlockEdit}
    (hp : (posted.take 200)[i]? = some p) (hr : (readBlocks body langs)[i]? = some r) :
    r.type = p.type ∧ r.order = p.order ∧ r.extraData = p.extraData ∧
      r.textValues = langs.map p.text := by
  have hmem : p ∈ posted.take 200 := List.mem_of_getElem? hp
  have hi : i < (posted.take 200).length := (List.getElem?_eq_some_iff.mp hp).1
  rw [List.length_take] at hi
  have hi200 : i < 200 := by omega
  rw [List.getElem?_take_of_lt hi200] at hp
  obtain rfl : readBlock body langs i = r := by
    simpa [readBlocks, blockCount_eq hn h.count, List.getElem?_range hi] using hr
  obtain ⟨hlo, hhi⟩ := ht.order p hmem
  refine ⟨?_, ?_, ?_, ?_⟩
  · exact readField_eq hi200 (by decide) (by decide) (h.type i p hp) (ht.type p hmem)
  · show atoi _ = _
    rw [readField_eq hi200 (by decide) (by decide) (h.order i p hp) (fitsValue_signed hlo hhi),
      atoi_signed hlo hhi]
  · exact readField_eq hi200 (by decide) (by decide) (h.extraData i p hp) (ht.extraData p hmem)
  · refine List.map_congr_left fun code hcode => ?_
    obtain ⟨hlen, hamp⟩ := code_of_catalog (ht.languages code hcode)
    have hprefix : (lit "text_").length = 5 := rfl
    have hplain : 38 ∉ lit "text_" ++ code := by
      rw [List.mem_append, not_or]
      exact ⟨by decide, hamp⟩
    exact readField_eq hi200 (by rw [List.length_append]; omega) hplain (h.text i p hp code hcode)
      (ht.text p hmem code hcode)

/-! ## What is posted is stored -/

theorem zip_map_self (langs : List Bytes) (f : Bytes → Bytes) :
    langs.zip (langs.map f) = langs.map fun code => (code, f code) := by
  induction langs with
  | nil => rfl
  | cons code langs ih => rw [List.map_cons, List.zip_cons_cons, ih, List.map_cons]

/-- **What is posted is stored**, up to 200 blocks that fit the buffers: when the route answers `ok`,
the content is the posted blocks with their types, orders, extra data and texts, but for the id of a
gallery in the place of the extra data of a block that needs one. -/
theorem contentRoute_saves (mint : ℕ → IdHex) (langs : List Bytes) (req : ContentRequest)
    (s : EntryStore) (posted : List PostedBlock) (h : PostsContent langs req.body posted)
    (hbody : req.body.length ≤ maxBodySize) (htakes : Takes langs (posted.take 200))
    {ids : List Bytes} (hok : (contentRoute mint langs req s).2 = .ok ids) :
    HoldsAll langs (posted.take 200) (contentRoute mint langs req s).1.content
      (GalleryExtra mint langs) := by
  have hn : posted.length < 2 ^ 31 := by
    have hle := h.length_le
    unfold maxBodySize at hbody
    omega
  obtain ⟨blocks, hkeeps, hcontent⟩ := contentRoute_keeps hok
  have hread : (readBlocks req.body langs).length = (posted.take 200).length := by
    simp [readBlocks, blockCount_eq hn h.count]
  rw [hcontent]
  refine ⟨by rw [List.length_map, hkeeps.1, hread], fun i p b hp hb => ?_⟩
  rw [List.getElem?_map] at hb
  obtain ⟨e, he, rfl⟩ := Option.map_eq_some_iff.mp hb
  obtain ⟨r, hr⟩ : ∃ r, (readBlocks req.body langs)[i]? = some r := by
    rw [← Option.isSome_iff_exists, isSome_getElem?, hread]
    exact (List.getElem?_eq_some_iff.mp hp).1
  obtain ⟨htype, horder, hextra, htext⟩ := readBlocks_eq h hn htakes hp hr
  obtain ⟨htype', horder', hextra', htext'⟩ := hkeeps.2 i r e hr he
  refine ⟨htype'.trans htype, horder'.trans horder, ?_, ?_⟩
  · rw [hextra] at hextra'
    refine hextra'.imp_right fun ⟨⟨hgallery, hnone, urls, hurls, hne⟩, hminted⟩ => ⟨?_, hminted⟩
    rw [htext, List.head?_map] at hurls
    obtain ⟨code, hcode, rfl⟩ := Option.map_eq_some_iff.mp hurls
    exact ⟨htype ▸ hgallery, hextra ▸ hnone, code, hcode, hne⟩
  · show langs.zip e.textValues = _
    rw [htext', htext, zip_map_self]

/-! ## Saves that store something else -/

/-- Blocks that are stored exactly as they are posted, whenever the route answers `ok`. -/
def SavesExactly (langs : List Bytes) (posted : List PostedBlock) : Prop :=
  ∀ (mint : ℕ → IdHex) (req : ContentRequest) (s : EntryStore) (ids : List Bytes),
    PostsContent langs req.body posted → req.body.length ≤ maxBodySize →
      (contentRoute mint langs req s).2 = .ok ids →
        HoldsAll langs posted (contentRoute mint langs req s).1.content
          fun p extra => extra = p.extraData

/-- A block without an id, with a text in English. -/
def englishBlock (type text : Bytes) : PostedBlock := ⟨[], type, 0, [], fun _ => text⟩

/-- A request to save a few blocks in English. -/
def englishRequest (posted : List PostedBlock) : ContentRequest where
  body := editorForm [lit "en"] posted

theorem postsContent_englishRequest (posted : List PostedBlock) :
    PostsContent [lit "en"] (englishRequest posted).body posted :=
  postsContent_editorForm (by decide) posted

/-- An entry without content, and ids that are given out for it. -/
def emptyEntry : EntryStore := ⟨List.replicate 24 97, [], [], 0⟩

def countedIds (n : ℕ) : IdHex := List.replicate (24 - (decimal n).length) 48 ++ decimal n

/-- Such a request is answered with `ok`. -/
theorem contentRoute_englishRequest (posted : List PostedBlock) :
    ∃ ids, (contentRoute countedIds [lit "en"] (englishRequest posted) emptyEntry).2 = .ok ids :=
  ⟨_, rfl⟩

/-- Blocks of short words, or one long one, fit the body limit. -/
theorem length_englishRequest_le (type text : Bytes) (n : ℕ) (htype : type.length ≤ 7)
    (hsize : n ≤ 201 ∧ text.length ≤ 7 ∨ n ≤ 1 ∧ text.length ≤ 8192) :
    (englishRequest (List.replicate n (englishBlock type text))).body.length ≤ maxBodySize := by
  have hle : ∀ m, 7 ≤ m → text.length ≤ m → n < 1000 →
      (englishRequest (List.replicate n (englishBlock type text))).body.length ≤
        (30 + 3 * m) * (1 + (4 + 1) * n) := by
    intro m hm htext hn
    have hlangs : ∀ code ∈ [lit "en"], code.length ≤ 2 := by decide
    have hlen : (List.replicate n (englishBlock type text)).length = n := List.length_replicate
    have h := length_editorForm_le hlangs (hlen.trans_lt hn) (hm.trans' (by decide)) fun p hp => by
      obtain rfl := List.eq_of_mem_replicate hp
      have horder : (signed 0).length = 1 := rfl
      exact ⟨Nat.zero_le _, htype.trans hm, horder.le.trans (by omega), Nat.zero_le _,
        fun code _ => htext⟩
    rwa [hlen] at h
  unfold maxBodySize
  rcases hsize with ⟨hn, htext⟩ | ⟨hn, htext⟩
  · have := hle 7 le_rfl htext (by omega)
    omega
  · have := hle 8192 (by omega) htext (by omega)
    omega

/-- An author's gallery is saved. -/
theorem contentRoute_saves_gallery :
    HoldsAll [lit "en"] ((List.replicate 1 (englishBlock (lit "gallery") (lit "a.jpg"))).take 200)
      (contentRoute countedIds [lit "en"] (englishRequest (List.replicate 1
        (englishBlock (lit "gallery") (lit "a.jpg")))) emptyEntry).1.content
      (GalleryExtra countedIds [lit "en"]) := by
  obtain ⟨ids, hok⟩ :=
    contentRoute_englishRequest (List.replicate 1 (englishBlock (lit "gallery") (lit "a.jpg")))
  have hsize := length_englishRequest_le (lit "gallery") (lit "a.jpg") 1 (by decide)
    (Or.inl ⟨by decide, by decide⟩)
  refine contentRoute_saves countedIds [lit "en"] _ emptyEntry _ (postsContent_englishRequest _)
    hsize ?_ hok
  have hone : ∀ p ∈ (List.replicate 1 (englishBlock (lit "gallery") (lit "a.jpg"))).take 200,
      p = englishBlock (lit "gallery") (lit "a.jpg") := fun p hp =>
    List.eq_of_mem_replicate (List.mem_of_mem_take hp)
  constructor
  · decide
  · intro p hp
    rw [hone p hp]
    exact ⟨by decide, by decide⟩
  · intro p hp
    rw [hone p hp]
    exact ⟨by decide, by decide⟩
  · intro p hp
    rw [hone p hp]
    exact ⟨by decide, by decide⟩
  · intro p hp code _
    rw [hone p hp]
    exact (⟨by decide, by decide⟩ : FitsValue (lit "a.jpg"))

/-- The texts that are stored were read into a buffer. -/
theorem StoresRead.length_text_lt {mint : ℕ → IdHex} {langs : List Bytes}
    {content : List StoredBlock} (h : StoresRead mint langs (readBlocks body langs) content)
    {b : StoredBlock} (hb : b ∈ content) {t : Bytes × Bytes} (ht : t ∈ b.text) :
    t.2.length < valueSize := by
  obtain ⟨blocks, hkeeps, rfl⟩ := h
  obtain ⟨e, he, rfl⟩ := List.mem_map.mp hb
  obtain ⟨i, hi, rfl⟩ := List.getElem_of_mem he
  have hread := hkeeps.1 ▸ hi
  have hsame := (hkeeps.2 i _ _ (List.getElem?_eq_getElem hread) (List.getElem?_eq_getElem hi)).textValues
  have hvalue : t.2 ∈ blocks[i].textValues := (List.of_mem_zip ht).2
  rw [hsame] at hvalue
  obtain ⟨j, -, hj⟩ := List.mem_map.mp (List.getElem_mem hread)
  rw [← hj] at hvalue
  obtain ⟨code, -, hcode⟩ := List.mem_map.mp hvalue
  rw [← hcode]
  exact length_parseUrlencodedField_lt body _ (by decide)

/-- **A save is not exact**: a gallery block is stored with the id of its gallery, of 201 blocks 200
are stored, and of a text of 8192 bytes one byte less. -/
theorem not_savesExactly :
    ¬ SavesExactly [lit "en"] (List.replicate 1 (englishBlock (lit "gallery") (lit "a.jpg"))) ∧
      ¬ SavesExactly [lit "en"] (List.replicate 201 (englishBlock (lit "text") (lit "a"))) ∧
        ¬ SavesExactly [lit "en"]
          (List.replicate 1 (englishBlock (lit "text") (List.replicate 8192 97))) := by
  refine ⟨fun h => ?_, fun h => ?_, fun h => ?_⟩
  · obtain ⟨ids, hok⟩ :=
      contentRoute_englishRequest (List.replicate 1 (englishBlock (lit "gallery") (lit "a.jpg")))
    have hsize := length_englishRequest_le (lit "gallery") (lit "a.jpg") 1 (by decide)
      (Or.inl ⟨by decide, by decide⟩)
    have hsaved := h countedIds _ emptyEntry ids (postsContent_englishRequest _) hsize hok
    have hcontent : (contentRoute countedIds [lit "en"] (englishRequest (List.replicate 1
        (englishBlock (lit "gallery") (lit "a.jpg")))) emptyEntry).1.content[0]?.map
          (·.extraData) = some (countedIds 1) := by decide +kernel
    obtain ⟨b, hb, hextra⟩ := Option.map_eq_some_iff.mp hcontent
    have hempty : b.extraData = [] := (hsaved.2 0 _ b rfl hb).extraData
    rw [hempty] at hextra
    cases hextra
  · obtain ⟨ids, hok⟩ := contentRoute_englishRequest
      (List.replicate 201 (englishBlock (lit "text") (lit "a")))
    have hsize := length_englishRequest_le (lit "text") (lit "a") 201 (by decide)
      (Or.inl ⟨by decide, by decide⟩)
    have hsaved := h countedIds _ emptyEntry ids (postsContent_englishRequest _) hsize hok
    obtain ⟨blocks, hkeeps, hcontent⟩ := contentRoute_keeps hok
    have hlen := hsaved.1
    rw [hcontent, List.length_map, hkeeps.1, readBlocks, List.length_map, List.length_range,
      List.length_replicate] at hlen
    have hcap : ∀ body, blockCount body ≤ 200 := by
      intro body
      unfold blockCount
      omega
    exact absurd (hlen ▸ hcap _) (by decide)
  · obtain ⟨ids, hok⟩ := contentRoute_englishRequest
      (List.replicate 1 (englishBlock (lit "text") (List.replicate 8192 97)))
    have hlong : (List.replicate 8192 (97 : UInt8)).length = 8192 := List.length_replicate
    have hsize := length_englishRequest_le (lit "text") (List.replicate 8192 97) 1 (by decide)
      (Or.inr ⟨le_rfl, hlong.le⟩)
    have hsaved := h countedIds _ emptyEntry ids (postsContent_englishRequest _) hsize hok
    obtain ⟨b, hb⟩ := List.length_eq_one_iff.mp hsaved.1
    have htext := (hsaved.2 0 _ b rfl (by rw [hb]; rfl)).text
    have hlt := (contentRoute_keeps hok).length_text_lt (b := b) (by rw [hb]; exact List.mem_cons_self)
      (t := (lit "en", List.replicate 8192 97)) (by rw [htext]; exact List.mem_cons_self)
    rw [hlong] at hlt
    exact absurd hlt (by decide)

end BoatRudder.WebServer
